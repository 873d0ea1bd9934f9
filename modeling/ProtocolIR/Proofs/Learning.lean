import ProtocolIR.Proofs.Pass.Enumeration
import ProtocolIR.Proofs.Pass.Resolution
import ProtocolIR.Proofs.Pass.Coercion

/-!
# Passes that only learn

Passes write into nodes in place, and each of them guards its writing by itself. A pass learns when,
wherever it returns, the nodes that were there are there and everything that was known about them is
as it was. Nothing is asked of the tree for that, not even that it is coherent.

What is written is a canonical ID, a type ID, a serialization, a label, the link of a name, an owner or
a prototype, and in each case the node was seen to lack it, or had the same before. Coercions, and what
units add to resolution, make new nodes and refill slots; they write nothing into a node that is there.
-/

namespace ProtocolIR

open Tree

instance : IsPreorder Tree Refines where
  refl := .refl
  trans _ _ _ := .trans

/-- From a workspace, a pass that returns has at most added to what is known. -/
abbrev Learns {α : Type} (m : Pass α) (w : Workspace) : Prop := Leads Refines m w

theorem learns_of_rewrites {s : Sources} {good : Prop} {m : Pass Bool} {w : Workspace} {n : NodeId}
    (h : Sure good m w fun b w' ↦ Rewrites s good w.tree n b w'.tree) : Learns m w :=
  Ensures.mono h.1 fun _ _ h ↦ h.refines

theorem Tree.Refines.of_unifyType (t : Tree) (n : NodeId) : t.Refines (t.unifyType n).2 := by
  rcases unifyType_cases t n with heq | ⟨data, text, hkind, hnone, -, heq⟩
  · rw [heq]
    exact .refl t
  · rw [heq]
    refine .of_setKind ?_
    rw [hkind]
    exact .type ⟨.same _, rfl, hnone ▸ .of_none _, .refl _⟩

/-! ## Naming, enums and resolution -/

namespace CanonicalId

theorem Identifies.refines {t t' : Tree} {b : Bool} (h : Identifies t b t') : t.Refines t' := by
  cases h with
  | none => exact .refl t
  | declaration hkind hnone =>
    refine .of_setKind ?_
    rw [hkind]
    exact .declaration ⟨rfl, rfl, hnone ▸ .of_none _, .same _⟩
  | type _ hkind hnone =>
    refine .of_setKind ?_
    rw [hkind]
    exact .type ⟨.same _, rfl, .refl _, hnone ▸ .of_none _⟩

theorem learns_assign (start : NodeId) (w : Workspace) : Learns (assign start) w :=
  leads_assign Identifies.refines start w

end CanonicalId

namespace Enumeration

theorem learns_normalizeEnum (n : NodeId) (w : Workspace) : Learns (normalizeEnum n) w := by
  refine leads_tree_bind ((leads_foldlM (fun progress l w ↦ ?_) _ _).bind fun progress w ↦ ?_)
  · exact Ensures.mono (ends_normalizeLabel _ progress l).1 fun _ _ hlabel ↦ hlabel.refines
  split
  · exact leads_pure _
  refine Leads.bind (leads_tree_bind ?_) fun _ _ ↦ leads_pure _
  refine (leads_edit fun _ _ h ↦ .of_create h).bind fun undef w ↦ ?_
  refine (leads_edit (ensures_update fun _ h ↦ .of_sameKinds (sameKinds_addChild h))).bind fun _ w ↦ ?_
  exact leads_recordChange .normalizer n _

theorem learns_normalize (start : NodeId) (w : Workspace) : Learns (normalize start) w := by
  refine leads_sweep fun n w ↦ leads_tree_bind ?_
  split
  · exact learns_normalizeEnum n w
  · exact leads_pure _

end Enumeration

theorem Resolution.learns_resolve (session : Session) (start : NodeId) (w : Workspace) :
    Learns (resolve session start) w :=
  leads_sweep fun _ _ ↦ learns_of_rewrites (sure_resolveNode .any)

/-! ## Coercion -/

namespace Coercion

namespace Sweep

/-- A part of a sweep that only learns, wherever it starts. -/
def Learning {α : Type} (m : Sweep α) : Prop := ∀ state w, Learns (m state) w

/-- What was learnt since the tree `t`. -/
def Learnt (t : Tree) (_ : SweepState) (w : Workspace) : Prop := t.Refines w.tree

theorem Learning.of_keeps {α : Type} {m : Sweep α}
    (h : ∀ t w, Keeps (fun _ ↦ True) (Learnt t) w m) : Learning m := fun state w ↦
  (h w.tree w state (.refl _)).1

theorem Learnt.goOn {t : Tree} {state : SweepState} {w : Workspace} {α : Type} {m : Pass α}
    {next : α → SweepState} (h : Learnt t state w) (hm : Learns m w) :
    Ends (fun _ ↦ True) m w fun a w' ↦ Learnt t (next a) w' :=
  (Ensures.mono hm fun _ _ h' ↦ h.trans h').ends

theorem steps_learnt (t : Tree) (session : Session) (stream : Stream) (n : NodeId)
    (asks : Tree → Nat → NodeId → Style → Prop) (tests : Nat → Prop) :
    Steps session stream (fun _ ↦ True) (Learnt t) n asks tests := by
  have hslot {w : Workspace} {i : Nat} {dst : NodeId} {style : Style} :
      Learns (coerceSlot session.conversions stream n i dst style) w :=
    learns_of_rewrites (sure_coerceSlot Sources.targets_any (fun _ _ ↦ trivial) (fun _ _ _ ↦ trivial) stream)
  exact ⟨fun h _ ↦ h.goOn hslot, fun h _ _ ↦ h.goOn hslot, fun h _ ↦ h.goOn (leads_edit
    ((growing_plainValueType .bool .const _).ensures.mono fun _ _ hq ↦ .of_growth hq.1.toGrowth))⟩

theorem learning_node (session : Session) (stream : Stream) (n : NodeId) :
    Learning (node session stream n) :=
  .of_keeps fun t _ ↦ (steps_learnt t session stream n _ _).keeps_node fun _ _ _ ↦ trivial

end Sweep

theorem learns_walk_sweep {visit : NodeId → Sweep Unit} (h : ∀ n, Sweep.Learning (visit n))
    (start : NodeId) (w : Workspace) :
    Learns (Sweep.walk visit start) w :=
  (leads_walk fun state n w ↦ (h n state w).bind fun _ _ ↦ leads_pure _).bind fun _ _ ↦ leads_pure _

end Coercion

open Coercion.Sweep in
theorem Units.Resolution.learning_resolveNode (session : Session) (n : NodeId) :
    Learning (resolveNode session n) :=
  .of_keeps fun t _ ↦ (steps_learnt t session .unitResolver n _ fun _ ↦ True).keeps_resolveNode trivial
    fun h hkind ↦ h.goOn (learns_of_rewrites (sure_resolveKeyword (s := .any) True (fun _ ↦ trivial) hkind))

end ProtocolIR
