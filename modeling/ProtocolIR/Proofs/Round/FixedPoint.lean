import ProtocolIR.Proofs.Replay.Naming
import ProtocolIR.Proofs.Replay.Resolution
import ProtocolIR.Proofs.Replay.Units
import ProtocolIR.Proofs.Round.Coherence

/-!
# A round without changes is a fixed point

A round that reports no change leaves a padding of the tree it started from: the tree as it was,
and types beside it that nothing refers to. A second round starts from that padding once the
scopes are forgotten, and replays the first one step by step.
-/

namespace ProtocolIR

open Tree Coercion

/-! ## Where a quiet round ends -/

namespace Tree

variable {b s : Tree} {n : NodeId}

theorem scopeOf_clearScopes (t : Tree) (n : NodeId) : t.clearScopes.scopeOf n = none := by
  unfold scopeOf clearScopes node
  rw [Array.getElem?_map]
  cases t.nodes[n.index]? <;> rfl

/-- Without its scopes, a tree in which nothing changed is a padding of what it was. -/
theorem Idle.padded (h : Idle b s) (hb : b.Rooted) (hs : s.Linked) :
    Padded b.clearScopes s.clearScopes := by
  have hinset : Inset b s :=
    ⟨hb, hs, h.size_le, fun hn ↦ congrArg Node.silent (h.node_eq hn), h.new_type⟩
  exact ⟨hinset.rescoped (sameNodes_clearScopes b) (sameNodes_clearScopes s), rfl,
    fun n ↦ (scopeOf_clearScopes s n).trans (scopeOf_clearScopes b n).symm⟩

namespace Idle

/-- The same nodes lie beneath an old node, since what an old node holds is old. -/
theorem within_iff (h : Idle b s) (hb : b.Linked) (hs : s.Linked) {a : NodeId} (ha : b.Has a) :
    s.Within a n ↔ b.Within a n := by
  constructor
  · intro hwithin
    induction hwithin with
    | here => exact .here
    | beneath hp _ ih =>
      have hheld := hs.held hp
      rw [h.slots_eq (ih.has ha)] at hheld
      exact .beneath (hb.parent_of_held hheld) ih
  · intro hwithin
    induction hwithin with
    | here => exact .here
    | beneath hp _ ih => exact .beneath ((h.parent_eq (has_of_parent hp)).trans hp) ih

/-- The same nodes are attached. -/
theorem isAttached_eq (h : Idle b s) (hb : b.Rooted) (hs : s.Coherent) (n : NodeId) :
    s.isAttached n = b.isAttached n := by
  unfold isAttached
  rw [Bool.eq_iff_iff, hs.isWithin_iff, hb.isWithin_iff]
  exact h.within_iff hb.toLinked hs.toLinked hb.has_root

end Idle

end Tree

/-! ## Replaying a round -/

namespace Round

variable {session : Session} {b s s' : Tree} {f : FrontEnd}

/-- The trees are paddings of one base. -/
def Settled (s s' : Tree) : Prop := ∃ b, Later b s s'

/-- A front end whose passes are replayed. -/
structure Replayed (session : Session) (f : FrontEnd) : Prop where
  scopes : ∀ {b s}, Padded b s → Padded (f.buildScopes b root) (f.buildScopes s root)
  sameNodes : ∀ t, SameNodes t (f.buildScopes t root)
  resolve : ∀ {b s s'}, Later b s s' →
    StaysQuiet b (f.resolve session root) (f.resolve session root) s s'

theorem Replayed.later (hf : Replayed session f) (h : Later b s s') :
    Later (f.buildScopes b root) (f.buildScopes s root) (f.buildScopes s' root) where
  left := hf.scopes h.left
  right := hf.scopes h.right
  size_le := by
    rw [(hf.sameNodes s).size_eq, (hf.sameNodes s').size_eq]
    exact h.size_le

variable (htame : Tame session.conversions)

include htame

/-- The part of a front end that changes nothing changes nothing in another padding. -/
theorem stays_step (hf : Replayed session f) (h : Later b s s') :
    StaysQuiet (f.buildScopes b root) (step session root f) (step session root f) s s' := by
  refine replays_debug_bind (replays_modifyTree_bind ?_)
  refine (CanonicalId.stays_assign (hf.later h)).bind ?_ fun s₁ s₁' h₁ ↦ ?_
  · exact loud_bind fun _ ↦ loud_bind fun _ ↦ loud_bind fun _ ↦ reports_true
  refine (hf.resolve h₁).bind ?_ fun s₂ s₂' h₂ ↦ ?_
  · exact loud_bind fun _ ↦ loud_bind fun _ ↦ reports_true
  refine (Unification.stays_unify h₂).bind ?_ fun s₃ s₃' h₃ ↦ ?_
  · exact loud_bind fun _ ↦ reports_true
  refine (stays_sweep_coercions htame h₃).bind ?_ fun s₄ s₄' h₄ ↦ ?_
  · exact reports_true
  exact stays_false h₄

theorem replays_run (frontEnds : List FrontEnd) (hf : ∀ f ∈ frontEnds, Replayed session f)
    {t t' : Tree} (h : Later b t.clearScopes t'.clearScopes) :
    Replays (· = false) (fun s s' _ c' ↦ c' = false ∧ Settled s s') (run frontEnds session root)
      (run frontEnds session root) t t' := by
  refine replays_modifyTree_bind (replays_foldlM ?_ ?_ fun _ ↦ ⟨rfl, b, h⟩)
  · intro changed f hchanged
    rw [Bool.eq_true_of_not_eq_false hchanged]
    exact loud_bind fun _ ↦ by rw [Bool.or_true]; exact reports_true
  · rintro s s' changed changed' f hmem rfl ⟨rfl, base, hlater⟩
    refine Replays.bind (stays_step htame (hf f hmem) hlater) ?_ ?_
    · intro c hc
      rw [Bool.eq_true_of_not_eq_false hc]
      exact reports_true
    · rintro s₁ s₁' c c' rfl ⟨rfl, hlater⟩
      exact replays_pure fun _ ↦ ⟨rfl, _, hlater⟩

end Round

namespace Compiler

variable (options : Options)

theorem steady_standard : Steady (standard options).session.conversions := by
  intro c hc b s x y style h hx hy
  obtain rfl | rfl := eq_of_mem_conversions hc
  · exact ⟨rfl, Units.convertType_eq h hx hy style⟩
  · exact ⟨rfl, rfl⟩

theorem plainConditions_standard : PlainConditions (standard options).session.conversions := by
  intro c hc t x y
  obtain rfl | rfl := eq_of_mem_conversions hc
  · rfl
  · rfl

theorem tame_standard : Tame (standard options).session.conversions where
  literals := plainLiterals_standard options
  steady := steady_standard options
  conditions := plainConditions_standard options

theorem replayed_units : Round.Replayed (standard options).session .units where
  scopes h := h.buildUnitScopes
  sameNodes t := sameNodes_buildUnitScopes t root
  resolve := Units.Resolution.stays_resolve (tame_standard options)

theorem replayed_base : Round.Replayed (standard options).session .base where
  scopes h := h.buildScopes
  sameNodes t := sameNodes_buildScopes t root
  resolve h := by
    refine (Resolution.stays_resolve (steady_standard options) h).bind ?_ fun s₁ s₁' h₁ ↦ ?_
    · exact loud_bind fun _ ↦ reports_true
    · exact (Enumeration.stays_normalize h₁).bind reports_true fun _ _ h₂ ↦ stays_false h₂

/-- From a coherent tree with its root node, a round that reports no change leaves exactly the
attached nodes attached, each with its kind, its slots and its parent; and the next round returns
and reports no change either. -/
theorem round_fixed (w w' : Workspace) (ht : w.tree.Rooted) (h : round options w = .ok (false, w')) :
    (∀ n, w'.tree.isAttached n = w.tree.isAttached n) ∧
      (∀ n, w.tree.isAttached n → w'.tree.kind n = w.tree.kind n ∧
        w'.tree.slots n = w.tree.slots n ∧ w'.tree.parent n = w.tree.parent n) ∧
      ∃ w'', round options w' = .ok (false, w'') := by
  have hstep := (isStep_round options w ht).post_of_ok h
  have hidle := hstep.idle rfl
  have hlater : Later w.tree.clearScopes w.tree.clearScopes w'.tree.clearScopes :=
    { left := .refl ((sameNodes_clearScopes w.tree).rooted ht)
      right := hidle.padded ht hstep.coherent.toLinked
      size_le := (hidle.padded ht hstep.coherent.toLinked).size_le }
  refine ⟨hidle.isAttached_eq ht hstep.coherent, ?_, ?_⟩
  · intro n hn
    have hn : w.tree.Has n := (ht.isWithin_iff.1 hn).has ht.has_root
    exact ⟨hidle.kind_eq hn, hidle.slots_eq hn, hidle.parent_eq hn⟩
  · have hreplays := Round.replays_run (tame_standard options) (standard options).frontEnds ?_ hlater
    · obtain ⟨c, w'', hrun, rfl, -⟩ := hreplays w.log w'.log false w' h rfl
      exact ⟨w'', hrun⟩
    · intro f hf
      obtain rfl | rfl := eq_of_mem_frontEnds hf
      · exact replayed_units options
      · exact replayed_base options

/-- A module with a condition on a name that is declared nowhere. -/
def danglingCondition : Tree := .ofRows [
  (.root, [3]),
  (.expression (.name (.ofText "x") none), [0]),
  (.statement .conditional, [1, 0, 0]),
  (.declares "m" .module .external "m", [2])]

theorem rooted_danglingCondition : danglingCondition.Rooted := by decide

/-- Every round makes the type of conditions anew, four nodes in all, and changes nothing else. -/
theorem round_fixed_danglingCondition :
    ∃ w' : Workspace, danglingCondition.Rooted ∧ round {} ⟨danglingCondition, #[]⟩ = .ok (false, w') ∧
      w'.tree.size = danglingCondition.size + 4 ∧
        (∀ n, w'.tree.isAttached n = danglingCondition.isAttached n) ∧
        (∀ n, danglingCondition.isAttached n → w'.tree.kind n = danglingCondition.kind n ∧
          w'.tree.slots n = danglingCondition.slots n ∧
          w'.tree.parent n = danglingCondition.parent n) ∧
        ∃ w'', round {} w' = .ok (false, w'') := by
  have hrun : ((round {} ⟨danglingCondition, #[]⟩).map fun r ↦ (r.1, r.2.tree.size)).toOption =
      some (false, danglingCondition.size + 4) := by
    decide +kernel
  have hrooted := rooted_danglingCondition
  cases hround : round {} ⟨danglingCondition, #[]⟩ with
  | error f => rw [hround] at hrun; cases hrun
  | ok r =>
    obtain ⟨changed, w'⟩ := r
    rw [hround] at hrun
    obtain ⟨rfl, hsize⟩ := Prod.mk.inj (Option.some.inj hrun)
    exact ⟨w', hrooted, rfl, hsize, round_fixed {} ⟨danglingCondition, #[]⟩ w' hrooted hround⟩

end Compiler

end ProtocolIR
