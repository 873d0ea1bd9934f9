import Mathlib.Order.Defs.Unbundled
import ProtocolIR.Proofs.Replay.Basic

/-!
# What holds when a computation returns

Nothing is said about faults here: a computation ensures a property from a state when every return
from there has it. So the rules ask for nothing about the state, and apply to trees of any form. A
pass *leads* along a preorder of trees when it ensures that the tree it leaves comes after the one it
found; passes are put together from such passes.
-/

namespace ProtocolIR

open List

/-- From `s`, a computation that returns ends as `p` says. -/
def Ensures {σ α : Type} (m : StateT σ (Except Fault) α) (s : σ) (p : α → σ → Prop) : Prop :=
  ∀ a s', m s = .ok (a, s') → p a s'

section Rules

variable {σ α β : Type} {m : StateT σ (Except Fault) α} {s : σ} {p p' : α → σ → Prop}

theorem Safe.ensures (h : Safe m s p) : Ensures m s p := fun _ _ hm ↦ h.post_of_ok hm

namespace Ensures

theorem mono (h : Ensures m s p) (himp : ∀ a s', p a s' → p' a s') : Ensures m s p' :=
  fun a s' hm ↦ himp a s' (h a s' hm)

theorem bind {k : α → StateT σ (Except Fault) β} {q : α → σ → Prop} {p : β → σ → Prop}
    (hm : Ensures m s q) (hk : ∀ a s', q a s' → Ensures (k a) s' p) :
    Ensures (m >>= k) s p := by
  intro b s'' h
  obtain ⟨a, s', ha, hb⟩ := bind_eq_ok h
  exact hk a s' (hm a s' ha) b s'' hb

theorem map {f : α → β} {p : β → σ → Prop} (hm : Ensures m s fun a s' ↦ p (f a) s') :
    Ensures (f <$> m) s p := by
  rw [map_eq_pure_bind]
  refine hm.bind fun a s' ha ↦ ?_
  intro b s'' hb
  cases hb
  exact ha

end Ensures

theorem ensures_pure {a : α} (h : p a s) : Ensures (pure a) s p := by
  intro b s' hb
  cases hb
  exact h

theorem ensures_get_bind {k : σ → StateT σ (Except Fault) α} (h : Ensures (k s) s p) :
    Ensures (get >>= k) s p := h

theorem ensures_throw (f : Fault) : Ensures (throw f) s p := fun _ _ h ↦ nomatch h

/-- An edit that only gives a new state. -/
theorem ensures_update {f : σ → Except Fault σ} {p : Unit → σ → Prop}
    (h : ∀ s', f s = .ok s' → p () s') :
    Ensures (fun s ↦ do return ((), ← f s)) s p := by
  intro a s' hrun
  obtain ⟨s₁, hf, hs₁⟩ := exists_of_bind_eq_ok hrun
  cases hs₁
  exact h _ hf

/-- Steps of a fold that each keep an invariant keep it together. -/
theorem ensures_foldlM {ι : Type} {step : α → ι → StateT σ (Except Fault) α} {l : List ι}
    (hstep : ∀ a s, ∀ i ∈ l, p a s → Ensures (step a i) s p) {a : α}
    (h : p a s) : Ensures (l.foldlM step a) s p := by
  induction l generalizing a s with
  | nil => exact ensures_pure h
  | cons i l ih =>
    rw [foldlM_cons]
    refine (hstep a s i (mem_cons_self ..) h).bind fun b s' hb ↦ ?_
    exact ih (fun a s j hj ↦ hstep a s j (mem_cons_of_mem _ hj)) hb

end Rules

section Pass

variable {α β : Type} {w : Workspace} {p : Unit → Workspace → Prop} {stream : Stream} {message : String}

theorem ensures_tree_bind {k : Tree → Pass β} {p : β → Workspace → Prop}
    (h : Ensures (k w.tree) w p) : Ensures (Pass.tree >>= k) w p := h

/-- An edit of the tree in a pass; the log is not touched. -/
theorem ensures_edit {edit : Surgery α} {p : α → Workspace → Prop}
    (h : Ensures edit w.tree fun a t ↦ p a ⟨t, w.log⟩) : Ensures (liftM edit : Pass α) w p := by
  intro a ⟨t', log⟩ hrun
  obtain ⟨hedit, rfl⟩ := edit_eq_ok hrun
  exact h a t' hedit

/-- A computation without a state, in a pass. -/
theorem ensures_lift {x : Except Fault α} {p : α → Workspace → Prop}
    (h : ∀ a, x = .ok a → p a w) : Ensures (liftM x : Pass α) w p := by
  cases x with
  | error f => exact ensures_throw f
  | ok a => exact ensures_pure (h a rfl)

theorem ensures_modifyTree {f : Tree → Tree} (h : p () ⟨f w.tree, w.log⟩) :
    Ensures (Pass.modifyTree f) w p := ensures_pure h

theorem ensures_debug (h : ∀ log, p () ⟨w.tree, log⟩) : Ensures (Pass.debug stream message) w p :=
  ensures_pure (h _)

theorem ensures_recordChange {n : NodeId}
    (h : ∀ log, p () ⟨w.tree, log⟩) : Ensures (Pass.recordChange stream n message) w p :=
  (Pass.safe_recordChange h).ensures

theorem ensures_replaceNode {old new : NodeId}
    (h : ∀ t' log, w.tree.replaceNode old new = .ok t' → p () ⟨t', log⟩) :
    Ensures (Pass.replaceNode stream old new message) w p := by
  refine ensures_tree_bind ((ensures_lift (p := fun _ w' ↦ w' = w) fun _ _ ↦ rfl).bind ?_)
  rintro line _ rfl
  refine (ensures_edit (p := fun _ w' ↦ ∀ log, p () ⟨w'.tree, log⟩) ?_).bind fun _ w' hw' ↦ ?_
  · exact ensures_update fun t' ht' log ↦ h t' log ht'
  · exact ensures_debug hw'

end Pass

/-! ## Passes along a preorder -/

/-- From a workspace, a pass that returns leaves a tree that comes after the one it found. -/
def Leads {α : Type} (r : Tree → Tree → Prop) (m : Pass α) (w : Workspace) : Prop :=
  Ensures m w fun _ w' ↦ r w.tree w'.tree

section Leads

variable {α β ι : Type} {r : Tree → Tree → Prop} {w : Workspace} {order : Order} {start : NodeId}

theorem leads_tree_bind {k : Tree → Pass α} (h : Leads r (k w.tree) w) :
    Leads r (Pass.tree >>= k) w := h

theorem leads_edit {edit : Surgery α} (h : Ensures edit w.tree fun _ t' ↦ r w.tree t') :
    Leads r (liftM edit : Pass α) w := ensures_edit h

theorem leads_modifyTree {f : Tree → Tree} (h : r w.tree (f w.tree)) :
    Leads r (Pass.modifyTree f) w := ensures_modifyTree h

variable [IsPreorder Tree r]

theorem leads_pure (a : α) : Leads r (pure a) w := ensures_pure (refl_of r _)

theorem Leads.bind {m : Pass α} {k : α → Pass β} (hm : Leads r m w) (hk : ∀ a w', Leads r (k a) w') :
    Leads r (m >>= k) w :=
  Ensures.bind hm fun a w' hw' ↦ (hk a w').mono fun _ _ hw'' ↦ trans_of r hw' hw''

theorem leads_lift (x : Except Fault α) : Leads r (liftM x : Pass α) w :=
  ensures_lift fun _ _ ↦ refl_of r _

theorem leads_debug (stream : Stream) (message : String) : Leads r (Pass.debug stream message) w :=
  ensures_debug fun _ ↦ refl_of r _

theorem leads_recordChange (stream : Stream) (n : NodeId) (message : String) :
    Leads r (Pass.recordChange stream n message) w :=
  ensures_recordChange fun _ ↦ refl_of r _

theorem leads_foldlM {step : α → ι → Pass α} (h : ∀ a i w, Leads r (step a i) w) (l : List ι)
    (a : α) : Leads r (l.foldlM step a) w := by
  unfold Leads
  refine ensures_foldlM (fun a w' i _ hw' ↦ ?_) (refl_of r w.tree)
  exact (h a i w').mono fun _ _ hw'' ↦ trans_of r hw' hw''

theorem leads_mapM {l : List ι} {step : ι → Pass α} (h : ∀ i ∈ l, ∀ w, Leads r (step i) w) :
    Leads r (l.mapM step) w := by
  induction l generalizing w with
  | nil => exact leads_pure _
  | cons i l ih =>
    rw [mapM_cons]
    refine (h i (mem_cons_self ..) w).bind fun a w ↦ ?_
    exact (ih fun j hj ↦ h j (mem_cons_of_mem _ hj)).bind fun _ _ ↦ leads_pure _

theorem leads_forM {l : List ι} {step : ι → Pass PUnit} (h : ∀ i ∈ l, ∀ w, Leads r (step i) w) :
    Leads r (l.forM step) w := by
  induction l generalizing w with
  | nil => exact leads_pure _
  | cons i l ih =>
    show Leads r (step i >>= fun _ ↦ l.forM step) w
    exact (h i (mem_cons_self ..) w).bind fun _ w ↦ ih fun j hj ↦ h j (mem_cons_of_mem _ hj)

theorem leads_walk {visit : α → NodeId → Pass α} {init : α} (h : ∀ a n w, Leads r (visit a n) w) :
    Leads r (Pass.walk order start init visit) w := by
  refine leads_tree_bind (leads_foldlM (fun a n w ↦ leads_tree_bind ?_) _ _)
  split
  · exact h a n w
  · exact leads_pure a

theorem leads_sweep {visit : NodeId → Pass Bool} (h : ∀ n w, Leads r (visit n) w) :
    Leads r (Pass.sweep order start visit) w :=
  leads_walk fun _ n w ↦ (h n w).bind fun _ _ ↦ leads_pure _

end Leads

end ProtocolIR
