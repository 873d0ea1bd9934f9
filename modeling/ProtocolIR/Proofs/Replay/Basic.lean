import ProtocolIR.Proofs.Padding.Basic
import ProtocolIR.Proofs.Saturation

/-!
# Replaying quiet passes

A run of a pass that reports no change is *replayed* by a run from another padding of the same
base: the second run reports no change either, and the two end in paddings of one base again. The
rules below follow the construction of passes. Where a pass reports a change there is nothing to
replay, so only the quiet branches matter.
-/

namespace ProtocolIR

open Tree List

/-- If the first pass ends quietly, so does the second, with related trees and results. -/
def Replays {α : Type} (quiet : α → Prop) (related : Tree → Tree → α → α → Prop) (m m' : Pass α)
    (s s' : Tree) : Prop :=
  ∀ log log' a w, m ⟨s, log⟩ = .ok (a, w) → quiet a →
    ∃ a' w', m' ⟨s', log'⟩ = .ok (a', w') ∧ related w.tree w'.tree a a'

/-- A pass that never ends quietly. -/
def Loud {α : Type} (quiet : α → Prop) (m : Pass α) : Prop :=
  ∀ w a w', m w = .ok (a, w') → ¬quiet a

section Rules

variable {α β ι : Type} {quiet : α → Prop} {related : Tree → Tree → α → α → Prop} {m m' : Pass α}
  {s s' : Tree} {a a' : α} {k k' : β → Pass α} {l : List ι}

/-- The parts of a pass that returns. -/
theorem bind_eq_ok {σ γ δ : Type} {x : StateT σ (Except Fault) γ} {k : γ → StateT σ (Except Fault) δ}
    {state : σ} {r : δ × σ} (h : (x >>= k) state = .ok r) :
    ∃ c mid, x state = .ok (c, mid) ∧ k c mid = .ok r := by
  have hrun : (x state >>= fun p ↦ k p.1 p.2) = .ok r := h
  obtain ⟨p, hx, hk⟩ := exists_of_bind_eq_ok hrun
  exact ⟨p.1, p.2, hx, hk⟩

theorem loud_pure (h : ¬quiet a) : Loud quiet (pure a) := by
  intro w c w' hrun
  cases hrun
  exact h

theorem loud_bind {x : Pass β} (h : ∀ c, Loud quiet (k c)) : Loud quiet (x >>= k) := by
  intro w a w' hrun
  obtain ⟨c, mid, -, hk⟩ := bind_eq_ok hrun
  exact h c mid a w' hk

theorem Loud.replays (h : Loud quiet m) : Replays quiet related m m' s s' :=
  fun _ _ _ _ hrun hquiet ↦ absurd hquiet (h _ _ _ hrun)

theorem replays_pure (h : quiet a → related s s' a a') :
    Replays quiet related (pure a) (pure a') s s' := by
  intro log log' c w hrun hquiet
  cases hrun
  exact ⟨a', _, rfl, h hquiet⟩

/-- One pass after another. A loud first part makes the whole loud. -/
theorem Replays.bind {quiet₁ : β → Prop} {related₁ : Tree → Tree → β → β → Prop} {x x' : Pass β}
    (hx : Replays quiet₁ related₁ x x' s s')
    (hloud : ∀ c, ¬quiet₁ c → Loud quiet (k c))
    (hk : ∀ s₁ s₁' c c', quiet₁ c → related₁ s₁ s₁' c c' → Replays quiet related (k c) (k' c') s₁ s₁') :
    Replays quiet related (x >>= k) (x' >>= k') s s' := by
  intro log log' a w hrun hquiet
  obtain ⟨c, mid, hrun, hrest⟩ := bind_eq_ok hrun
  by_cases hc : quiet₁ c
  · obtain ⟨c', mid', hrun', hrelated⟩ := hx log log' c mid hrun hc
    obtain ⟨a', w', hrest', hrelated'⟩ :=
      hk mid.tree mid'.tree c c' hc hrelated mid.log mid'.log a w hrest hquiet
    exact ⟨a', w', (bind_of_ok hrun').trans hrest', hrelated'⟩
  · exact absurd hquiet (hloud c hc _ _ _ hrest)

theorem replays_tree_bind {k k' : Tree → Pass α} (h : Replays quiet related (k s) (k' s') s s') :
    Replays quiet related (Pass.tree >>= k) (Pass.tree >>= k') s s' := h

theorem replays_modifyTree_bind {f f' : Tree → Tree} {k k' : Unit → Pass α}
    (h : Replays quiet related (k ()) (k' ()) (f s) (f' s')) :
    Replays quiet related (Pass.modifyTree f >>= k) (Pass.modifyTree f' >>= k') s s' := h

theorem replays_debug_bind {stream stream' : Stream} {message message' : String} {k k' : Unit → Pass α}
    (h : Replays quiet related (k ()) (k' ()) s s') :
    Replays quiet related (Pass.debug stream message >>= k) (Pass.debug stream' message' >>= k') s s' :=
  fun log log' a w hrun hquiet ↦
    h (log.push (.debug stream message)) (log'.push (.debug stream' message')) a w hrun hquiet

/-- What a computation without a state returns, the other returns. -/
theorem replays_lift_bind {x x' : Except Fault β} (hx : Below x x')
    (hk : ∀ c, x = .ok c → Replays quiet related (k c) (k' c) s s') :
    Replays quiet related (liftM x >>= k) (liftM x' >>= k') s s' := by
  intro log log' a w hrun hquiet
  cases hc : x with
  | error f => rw [hc] at hrun; cases hrun
  | ok c =>
    rw [hc] at hrun
    rw [hx c hc]
    exact hk c hc log log' a w hrun hquiet

theorem edit_eq_ok {x : Surgery β} {w : Workspace} {r : β × Workspace}
    (h : (liftM x : Pass β) w = .ok r) : x w.tree = .ok (r.1, r.2.tree) ∧ r.2.log = w.log := by
  have hrun : (x w.tree >>= fun p ↦ Except.ok (p.1, Workspace.mk p.2 w.log)) = .ok r := h
  obtain ⟨p, hx, hr⟩ := exists_of_bind_eq_ok hrun
  cases hr
  exact ⟨hx, rfl⟩

/-- An edit of the tree in a pass: what follows is loud, or the other edit returns as well. -/
theorem replays_edit_bind {x x' : Surgery β} (h : ∀ c t, x s = .ok (c, t) → Loud quiet (k c) ∨
      ∃ c' t', x' s' = .ok (c', t') ∧ Replays quiet related (k c) (k' c') t t') :
    Replays quiet related ((liftM x : Pass β) >>= k) ((liftM x' : Pass β) >>= k') s s' := by
  intro log log' a w hrun hquiet
  obtain ⟨c, mid, hx, hrest⟩ := bind_eq_ok hrun
  rcases h c mid.tree (edit_eq_ok hx).1 with hloud | ⟨c', t', hx', hreplays⟩
  · exact absurd hquiet (hloud _ _ _ hrest)
  · obtain ⟨a', w', hrest', hrelated⟩ := hreplays mid.log log' a w hrest hquiet
    exact ⟨a', w', (bind_of_ok (edit_of_ok hx')).trans hrest', hrelated⟩

theorem loud_foldlM {step : α → ι → Pass α} (hloud : ∀ a i, ¬quiet a → Loud quiet (step a i))
    (ha : ¬quiet a) : Loud quiet (l.foldlM step a) := by
  induction l generalizing a with
  | nil => exact loud_pure ha
  | cons i rest ih =>
    rw [foldlM_cons]
    intro w c w' hrun
    obtain ⟨d, mid, hstep, hrest⟩ := bind_eq_ok hrun
    exact ih (hloud a i ha _ _ _ hstep) _ _ _ hrest

theorem replays_foldlM {step step' : α → ι → Pass α}
    (hloud : ∀ a i, ¬quiet a → Loud quiet (step a i))
    (hstep : ∀ s s' a a', ∀ i ∈ l, quiet a → related s s' a a' →
      Replays quiet related (step a i) (step' a' i) s s')
    (h : quiet a → related s s' a a') :
    Replays quiet related (l.foldlM step a) (l.foldlM step' a') s s' := by
  induction l generalizing a a' s s' with
  | nil => exact replays_pure h
  | cons i rest ih =>
    rw [foldlM_cons, foldlM_cons]
    by_cases ha : quiet a
    · refine (hstep s s' a a' i mem_cons_self ha (h ha)).bind (fun c hc ↦ loud_foldlM hloud hc) ?_
      intro s₁ s₁' c c' _ hrelated
      exact ih (fun t t' d d' j hj ↦ hstep t t' d d' j (mem_cons_of_mem i hj)) fun _ ↦ hrelated
    · exact (loud_foldlM (l := i :: rest) hloud ha).replays

/-- A walk through paddings of one base visits the same nodes. -/
theorem replays_walk {b : Tree} {order : Order} {visit : α → NodeId → Pass α}
    (hpadded : ∀ {s s' a a'}, related s s' a a' → Twin b s s')
    (hloud : ∀ a n, ¬quiet a → Loud quiet (visit a n))
    (hvisit : ∀ s s' a a' n, b.Has n → quiet a → related s s' a a' →
      Replays quiet related (visit a n) (visit a' n) s s')
    (h : related s s' a a') :
    Replays quiet related (Pass.walk order root a visit) (Pass.walk order root a' visit) s s' := by
  have htwin := hpadded h
  have hroot := htwin.left.rooted.has_root
  refine replays_tree_bind ?_
  rw [htwin.left.ordered_eq hroot, htwin.right.ordered_eq hroot]
  refine replays_foldlM (fun c n hc ↦ ?_) (fun t t' c c' n hn hc hrelated ↦ ?_) fun _ ↦ h
  · refine loud_bind fun t ↦ ?_
    split
    · exact hloud c n hc
    · exact loud_pure hc
  · have htwin := hpadded hrelated
    have hhas := htwin.base.has_of_mem_ordered hroot order hn
    refine replays_tree_bind ?_
    rw [htwin.left.isWithin_eq hhas, htwin.right.isWithin_eq hhas]
    split
    · exact hvisit t t' c c' n hhas hc hrelated
    · exact replays_pure fun _ ↦ hrelated

end Rules

/-! ## Passes that say whether they changed something -/

/-- If the first pass reports no change, neither does the second, and the trees stay paddings of
the base. -/
def StaysQuiet (b : Tree) : Pass Bool → Pass Bool → Tree → Tree → Prop :=
  Replays (· = false) fun s s' _ c' ↦ c' = false ∧ Later b s s'

/-- A pass that reports a change whenever it returns. -/
def Reports : Pass Bool → Prop := Loud (· = false)

section Quiet

variable {b s s' : Tree}

theorem reports_true : Reports (pure true) := loud_pure Bool.noConfusion

theorem stays_false (h : Later b s s') : StaysQuiet b (pure false) (pure false) s s' :=
  replays_pure fun _ ↦ ⟨rfl, h⟩

theorem StaysQuiet.bind {m m' : Pass Bool} {k k' : Bool → Pass Bool} (hm : StaysQuiet b m m' s s')
    (hloud : Reports (k true))
    (hk : ∀ s₁ s₁', Later b s₁ s₁' → StaysQuiet b (k false) (k' false) s₁ s₁') :
    StaysQuiet b (m >>= k) (m' >>= k') s s' := by
  refine Replays.bind hm (fun c hc ↦ ?_) fun s₁ s₁' c c' hc hrelated ↦ ?_
  · rw [Bool.eq_true_of_not_eq_false hc]
    exact hloud
  · obtain ⟨rfl, hlater⟩ := hrelated
    rw [hc]
    exact hk s₁ s₁' hlater

theorem stays_sweep {order : Order} {visit : NodeId → Pass Bool}
    (hvisit : ∀ s s' n, Later b s s' → b.Has n → StaysQuiet b (visit n) (visit n) s s')
    (h : Later b s s') :
    StaysQuiet b (Pass.sweep order root visit) (Pass.sweep order root visit) s s' := by
  refine replays_walk (b := b) (fun hrelated ↦ hrelated.2.toTwin) (fun c n hc ↦ ?_) ?_ ⟨rfl, h⟩
  · rw [Bool.eq_true_of_not_eq_false hc]
    exact loud_bind fun d ↦ by rw [Bool.or_true]; exact reports_true
  · rintro s s' c c' n hn rfl ⟨rfl, hlater⟩
    refine StaysQuiet.bind (hvisit s s' n hlater hn) reports_true fun s₁ s₁' h₁ ↦ stays_false h₁

end Quiet

end ProtocolIR
