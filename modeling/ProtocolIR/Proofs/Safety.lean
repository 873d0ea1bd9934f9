import ProtocolIR.Workspace

/-!
# Safe computations

An operation is safe from a state when it ends in a state with a wanted property or with a fault
that says nothing about the structure of the tree: a number out of range, an overflow, a recursion
without end. The rules here take a computation apart step by step, as it is written.
-/

namespace ProtocolIR

open List

/-- The faults of operations that were asked for something impossible in the tree. -/
def Fault.IsStructural : Fault → Prop
  | .held .. | .notHeldBy .. | .noParent _ | .typeNotName .. | .notName .. | .retarget ..
  | .wrapDetached _ | .notLiteral _ => True
  | .outOfRange | .overflow | .endless => False

/-- A computation without a state that has no structural fault. -/
def Sound {α : Type} (x : Except Fault α) : Prop := ∀ f, x = .error f → ¬f.IsStructural

/-- From `s`, a computation ends as `post` says or with a fault that is not structural. -/
def Safe {σ α : Type} (m : StateT σ (Except Fault) α) (s : σ) (post : α → σ → Prop) : Prop :=
  match m s with
  | .ok (a, s') => post a s'
  | .error f => ¬f.IsStructural

section Sound

variable {α β : Type} {f : Fault}

@[simp] theorem sound_ok (a : α) : Sound (.ok a : Except Fault α) := fun _ h ↦ by cases h

@[simp] theorem sound_error : Sound (.error f : Except Fault α) ↔ ¬f.IsStructural :=
  ⟨fun h ↦ h f rfl, fun h _ hf ↦ by cases hf; exact h⟩

theorem Sound.bind {x : Except Fault α} {k : α → Except Fault β} (hx : Sound x)
    (hk : ∀ a, Sound (k a)) : Sound (x >>= k) := by
  cases x with
  | error f => intro g hg; cases hg; exact hx f rfl
  | ok a => exact hk a

theorem Sound.mapM {k : α → Except Fault β} (hk : ∀ a, Sound (k a)) (l : List α) :
    Sound (l.mapM k) := by
  induction l with
  | nil => exact sound_ok _
  | cons a l ih =>
    rw [mapM_cons]
    exact (hk a).bind fun b ↦ ih.bind fun bs ↦ sound_ok _

end Sound

variable {σ α β ι : Type} {m : StateT σ (Except Fault) α} {k : α → StateT σ (Except Fault) β}
  {step : α → ι → StateT σ (Except Fault) α} {a : α} {s s' : σ} {l : List ι} {w : Workspace}
  {inv mid post post' : α → σ → Prop} {last : β → σ → Prop}

namespace Safe

theorem mono (h : Safe m s post) (himp : ∀ a s', post a s' → post' a s') : Safe m s post' := by
  unfold Safe at *
  cases hm : m s with
  | error f => rw [hm] at h; exact h
  | ok r => rw [hm] at h; exact himp _ _ h

theorem of_ok (hm : m s = .ok (a, s')) (h : post a s') : Safe m s post := by
  unfold Safe
  rw [hm]
  exact h

theorem post_of_ok (h : Safe m s post) (hm : m s = .ok (a, s')) : post a s' := by
  unfold Safe at h
  rw [hm] at h
  exact h

/-- What was returned is what the computation gives. -/
theorem self (h : Safe m s post) : Safe m s fun a s' ↦ m s = .ok (a, s') := by
  unfold Safe at *
  cases hm : m s with
  | error f => rw [hm] at h; exact h
  | ok r => rfl

theorem not_structural_of_error {f : Fault} (h : Safe m s post) (hm : m s = .error f) :
    ¬f.IsStructural := by
  unfold Safe at h
  rw [hm] at h
  exact h

end Safe

/-- A computation whose first part is known to return goes on with the second. -/
theorem bind_of_ok (h : m s = .ok (a, s')) : (m >>= k) s = k a s' := by
  show (m s >>= fun r ↦ k r.1 r.2) = _
  rw [h]
  rfl

theorem discard_of_ok (h : m s = .ok (a, s')) : (discard m) s = .ok ((), s') := by
  show ((fun _ ↦ ()) <$> m) s = _
  rw [map_eq_pure_bind]
  exact bind_of_ok h

theorem get_bind {k : σ → StateT σ (Except Fault) β} : (get >>= k) s = k s s := rfl

theorem Pass.tree_bind {w : Workspace} {k : Tree → Pass β} : (Pass.tree >>= k) w = k w.tree w := rfl

theorem safe_get {post : σ → σ → Prop} :
    Safe (get : StateT σ (Except Fault) σ) s post ↔ post s s := Iff.rfl

theorem safe_bind : Safe (m >>= k) s last ↔ Safe m s fun a s' ↦ Safe (k a) s' last := by
  unfold Safe
  have hrun : (m >>= k) s = match m s with
    | .ok (a, s') => k a s'
    | .error f => .error f := by
    show (m s >>= fun r ↦ k r.1 r.2) = _
    cases m s <;> rfl
  rw [hrun]
  cases m s <;> rfl

theorem safe_map {f : α → β} : Safe (f <$> m) s last ↔ Safe m s fun a s' ↦ last (f a) s' := by
  rw [map_eq_pure_bind, safe_bind]
  rfl

theorem Safe.bind (hm : Safe m s mid) (hk : ∀ a s', mid a s' → Safe (k a) s' last) :
    Safe (m >>= k) s last :=
  safe_bind.2 (hm.mono hk)

/-- An edit that only gives a new state. -/
theorem safe_update {f : σ → Except Fault σ} {post : Unit → σ → Prop} (hf : f s = .ok s')
    (h : post () s') : Safe (fun s ↦ do return ((), ← f s)) s post :=
  Safe.of_ok (by rw [hf]; rfl) h

/-- Steps of a fold that each keep an invariant keep it together. -/
theorem safe_foldlM (hstep : ∀ a s, ∀ i ∈ l, inv a s → Safe (step a i) s inv) (h : inv a s) : Safe
    (l.foldlM step a) s inv := by
  induction l generalizing a s with
  | nil => exact h
  | cons i l ih =>
    rw [foldlM_cons]
    refine (hstep a s i (mem_cons_self ..) h).bind fun b s' hb ↦ ?_
    exact ih (fun a s j hj ↦ hstep a s j (mem_cons_of_mem _ hj)) hb

/-! ## Passes -/

section Pass

variable {post : Unit → Workspace → Prop}

theorem edit_of_ok {x : Surgery α} {t t' : Tree} {log : Array Event} {c : α}
    (h : x t = .ok (c, t')) :
    (liftM x : Pass α) ⟨t, log⟩ = .ok (c, ⟨t', log⟩) := by
  show (x t >>= fun p ↦ Except.ok (p.1, Workspace.mk p.2 log)) = _
  rw [h]
  rfl

/-- An edit of the tree in a pass is safe as the edit is; the log is not touched. -/
theorem safe_edit {edit : Surgery α} {post : α → Workspace → Prop}
    (h : Safe edit w.tree fun a t ↦ post a ⟨t, w.log⟩) : Safe (liftM edit : Pass α) w post := by
  unfold Safe at *
  have hrun : (liftM edit : Pass α) w = match edit w.tree with
    | .ok (a, t) => .ok (a, ⟨t, w.log⟩)
    | .error f => .error f := by
    show (edit w.tree >>= fun r ↦ Except.ok (r.1, Workspace.mk r.2 w.log)) = _
    cases edit w.tree <;> rfl
  rw [hrun]
  cases hm : edit w.tree with
  | error f | ok r => rw [hm] at h; exact h

theorem safe_lift_pass {x : Except Fault α} {post : α → Workspace → Prop} (hx : Sound x)
    (h : ∀ a, x = .ok a → post a w) : Safe (liftM x : Pass α) w post := by
  cases x with
  | error f => exact hx f rfl
  | ok a => exact h a rfl

theorem safe_tree_bind {k : Tree → Pass β} {post : β → Workspace → Prop} :
    Safe (Pass.tree >>= k) w post ↔ Safe (k w.tree) w post := Iff.rfl

theorem safe_modifyTree {f : Tree → Tree} :
    Safe (Pass.modifyTree f) w post ↔ post () ⟨f w.tree, w.log⟩ := Iff.rfl

theorem safe_debug {stream : Stream} {message : String} : Safe (Pass.debug stream message) w post ↔
      post () ⟨w.tree, w.log.push (.debug stream message)⟩ := Iff.rfl

end Pass

/-! ## Computations that return -/

/-- From `s`, a computation returns and ends as `post` says. -/
def Returns {σ α : Type} (m : StateT σ (Except Fault) α) (s : σ) (post : α → σ → Prop) : Prop :=
  ∃ a s', m s = .ok (a, s') ∧ post a s'

namespace Returns

theorem mono (h : Returns m s post)
    (himp : ∀ a s', post a s' → post' a s') : Returns m s post' := by
  obtain ⟨a, s', hm, ha⟩ := h
  exact ⟨a, s', hm, himp a s' ha⟩

theorem safe (h : Returns m s post) : Safe m s post := by
  obtain ⟨a, s', hm, ha⟩ := h
  exact .of_ok hm ha

theorem and_safe (h : Returns m s post) (h' : Safe m s post') :
    Returns m s fun a s' ↦ post a s' ∧ post' a s' := by
  obtain ⟨a, s', hm, ha⟩ := h
  exact ⟨a, s', hm, ha, h'.post_of_ok hm⟩

theorem bind (hm : Returns m s mid) (hk : ∀ a s', mid a s' → Returns (k a) s' last) :
    Returns (m >>= k) s last := by
  obtain ⟨a, s', hm, ha⟩ := hm
  obtain ⟨b, s'', hk, hb⟩ := hk a s' ha
  exact ⟨b, s'', (bind_of_ok hm).trans hk, hb⟩

theorem get_bind {k : σ → StateT σ (Except Fault) β} :
    Returns (get >>= k) s last ↔ Returns (k s) s last := Iff.rfl

theorem foldlM (hstep : ∀ a s, ∀ i ∈ l, inv a s → Returns (step a i) s inv) (h : inv a s) : Returns
    (l.foldlM step a) s inv := by
  induction l generalizing a s with
  | nil => exact ⟨a, s, rfl, h⟩
  | cons i l ih =>
    rw [foldlM_cons]
    refine (hstep a s i (mem_cons_self ..) h).bind fun b s' hb ↦ ?_
    exact ih (fun a s j hj ↦ hstep a s j (mem_cons_of_mem _ hj)) hb

theorem tree_bind {k : Tree → Pass β} {post : β → Workspace → Prop} :
    Returns (Pass.tree >>= k) w post ↔ Returns (k w.tree) w post := Iff.rfl

end Returns

/-! ## Walks that do nothing -/

namespace Pass

variable {order : Order} {start : NodeId}

theorem foldlM_of_idle {step : σ → ι → Pass σ} {init : σ}
    (h : ∀ i ∈ l, step init i w = .ok (init, w)) : l.foldlM step init w = .ok (init, w) := by
  induction l with
  | nil => rfl
  | cons i rest ih =>
    rw [foldlM_cons]
    refine (bind_of_ok (h i mem_cons_self)).trans ?_
    exact ih fun j hj ↦ h j (mem_cons_of_mem i hj)

theorem walk_of_idle {visit : σ → NodeId → Pass σ} {init : σ}
    (h : ∀ n, w.tree.isWithin n start → visit init n w = .ok (init, w)) :
    walk order start init visit w = .ok (init, w) := by
  refine foldlM_of_idle fun n _ ↦ ?_
  show (if w.tree.isWithin n start then visit init n else return init : Pass σ) w = _
  split
  next hn => exact h n hn
  · rfl

theorem sweep_of_idle {visit : NodeId → Pass Bool}
    (h : ∀ n, w.tree.isWithin n start → visit n w = .ok (false, w)) :
    sweep order start visit w = .ok (false, w) := by
  refine walk_of_idle fun n hn ↦ ?_
  exact (bind_of_ok (h n hn)).trans rfl

end Pass

end ProtocolIR
