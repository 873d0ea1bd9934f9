import Mathlib.Data.Finset.Card
import Mathlib.Data.Finset.Filter

/-!
# Saturation

A search with a growing bound that keeps what it has found finds something new at most once for
each question. So among finitely many questions, whose answers at one bound follow from those at
the bound before, nothing new is found from a bound on that is the number of questions.

Computations that may fail are compared by what they return: one is below another if the other
returns whatever it returns.
-/

namespace ProtocolIR.Saturation

open List

variable {α β : Type} {questions : Finset α} {answer : Nat → α → Option β} {bound later : Nat}

/-- The questions that have an answer at a bound. -/
def answered (questions : Finset α) (answer : Nat → α → Option β) (bound : Nat) : Finset α :=
  questions.filter fun x ↦ (answer bound x).isSome = true

/-- Answers stay. -/
def Keeps (questions : Finset α) (answer : Nat → α → Option β) : Prop :=
  ∀ bound, ∀ x ∈ questions, ∀ a, answer bound x = some a → answer (bound + 1) x = some a

/-- A bound that adds nothing is followed by one that adds nothing. -/
def Follows (questions : Finset α) (answer : Nat → α → Option β) : Prop :=
  ∀ bound, (∀ x ∈ questions, answer (bound + 1) x = answer bound x) →
    ∀ x ∈ questions, answer (bound + 2) x = answer (bound + 1) x

theorem card_answered_lt (hkeeps : Keeps questions answer) {x : α} (hx : x ∈ questions)
    (hne : answer (bound + 1) x ≠ answer bound x) :
    (answered questions answer bound).card < (answered questions answer (bound + 1)).card := by
  have hnone : answer bound x = none := by
    cases h : answer bound x with
    | none => rfl
    | some a => exact absurd ((hkeeps bound x hx a h).trans h.symm) hne
  apply Finset.card_lt_card
  rw [Finset.ssubset_iff_of_subset]
  · refine ⟨x, Finset.mem_filter.2 ⟨hx, ?_⟩, fun hin ↦ ?_⟩
    · rw [hnone] at hne
      exact Option.isSome_iff_ne_none.2 hne
    · have hsome := (Finset.mem_filter.1 hin).2
      rw [hnone] at hsome
      cases hsome
  · intro y hy
    obtain ⟨hy, hsome⟩ := Finset.mem_filter.1 hy
    obtain ⟨a, ha⟩ := Option.isSome_iff_exists.1 hsome
    refine Finset.mem_filter.2 ⟨hy, ?_⟩
    rw [hkeeps bound y hy a ha]
    rfl

theorem exists_quiet (hkeeps : Keeps questions answer) :
    ∃ bound ≤ questions.card, ∀ x ∈ questions, answer (bound + 1) x = answer bound x := by
  by_contra hno
  have hgrow : ∀ bound ≤ questions.card + 1, bound ≤ (answered questions answer bound).card := by
    intro bound
    induction bound with
    | zero => exact fun _ ↦ Nat.zero_le _
    | succ bound ih =>
      intro hbound
      have hnew : ∃ x ∈ questions, answer (bound + 1) x ≠ answer bound x := by
        by_contra hall
        refine hno ⟨bound, by omega, fun x hx ↦ ?_⟩
        by_contra hne
        exact hall ⟨x, hx, hne⟩
      obtain ⟨x, hx, hne⟩ := hnew
      have hlt := card_answered_lt hkeeps hx hne
      have hle := ih (by omega)
      omega
  have hle := hgrow (questions.card + 1) (Nat.le_refl _)
  have hcard : (answered questions answer (questions.card + 1)).card ≤ questions.card :=
    Finset.card_filter_le _ _
  omega

theorem eq_from (hfollows : Follows questions answer)
    (hquiet : ∀ x ∈ questions, answer (bound + 1) x = answer bound x) (hlater : bound ≤ later) :
    ∀ x ∈ questions, answer later x = answer bound x := by
  have hall : ∀ k, ∀ x ∈ questions, answer (bound + k + 1) x = answer (bound + k) x := by
    intro k
    induction k with
    | zero => exact hquiet
    | succ k ih => exact hfollows (bound + k) ih
  intro x hx
  induction later, hlater using Nat.le_induction with
  | base => rfl
  | succ later hle ih =>
    obtain ⟨k, rfl⟩ := Nat.exists_eq_add_of_le hle
    rw [hall k x hx, ih]

/-- From the number of questions on, the answers do not depend on the bound. -/
theorem answer_eq (hkeeps : Keeps questions answer) (hfollows : Follows questions answer)
    (hbound : questions.card ≤ bound) (hlater : bound ≤ later) {x : α} (hx : x ∈ questions) :
    answer later x = answer bound x := by
  obtain ⟨first, hfirst, hquiet⟩ := exists_quiet hkeeps
  calc answer later x = answer first x := eq_from hfollows hquiet (by omega) x hx
    _ = answer bound x := (eq_from hfollows hquiet (by omega) x hx).symm

end ProtocolIR.Saturation

namespace ProtocolIR

variable {ε α β : Type} {f : α → Except ε β} {l : List α}

/-- The parts of a computation that returns. -/
theorem exists_of_bind_eq_ok {x : Except ε α} {c : β} (h : x >>= f = .ok c) :
    ∃ a, x = .ok a ∧ f a = .ok c := by
  cases x with
  | error e => cases h
  | ok a => exact ⟨a, rfl, h⟩

theorem mem_of_mapM_ok {rs : List β} {r : β}
    (h : l.mapM f = .ok rs) (hr : r ∈ rs) : ∃ a ∈ l, f a = .ok r := by
  induction l generalizing rs with
  | nil => cases h; cases hr
  | cons a rest ih =>
    rw [List.mapM_cons] at h
    obtain ⟨x, hx, h⟩ := exists_of_bind_eq_ok h
    obtain ⟨xs, hxs, h⟩ := exists_of_bind_eq_ok h
    cases h
    rcases List.mem_cons.1 hr with rfl | hr
    · exact ⟨a, List.mem_cons_self, hx⟩
    · obtain ⟨d, hd, hfd⟩ := ih hxs hr
      exact ⟨d, List.mem_cons_of_mem a hd, hfd⟩

theorem exists_mem_of_mapM_ok {rs : List β} {a : α}
    (h : l.mapM f = .ok rs) (ha : a ∈ l) : ∃ r ∈ rs, f a = .ok r := by
  induction l generalizing rs with
  | nil => cases ha
  | cons b rest ih =>
    rw [List.mapM_cons] at h
    obtain ⟨x, hx, h⟩ := exists_of_bind_eq_ok h
    obtain ⟨xs, hxs, h⟩ := exists_of_bind_eq_ok h
    cases h
    rcases List.mem_cons.1 ha with rfl | ha
    · exact ⟨x, List.mem_cons_self, hx⟩
    · obtain ⟨r, hr, hfr⟩ := ih hxs ha
      exact ⟨r, List.mem_cons_of_mem x hr, hfr⟩

/-- What the first computation returns, the second returns. -/
def Below (x y : Except ε α) : Prop := ∀ a, x = .ok a → y = .ok a

namespace Below

variable {x y z : Except ε α} {g : α → Except ε β}

theorem refl (x : Except ε α) : Below x x := fun _ h ↦ h

theorem trans (h : Below x y) (h' : Below y z) : Below x z := fun a ha ↦ h' a (h a ha)

theorem of_error (e : ε) (y : Except ε α) : Below (.error e) y := fun _ h ↦ by cases h

theorem bind (h : Below x y) (hfg : ∀ a, Below (f a) (g a)) : Below (x >>= f) (y >>= g) := by
  intro c hc
  obtain ⟨a, hx, hc⟩ := exists_of_bind_eq_ok hc
  rw [h a hx]
  exact hfg a c hc

theorem map (f : α → β) (h : Below x y) : Below (x.map f) (y.map f) := by
  intro c hc
  cases hx : x with
  | error e => rw [hx] at hc; cases hc
  | ok a =>
    rw [hx] at hc
    rw [h a hx]
    exact hc

theorem mapM (hfg : ∀ a ∈ l, Below (f a) (g a)) : Below (l.mapM f) (l.mapM g) := by
  induction l with
  | nil => exact refl _
  | cons a rest ih =>
    rw [List.mapM_cons, List.mapM_cons]
    refine (hfg a List.mem_cons_self).bind fun c ↦ ?_
    exact (ih fun m hm ↦ hfg m (List.mem_cons_of_mem a hm)).bind fun _ ↦ refl _

/-- Computations below each other return the same. -/
theorem toOption_eq (h : Below x y) (h' : Below y x) : x.toOption = y.toOption := by
  cases hx : x with
  | ok a => rw [h a hx]
  | error e =>
    cases hy : y with
    | ok a => rw [h' a hy] at hx; cases hx
    | error e' => rfl

theorem toOption_some {a : α} (h : Below x y) (ha : x.toOption = some a) : y.toOption = some a := by
  cases x with
  | ok c => rw [h c rfl]; exact ha
  | error e => cases ha

theorem of_toOption_eq (h : x.toOption = y.toOption) : Below x y := by
  intro a ha
  rw [ha] at h
  cases y with
  | ok c => cases h; rfl
  | error e => cases h

end Below

end ProtocolIR
