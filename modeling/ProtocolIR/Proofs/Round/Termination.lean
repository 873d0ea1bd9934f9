import Mathlib.Algebra.Order.BigOperators.Group.Finset
import ProtocolIR.Proofs.Round.FixedPoint

/-!
# When rounds come to an end

Every round that reports a change adds nodes or makes something known about an old one, and
nothing becomes unknown again. Of each node there is only so much to know, so rounds can go on
for ever only if nodes are added for ever. Hence a fixed point is reached exactly when all rounds
return and the number of nodes stays bounded.
-/

namespace ProtocolIR

open Tree NodeKind

theorem missing_le_one {α : Type} (a : Option α) : missing a ≤ 1 := by
  unfold missing
  split <;> decide

theorem NodeKind.gaps_le_three (k : NodeKind) : k.gaps ≤ 3 := by
  cases k with
  | declaration d =>
    have hid := missing_le_one d.canonicalId
    have hkind : d.kind.gaps ≤ 2 := by
      cases d.kind with
      | function owner prototype =>
        exact Nat.add_le_add (missing_le_one owner) (missing_le_one prototype)
      | label value _ owner => exact Nat.add_le_add (missing_le_one value) (missing_le_one owner)
      | _ => exact Nat.zero_le _
    simp only [gaps]
    omega
  | type data =>
    have hshape : data.shape.gaps ≤ 1 := by
      cases data.shape with
      | name _ resolved => exact missing_le_one resolved
      | _ => exact Nat.zero_le _
    have htext := missing_le_one data.unification
    have hid := missing_le_one data.typeId
    simp only [gaps]
    omega
  | expression e =>
    cases e with
    | name _ resolved => exact (missing_le_one resolved).trans (by decide)
    | _ => exact Nat.zero_le _
  | _ => exact Nat.zero_le _

namespace Tree

variable {t t' : Tree} {bound : Nat}

/-- What can still happen to the node of a number: it becomes known, or is made first. -/
def room (t : Tree) (i : Nat) : Nat := if t.Has ⟨i⟩ then (t.kind ⟨i⟩).gaps else 4

/-- What can still happen to the nodes below a bound. -/
def potential (bound : Nat) (t : Tree) : Nat := ∑ i ∈ Finset.range bound, t.room i

theorem Refines.room_le (h : Refines t t') (i : Nat) : t'.room i ≤ t.room i := by
  unfold room
  by_cases hi : t.Has ⟨i⟩
  · rw [if_pos hi, if_pos (h.has hi)]
    exact (h.kind hi).gaps_le
  · rw [if_neg hi]
    split
    · exact (gaps_le_three _).trans (by decide)
    · exact Nat.le_refl _

/-- A change takes something off. -/
theorem Refines.potential_lt (h : Refines t t') (hadvanced : Advanced t t')
    (hbound : t'.size ≤ bound) : t'.potential bound < t.potential bound := by
  obtain ⟨i, hi, hlt⟩ : ∃ i < bound, t'.room i < t.room i := by
    rcases hadvanced with hsize | ⟨n, hn, hkind⟩
    · refine ⟨t.size, by omega, ?_⟩
      have hhas : t'.Has ⟨t.size⟩ := hsize
      have hnot : ¬t.Has ⟨t.size⟩ := Nat.lt_irrefl _
      unfold room
      rw [if_pos hhas, if_neg hnot]
      have hgaps := gaps_le_three (t'.kind ⟨t.size⟩)
      omega
    · have hn' := h.has hn
      refine ⟨n.index, Nat.lt_of_lt_of_le hn' hbound, ?_⟩
      unfold room
      rw [if_pos hn, if_pos hn']
      refine Nat.lt_of_le_of_ne (h.kind hn).gaps_le fun heq ↦ hkind ?_
      exact ((h.kind hn).eq_of_gaps_eq heq).symm
  exact Finset.sum_lt_sum (fun j _ ↦ h.room_le j) ⟨i, Finset.mem_range.2 hi, hlt⟩

end Tree

namespace Round

variable {round : Pass Bool} {w w₁ w' : Workspace} {left rounds limit total : Nat}

/-- A workspace with one more line of the driver in its log. -/
def noted (w : Workspace) (message : String) : Workspace := ⟨w.tree, w.log.push (.debug .driver message)⟩

/-- Where a round starts. -/
def announced (w : Workspace) (rounds : Nat) : Workspace := noted w ("round " ++ toString (rounds + 1))

theorem repeat_succ (round : Pass Bool) (left rounds : Nat) (w : Workspace) :
    repeatUntilFixed round (left + 1) rounds w =
      (round >>= fun changed ↦ if changed then do
          Pass.debug .driver ("round " ++ toString (rounds + 1) ++ " done, modified")
          repeatUntilFixed round left (rounds + 1)
        else do
          Pass.debug .driver ("round " ++ toString (rounds + 1) ++ " done, unchanged")
          return (rounds + 1, true)) (announced w rounds) := rfl

/-- A round that changed nothing is the last one, and after any other one the others follow. -/
theorem repeat_of_round {changed : Bool} (h : round (announced w rounds) = .ok (changed, w₁)) :
    ∃ w₂ : Workspace, w₂.tree = w₁.tree ∧ ∀ left, repeatUntilFixed round (left + 1) rounds w =
      if changed then repeatUntilFixed round left (rounds + 1) w₂ else .ok ((rounds + 1, true), w₂) := by
  refine ⟨noted w₁ ("round " ++ toString (rounds + 1) ++
    if changed then " done, modified" else " done, unchanged"), rfl, fun left ↦ ?_⟩
  rw [repeat_succ, bind_of_ok h]
  cases changed <;> rfl

/-- Some number of rounds ends with one that changes nothing. -/
def Settles (round : Pass Bool) (rounds : Nat) (w : Workspace) : Prop :=
  ∃ limit total w', repeatUntilFixed round limit rounds w = .ok ((total, true), w')

/-- Every number of rounds returns, with a tree of no more nodes than the bound. -/
def StaysWithin (round : Pass Bool) (bound rounds : Nat) (w : Workspace) : Prop :=
  ∀ limit, ∃ r w', repeatUntilFixed round limit rounds w = .ok (r, w') ∧ w'.tree.size ≤ bound

variable (hstep : IsStep round) (ht : w.tree.Rooted)

include hstep ht

/-- Rounds return only if the next one does. -/
theorem exists_of_repeat {r : (Nat × Bool) × Workspace}
    (h : repeatUntilFixed round (left + 1) rounds w = .ok r) :
    ∃ changed w₁ w₂, round (announced w rounds) = .ok (changed, w₁) ∧ w₂.tree = w₁.tree ∧
      Step w.tree changed w₂.tree ∧ w₂.tree.Rooted ∧ ∀ left, repeatUntilFixed round (left + 1) rounds w =
        if changed then repeatUntilFixed round left (rounds + 1) w₂ else .ok ((rounds + 1, true), w₂) := by
  rw [repeat_succ] at h
  obtain ⟨changed, w₁, hround, -⟩ := bind_eq_ok h
  have hstep₁ : Step w.tree changed w₁.tree := (hstep (announced w rounds) ht).post_of_ok hround
  obtain ⟨w₂, hw₂, hrest⟩ := repeat_of_round hround
  rw [← hw₂] at hstep₁
  exact ⟨changed, w₁, w₂, hround, hw₂, hstep₁, hstep₁.rooted ht, hrest⟩

/-- Once settled, nothing more is added, and before there were fewer nodes. -/
theorem exists_bound (h : repeatUntilFixed round limit rounds w = .ok ((total, true), w')) :
    w.tree.size ≤ w'.tree.size ∧ StaysWithin round w'.tree.size rounds w := by
  induction limit generalizing rounds w with
  | zero => cases h
  | succ limit ih =>
    obtain ⟨changed, w₁, w₂, -, -, hstep₁, ht₂, hrest⟩ := exists_of_repeat hstep ht h
    rw [hrest limit] at h
    cases changed with
    | false =>
      cases h
      refine ⟨hstep₁.size_le, fun limit ↦ ?_⟩
      cases limit with
      | zero => exact ⟨_, w, rfl, hstep₁.size_le⟩
      | succ limit => exact ⟨_, w', hrest limit, Nat.le_refl _⟩
    | true =>
      obtain ⟨hsize₂, hwithin⟩ := ih ht₂ h
      have hsize := hstep₁.size_le.trans hsize₂
      refine ⟨hsize, fun limit ↦ ?_⟩
      cases limit with
      | zero => exact ⟨_, w, rfl, hsize⟩
      | succ limit =>
        rw [hrest limit]
        exact hwithin limit

theorem rooted_of_repeat {r : Nat × Bool} (h : repeatUntilFixed round limit rounds w = .ok (r, w')) :
    w'.tree.Rooted := by
  induction limit generalizing rounds w with
  | zero => cases h; exact ht
  | succ limit ih =>
    obtain ⟨changed, w₁, w₂, -, -, -, ht₂, hrest⟩ := exists_of_repeat hstep ht h
    rw [hrest limit] at h
    cases changed with
    | false =>
      cases h
      exact ht₂
    | true => exact ih ht₂ h

/-- Rounds that settle end with one that changes nothing. -/
theorem exists_last_round (h : repeatUntilFixed round limit rounds w = .ok ((total, true), w')) :
    ∃ w₁ w₂ : Workspace, w₁.tree.Rooted ∧ round w₁ = .ok (false, w₂) ∧ w'.tree = w₂.tree := by
  induction limit generalizing rounds w with
  | zero => cases h
  | succ limit ih =>
    obtain ⟨changed, w₁, w₂, hround, hw₂, -, ht₂, hrest⟩ := exists_of_repeat hstep ht h
    rw [hrest limit] at h
    cases changed with
    | false =>
      cases h
      exact ⟨announced w rounds, w₁, ht, hround, hw₂⟩
    | true => exact ih ht₂ h

/-- While the number of nodes is bounded, every round that changes something takes something off
the potential, so one does not. -/
theorem settles_of_staysWithin {bound : Nat} (h : StaysWithin round bound rounds w) :
    Settles round rounds w := by
  generalize hpotential : w.tree.potential bound = potential
  induction potential using Nat.strong_induction_on generalizing rounds w with
  | h potential ih =>
    obtain ⟨r, w', hrun, hsize⟩ := h 1
    obtain ⟨changed, w₁, w₂, -, -, hstep₁, ht₂, hrest⟩ := exists_of_repeat hstep ht hrun
    cases changed with
    | false => exact ⟨1, rounds + 1, w₂, hrest 0⟩
    | true =>
      have hwithin : StaysWithin round bound (rounds + 1) w₂ := by
        intro limit
        have hnext := h (limit + 1)
        rwa [hrest limit] at hnext
      obtain ⟨r₂, v, hv, hsize₂⟩ := hwithin 0
      cases hv
      have hlt : w₂.tree.potential bound < potential := by
        rw [← hpotential]
        exact hstep₁.potential_lt (hstep₁.advanced rfl) hsize₂
      obtain ⟨limit, total, w₃, hlast⟩ := ih _ hlt ht₂ hwithin rfl
      exact ⟨limit + 1, total, w₃, (hrest limit).trans hlast⟩

end Round

namespace Compiler

/-- From a coherent tree with its root node, some number of rounds of the standard compiler ends
with one that reports no change exactly when every number of rounds returns and there is a bound
on the number of nodes over all of them. -/
theorem settles_iff_bounded (options : Options) (w : Workspace) (ht : w.tree.Rooted) :
    (∃ limit total w', Round.repeatUntilFixed (round options) limit 0 w = .ok ((total, true), w')) ↔
      ∃ bound, ∀ limit, ∃ r w',
        Round.repeatUntilFixed (round options) limit 0 w = .ok (r, w') ∧ w'.tree.size ≤ bound := by
  constructor
  · rintro ⟨limit, total, w', h⟩
    exact ⟨w'.tree.size, (Round.exists_bound (isStep_round options) ht h).2⟩
  · rintro ⟨bound, h⟩
    exact Round.settles_of_staysWithin (isStep_round options) ht h

/-- The condition on an unknown name settles at once, and its type of conditions is all that is added. -/
theorem settles_iff_bounded_danglingCondition :
    danglingCondition.Rooted ∧
      (∃ w', Round.repeatUntilFixed (round {}) 1 0 ⟨danglingCondition, #[]⟩ = .ok ((1, true), w')) ∧
      ∃ bound, ∀ limit, ∃ r w', Round.repeatUntilFixed (round {}) limit 0 ⟨danglingCondition, #[]⟩ =
        .ok (r, w') ∧ w'.tree.size ≤ bound := by
  have hrun : ((Round.repeatUntilFixed (round {}) 1 0 ⟨danglingCondition, #[]⟩).map Prod.fst).toOption =
      some (1, true) := by
    decide +kernel
  have hrooted := rooted_danglingCondition
  cases hsettled : Round.repeatUntilFixed (round {}) 1 0 ⟨danglingCondition, #[]⟩ with
  | error f => rw [hsettled] at hrun; cases hrun
  | ok r =>
    obtain ⟨r, w'⟩ := r
    rw [hsettled] at hrun
    cases hrun
    exact ⟨hrooted, ⟨w', rfl⟩,
      (settles_iff_bounded {} ⟨danglingCondition, #[]⟩ hrooted).1 ⟨1, 1, w', hsettled⟩⟩

end Compiler

end ProtocolIR
