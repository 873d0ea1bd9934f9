import ProtocolIR.Proofs.Tree.Views

/-!
# Coherent trees

A tree records each link between a node and its parent twice, in a slot of the parent and in the
parent field of the child. A tree is *linked* when the two records agree and a node is in one slot
at most, and *coherent* when in addition every way up ends.

Every edit of the links replaces the slots of one node: some children go out and are detached,
some free nodes come in. `Reslotted` says so once for all edits. Such an edit keeps a tree linked,
and it keeps a coherent tree coherent exactly when nothing that comes in has the node beneath it.
-/

namespace ProtocolIR.Tree

open List

variable {t t' : Tree} {a n p : NodeId}

/-- A node is `a` or lies beneath it. -/
inductive Within (t : Tree) (a : NodeId) : NodeId → Prop
  | here : Within t a a
  | beneath {n p : NodeId} : t.parent n = some p → Within t a p → Within t a n

/-- The way up from a node reaches a node without a parent. -/
inductive Grounded (t : Tree) : NodeId → Prop
  | top {n : NodeId} : t.parent n = none → Grounded t n
  | beneath {n p : NodeId} : t.parent n = some p → Grounded t p → Grounded t n

/-- The slots and the parent fields describe the same links. -/
structure Linked (t : Tree) : Prop where
  parent_of_held : ∀ {p c : NodeId}, some c ∈ t.slots p → t.parent c = some p
  held_once : ∀ {p c : NodeId}, t.parent c = some p → (t.slots p).count (some c) = 1

structure Coherent (t : Tree) : Prop extends Linked t where
  grounded : ∀ n, t.Grounded n

theorem Within.trans {b : NodeId} (hab : t.Within a b) (hbn : t.Within b n) : t.Within a n := by
  induction hbn with
  | here => exact hab
  | beneath hp _ ih => exact .beneath hp ih

theorem Within.of_parent (h : t.parent n = some p) : t.Within p n :=
  .beneath h .here

/-- Going up from a grounded node never comes back to it. -/
theorem Grounded.not_within (hground : t.Grounded n) (hp : t.parent n = some p) : ¬t.Within n p := by
  induction hground generalizing p with
  | top hnone => rw [hnone] at hp; cases hp
  | @beneath n q hq _ ih =>
    rw [hq] at hp
    cases hp
    intro hwithin
    -- a way from the parent back to the node can be turned into one from the parent to itself
    cases hwithin with
    | here => exact ih hq .here
    | beneath hr hwithin => exact ih hr ((Within.of_parent hq).trans hwithin)

namespace Linked

variable {t : Tree} {p c : NodeId} {i : Nat}

variable (h : t.Linked)

include h

theorem held (hp : t.parent c = some p) : some c ∈ t.slots p := by
  have honce := h.held_once hp
  exact count_pos_iff.1 (by omega)

theorem has_parent (hp : t.parent c = some p) : t.Has p :=
  has_of_mem_slots (h.held hp)

theorem has_of_held (hc : some c ∈ t.slots p) : t.Has c :=
  has_of_parent (h.parent_of_held hc)

theorem has_of_child (hc : t.child p i = some c) : t.Has c :=
  h.has_of_held (mem_slots_of_child hc)

theorem parent_of_child (hc : t.child p i = some c) : t.parent c = some p :=
  h.parent_of_held (mem_slots_of_child hc)

theorem count_eq_zero (hp : t.parent c ≠ some p) : (t.slots p).count (some c) = 0 :=
  List.count_eq_zero.2 fun hc ↦ hp (h.parent_of_held hc)

theorem count_le_one (p c : NodeId) : (t.slots p).count (some c) ≤ 1 := by
  by_cases hp : t.parent c = some p
  · have honce := h.held_once hp
    omega
  · have hzero := h.count_eq_zero hp
    omega

/-- A node is held in one slot. -/
theorem index_unique {j : Nat} (hi : t.child p i = some c) (hj : t.child p j = some c) : i = j := by
  obtain ⟨hi', hci⟩ := List.getElem?_eq_some_iff.1 (child_eq_some_iff.1 hi)
  obtain ⟨hj', hcj⟩ := List.getElem?_eq_some_iff.1 (child_eq_some_iff.1 hj)
  have honce := h.held_once (h.parent_of_child hi)
  have htwice : ∀ {k l : Nat} (hk : k < (t.slots p).length) (hl : l < (t.slots p).length), k < l →
      (t.slots p)[k] = some c → (t.slots p)[l] ≠ some c := by
    intro k l hk hl hlt hck hcl
    have hk' : some c ∈ (t.slots p).take l := mem_take_iff_getElem.2 ⟨k, by omega, hck⟩
    have hl' : some c ∈ (t.slots p).drop l := mem_drop_iff_getElem.2 ⟨0, by omega, hcl⟩
    have htake := count_pos_iff.2 hk'
    have hdrop := count_pos_iff.2 hl'
    rw [← take_append_drop l (t.slots p), count_append] at honce
    omega
  rcases Nat.lt_trichotomy i j with hlt | heq | hlt
  · exact absurd hcj (htwice hi' hj' hlt hci)
  · exact heq
  · exact absurd hci (htwice hj' hi' hlt hcj)

end Linked

/-- The links are the same, whatever else of the nodes has changed. -/
structure SameLinks (t t' : Tree) : Prop where
  slots : ∀ n, t'.slots n = t.slots n
  parent : ∀ n, t'.parent n = t.parent n

theorem SameLinks.linked (h : SameLinks t t') (ht : t.Linked) : t'.Linked where
  parent_of_held hc := by
    rw [h.slots] at hc
    rw [h.parent]
    exact ht.parent_of_held hc
  held_once hp := by
    rw [h.parent] at hp
    rw [h.slots]
    exact ht.held_once hp

theorem SameLinks.within (h : SameLinks t t') {m : NodeId} (hwithin : t'.Within a m) :
    t.Within a m := by
  induction hwithin with
  | here => exact .here
  | beneath hp _ ih => exact .beneath (by rw [← h.parent, hp]) ih

theorem SameLinks.coherent (h : SameLinks t t') (ht : t.Coherent) : t'.Coherent where
  toLinked := h.linked ht.toLinked
  grounded n := by
    induction ht.grounded n with
    | top hp => exact .top (by rw [h.parent, hp])
    | beneath hp _ ih => exact .beneath (by rw [h.parent, hp]) ih

theorem sameLinks_setKind (t : Tree) (n : NodeId) (kind : NodeKind) :
    SameLinks t (t.setKind n kind) :=
  ⟨fun m ↦ slots_setKind t n m kind, fun m ↦ parent_setKind t n m kind⟩

/-! ## Replacing the slots of one node -/

/-- In the slots of `n`, the children `out` were given up and the free nodes `inn` taken in. -/
structure Reslotted (t t' : Tree) (n : NodeId) (out inn : List NodeId) : Prop where
  slots_ne : ∀ m, m ≠ n → t'.slots m = t.slots m
  count : ∀ c, (t'.slots n).count (some c) = (t.slots n).count (some c) - out.count c + inn.count c
  parent : ∀ c, t'.parent c = if c ∈ inn then some n else if c ∈ out then none else t.parent c
  out_held : ∀ c ∈ out, t.parent c = some n
  inn_free : ∀ c ∈ inn, t.parent c = none
  inn_nodup : inn.Nodup

namespace Reslotted

variable {t t' : Tree} {n c a m : NodeId} {out inn : List NodeId}

section

variable (h : Reslotted t t' n out inn)

include h

theorem parent_of_inn (hc : c ∈ inn) : t'.parent c = some n := by
  rw [h.parent, if_pos hc]

theorem parent_of_out (hc : c ∈ out) : t'.parent c = none := by
  have hinn : c ∉ inn := fun hinn ↦ by
    have hheld := h.out_held c hc
    rw [h.inn_free c hinn] at hheld
    cases hheld
  rw [h.parent, if_neg hinn, if_pos hc]

theorem parent_of_other (hinn : c ∉ inn) (hout : c ∉ out) : t'.parent c = t.parent c := by
  rw [h.parent, if_neg hinn, if_neg hout]

/-- A node whose parent is neither none nor `n` is out of the edit's reach. -/
theorem parent_of_elsewhere {p : NodeId} (hp : t.parent c = some p) (hne : p ≠ n) :
    t'.parent c = some p := by
  have hinn : c ∉ inn := fun hc ↦ by rw [h.inn_free c hc] at hp; cases hp
  have hout : c ∉ out := fun hc ↦ by
    rw [h.out_held c hc] at hp
    cases hp
    exact hne rfl
  rw [h.parent_of_other hinn hout, hp]

/-- A way up that is new goes through something that came in. -/
theorem within (hwithin : t'.Within a m) : t.Within a m ∨ ∃ c ∈ inn, t.Within c m := by
  induction hwithin with
  | here => exact .inl .here
  | @beneath m p hp _ ih =>
    by_cases hm : m ∈ inn
    · exact .inr ⟨m, hm, .here⟩
    · have hout : m ∉ out := fun hout ↦ by rw [h.parent_of_out hout] at hp; cases hp
      rw [h.parent_of_other hm hout] at hp
      rcases ih with hwithin | ⟨c, hc, hwithin⟩
      · exact .inl (.beneath hp hwithin)
      · exact .inr ⟨c, hc, .beneath hp hwithin⟩

end

/-- Taking children out opens no new ways. -/
theorem within_of_out (h : Reslotted t t' n out []) (hwithin : t'.Within a m) : t.Within a m := by
  rcases h.within hwithin with hwithin | ⟨c, hc, -⟩
  · exact hwithin
  · cases hc

section

variable (h : Reslotted t t' n out inn)

include h

theorem linked (ht : t.Linked) : t'.Linked where
  parent_of_held := by
    intro p c hc
    by_cases hp : p = n
    · subst hp
      by_cases hinn : c ∈ inn
      · exact h.parent_of_inn hinn
      · have hpos := count_pos_iff.2 hc
        rw [h.count, count_eq_zero.2 hinn] at hpos
        have hle := ht.count_le_one p c
        have hout : c ∉ out := fun hout ↦ by
          have := count_pos_iff.2 hout
          omega
        have hheld : some c ∈ t.slots p := count_pos_iff.1 (by omega)
        rw [h.parent_of_other hinn hout]
        exact ht.parent_of_held hheld
    · rw [h.slots_ne p hp] at hc
      exact h.parent_of_elsewhere (ht.parent_of_held hc) hp
  held_once := by
    intro p c hp
    by_cases hinn : c ∈ inn
    · rw [h.parent_of_inn hinn] at hp
      cases hp
      have hfree : t.parent c ≠ some n := by rw [h.inn_free c hinn]; simp
      rw [h.count, ht.count_eq_zero hfree, count_eq_one_of_mem h.inn_nodup hinn]
      omega
    · by_cases hout : c ∈ out
      · rw [h.parent_of_out hout] at hp
        cases hp
      · rw [h.parent_of_other hinn hout] at hp
        by_cases hne : p = n
        · subst hne
          rw [h.count, ht.held_once hp, count_eq_zero.2 hinn, count_eq_zero.2 hout]
        · rw [h.slots_ne p hne]
          exact ht.held_once hp

/-- The way up from `n` passes through nothing that the edit moves. -/
theorem parent_of_above (ht : t.Coherent) (hinn : ∀ c ∈ inn, ¬t.Within c n) (ha : t.Within a n) :
    t'.parent a = t.parent a := by
  refine h.parent_of_other (fun hc ↦ hinn a hc ha) fun hout ↦ ?_
  exact (ht.grounded a).not_within (h.out_held a hout) ha

theorem grounded (ht : t.Coherent) (hinn : ∀ c ∈ inn, ¬t.Within c n) (m : NodeId) : t'.Grounded m := by
  have habove : ∀ a, t.Within a n → t'.Grounded a := by
    intro a ha
    induction ht.grounded a with
    | @top a hp => exact .top (by rw [h.parent_of_above ht hinn ha, hp])
    | @beneath a p hp _ ih =>
      refine .beneath (by rw [h.parent_of_above ht hinn ha, hp]) (ih ?_)
      exact (Within.of_parent hp).trans ha
  induction ht.grounded m with
  | @top m hp =>
    by_cases hm : m ∈ inn
    · exact .beneath (h.parent_of_inn hm) (habove n .here)
    · have hout : m ∉ out := fun hout ↦ by rw [h.out_held m hout] at hp; cases hp
      exact .top (by rw [h.parent_of_other hm hout, hp])
  | @beneath m p hp _ ih =>
    have hm : m ∉ inn := fun hm ↦ by rw [h.inn_free m hm] at hp; cases hp
    by_cases hout : m ∈ out
    · exact .top (h.parent_of_out hout)
    · exact .beneath (by rw [h.parent_of_other hm hout, hp]) ih

theorem coherent (ht : t.Coherent) (hinn : ∀ c ∈ inn, ¬t.Within c n) : t'.Coherent :=
  ⟨h.linked ht.toLinked, h.grounded ht hinn⟩

end

/-- Taking children out asks for nothing. -/
theorem coherent_of_out (h : Reslotted t t' n out []) (ht : t.Coherent) : t'.Coherent :=
  h.coherent ht fun _ hc ↦ by cases hc

/-- Taking in a node that has `n` beneath it closes a ring of parents. -/
theorem not_coherent (h : Reslotted t t' n out inn) (ht : t.Coherent) (hc : c ∈ inn)
    (hwithin : t.Within c n) : ¬t'.Coherent := by
  -- the way from `n` up to `c` survives, since a child of `n` that goes out cannot be above `n`
  have hkept : ∀ a, t.Within c a → t.Within a n → t'.Within c a := by
    intro a hca han
    induction hca with
    | here => exact .here
    | @beneath a p hp _ ih =>
      have hinn : a ∉ inn := fun ha ↦ by rw [h.inn_free a ha] at hp; cases hp
      have hout : a ∉ out := fun hout ↦ (ht.grounded a).not_within (h.out_held a hout) han
      refine .beneath (by rw [h.parent_of_other hinn hout, hp]) (ih ?_)
      exact (Within.of_parent hp).trans han
  intro ht'
  exact (ht'.grounded c).not_within (h.parent_of_inn hc) (hkept n hwithin .here)

theorem coherent_iff (h : Reslotted t t' n out inn) (ht : t.Coherent) :
    t'.Coherent ↔ ∀ c ∈ inn, ¬t.Within c n :=
  ⟨fun ht' _ hc hwithin ↦ h.not_coherent ht hc hwithin ht', h.coherent ht⟩

end Reslotted

end ProtocolIR.Tree
