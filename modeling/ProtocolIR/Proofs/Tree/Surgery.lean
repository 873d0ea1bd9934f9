import ProtocolIR.Proofs.Tree.Coherence

/-!
# What surgery does to the links

Each operation of tree surgery is a `Reslotted` edit of one node. For each there is a condition
under which it succeeds, and a statement of which children go out and come in when it does.
-/

namespace ProtocolIR.Tree

open List Option

variable {t : Tree} {slots : List (Option NodeId)}

/-- The nodes of both trees are of the same kinds. -/
structure SameKinds (t t' : Tree) : Prop where
  size_eq : t'.size = t.size
  kind_eq : ∀ n, t'.kind n = t.kind n

theorem SameKinds.has_iff {t' : Tree} (h : SameKinds t t') (n : NodeId) : t'.Has n ↔ t.Has n := by
  simp [Has, h.size_eq]

/-! ## Free nodes -/

/-- A check in front of a result. -/
theorem check_bind_eq_ok_iff {α : Type} {check : Except Fault Unit} {x : Except Fault α} {a : α} :
    (check >>= fun _ ↦ x) = .ok a ↔ check = .ok () ∧ x = .ok a := by
  cases check <;> simp [bind, Except.bind]

section Free

variable {t : Tree} {placement : Placement} {n : NodeId} {ns : List NodeId}

theorem requireFree_eq_ok_iff : t.requireFree placement n = .ok () ↔ t.parent n = none := by
  unfold requireFree
  cases t.parent n <;> simp

theorem requireAllFree_eq_ok_iff :
    t.requireAllFree placement ns = .ok () ↔ ∀ n ∈ ns, t.parent n = none := by
  induction ns with
  | nil => simp [requireAllFree]
  | cons n ns ih =>
    rw [forall_mem_cons, ← ih, ← requireFree_eq_ok_iff, requireAllFree]
    exact check_bind_eq_ok_iff

end Free

/-! ## New nodes -/

/-- The tree with one more node. -/
def push (t : Tree) (data : Node) : Tree := { t with nodes := t.nodes.push data }

section Push

variable (t : Tree) (data : Node)

@[simp] theorem size_push : (t.push data).size = t.size + 1 := by
  simp [push, size]

theorem node_push (m : NodeId) : (t.push data).node m = if m.index = t.size then data else t.node m := by
  unfold push node size
  rw [Array.getElem?_push]
  split <;> rfl

theorem node_push_of_has {m : NodeId} (h : t.Has m) : (t.push data).node m = t.node m := by
  unfold Has at h
  rw [node_push, if_neg (by omega)]

end Push

theorem count_filterMap_id (slots : List (Option NodeId)) (c : NodeId) :
    (slots.filterMap id).count c = slots.count (some c) := by
  induction slots with
  | nil => rfl
  | cons s slots ih =>
    cases s with
    | none => rw [filterMap_cons_none rfl, ih, count_cons_of_ne (by simp)]
    | some d =>
      have hcons : (some d :: slots).filterMap id = d :: slots.filterMap id := rfl
      rw [hcons, count_cons, count_cons, ih]
      simp

theorem Linked.nodup_children (ht : t.Linked) (n : NodeId) : (t.children n).Nodup := by
  refine nodup_iff_count_le_one.2 fun c ↦ ?_
  unfold children
  rw [count_filterMap_id]
  exact ht.count_le_one n c

section Create

variable {t t' : Tree} {kind : NodeKind} {slots : List (Option NodeId)} {location : Option Location}
  {n m : NodeId}

theorem create_eq_ok_iff :
    t.create kind slots location = .ok (n, t') ↔
      (∀ c, some c ∈ slots → t.parent c = none) ∧ n = ⟨t.size⟩ ∧
        t' = (t.push { kind, location, slots }).setParents (slots.filterMap id) (some n) := by
  unfold create
  rw [check_bind_eq_ok_iff, requireAllFree_eq_ok_iff]
  simp only [mem_filterMap, id_eq, exists_eq_right]
  constructor
  · rintro ⟨hfree, h⟩
    cases h
    exact ⟨hfree, rfl, rfl⟩
  · rintro ⟨hfree, rfl, rfl⟩
    exact ⟨hfree, rfl⟩

theorem exists_create (kind : NodeKind) (location : Option Location)
    (hfree : ∀ c, some c ∈ slots → t.parent c = none) :
    ∃ t', t.create kind slots location = .ok (⟨t.size⟩, t') :=
  ⟨_, create_eq_ok_iff.2 ⟨hfree, rfl, rfl⟩⟩

section

variable (h : t.create kind slots location = .ok (n, t'))

include h

theorem size_create : t'.size = t.size + 1 := by
  obtain ⟨-, -, rfl⟩ := create_eq_ok_iff.1 h
  simp

theorem index_create : n.index = t.size := by
  obtain ⟨-, rfl, -⟩ := create_eq_ok_iff.1 h
  rfl

theorem not_has_create : ¬t.Has n := by
  have hindex := index_create h
  unfold Has
  omega

theorem has_create : t'.Has n := by
  have hindex := index_create h
  have hsize := size_create h
  unfold Has
  omega

/-- The nodes there were are changed only in that the children get a parent. -/
theorem node_create_of_has (hm : t.Has m) :
    t'.node m = if some m ∈ slots then { t.node m with parent := some n } else t.node m := by
  obtain ⟨-, -, rfl⟩ := create_eq_ok_iff.1 h
  have hhas : (t.push { kind, location, slots }).Has m := by
    unfold Has at *
    rw [size_push]
    omega
  rw [node_setParents, node_push_of_has t _ hm]
  simp [hhas]

theorem kind_create_of_has (hm : t.Has m) : t'.kind m = t.kind m := by
  unfold Tree.kind
  rw [node_create_of_has h hm]
  split <;> rfl

theorem slots_create_of_has (hm : t.Has m) : t'.slots m = t.slots m := by
  unfold Tree.slots
  rw [node_create_of_has h hm]
  split <;> rfl

theorem node_create_self (hn : some n ∉ slots) : t'.node n = { kind, location, slots } := by
  obtain ⟨-, rfl, rfl⟩ := create_eq_ok_iff.1 h
  rw [node_setParents, node_push]
  simp [hn]

theorem scopes_create : t'.scopes = t.scopes := by
  obtain ⟨-, -, rfl⟩ := create_eq_ok_iff.1 h
  exact scopes_setParents ..

theorem reslotted_create (hhas : ∀ c, some c ∈ slots → t.Has c)
    (hnodup : (slots.filterMap id).Nodup) : Reslotted t t' n [] (slots.filterMap id) := by
  have hnot := not_has_create h
  have hself : some n ∉ slots := fun hn ↦ hnot (hhas n hn)
  have hnode := node_create_self h hself
  have hfree := (create_eq_ok_iff.1 h).1
  have hmem : ∀ c, c ∈ slots.filterMap id ↔ some c ∈ slots := by simp
  -- what the tree lacked it lacks still, but for the new node
  have hother : ∀ m, m ≠ n → ¬t.Has m → ¬t'.Has m := by
    intro m hne hm hm'
    have hindex := index_create h
    have hsize := size_create h
    unfold Has at hm hm'
    have : m.index = n.index := by omega
    exact hne (by cases m; cases n; simp_all)
  refine ⟨fun m hne ↦ ?_, fun c ↦ ?_, fun c ↦ ?_, fun _ hc ↦ absurd hc not_mem_nil,
    fun c hc ↦ hfree c ((hmem c).1 hc), hnodup⟩
  · by_cases hm : t.Has m
    · unfold Tree.slots
      rw [node_create_of_has h hm]
      split <;> rfl
    · rw [slots_of_not_has hm, slots_of_not_has (hother m hne hm)]
  · have hslots : t'.slots n = slots := by unfold Tree.slots; rw [hnode]
    rw [hslots, slots_of_not_has hnot, count_filterMap_id]
    simp
  · simp only [hmem, not_mem_nil, if_false]
    by_cases hc : t.Has c
    · unfold Tree.parent
      rw [node_create_of_has h hc]
      split <;> rfl
    · have hslot : some c ∉ slots := fun hs ↦ hc (hhas c hs)
      rw [if_neg hslot, parent_of_not_has hc]
      by_cases hne : c = n
      · unfold Tree.parent
        rw [hne, hnode]
      · exact parent_of_not_has (hother c hne hc)

end

/-- A new node is above nothing but itself before it is made. -/
theorem not_within_of_not_has (ht : t.Linked) {a : NodeId} (ha : ¬t.Has a) (hne : m ≠ a) :
    ¬t.Within a m := by
  intro hwithin
  induction hwithin with
  | here => exact hne rfl
  | @beneath m p hp _ ih => exact ih fun heq ↦ ha (heq ▸ ht.has_parent hp)

theorem coherent_create (ht : t.Coherent) (h : t.create kind slots location = .ok (n, t'))
    (hhas : ∀ c, some c ∈ slots → t.Has c) (hnodup : (slots.filterMap id).Nodup) :
    t'.Coherent := by
  refine (reslotted_create h hhas hnodup).coherent ht fun c hc hwithin ↦ ?_
  cases hwithin with
  | here => exact not_has_create h (hhas n (by simpa using hc))
  | beneath hp _ => rw [parent_of_not_has (not_has_create h)] at hp; cases hp

theorem parent_create_self (h : t.create kind slots location = .ok (n, t'))
    (hhas : ∀ c, some c ∈ slots → t.Has c) : t'.parent n = none := by
  unfold parent
  rw [node_create_self h fun hn ↦ not_has_create h (hhas n hn)]

/-- A new node is above what its children were above. -/
theorem not_within_create (ht : t.Linked) (h : t.create kind slots location = .ok (n, t'))
    (hhas : ∀ c, some c ∈ slots → t.Has c) (hnodup : (slots.filterMap id).Nodup) (hm : t.Has m)
    (hslots : ∀ c, some c ∈ slots → ¬t.Within c m) : ¬t'.Within n m := by
  intro hwithin
  have hnot := not_has_create h
  rcases (reslotted_create h hhas hnodup).within hwithin with hwithin | ⟨c, hc, hwithin⟩
  · exact not_within_of_not_has ht hnot (fun heq ↦ hnot (heq ▸ hm)) hwithin
  · exact hslots c (by simpa using hc) hwithin

end Create

/-! ## Placing a node -/

theorem count_putSlot (slots : List (Option NodeId)) (i : Nat) (child : Option NodeId) (c : NodeId) :
    (putSlot slots i child).count (some c) =
      slots.count (some c) - slots[i]?.join.toList.count c + child.toList.count c := by
  have hchild : [child].count (some c) = child.toList.count c := by
    cases child <;> simp [count_singleton]
  unfold putSlot
  split
  next hi =>
    rw [count_set hi, getElem?_eq_getElem hi]
    cases slots[i] <;> cases child <;> simp [count_singleton]
  next hi =>
    rw [getElem?_eq_none (by omega), count_append, count_append, hchild]
    simp [count_replicate]

section Placing

variable {t t' : Tree} {n old p new : NodeId} {i : Nat} {child : Option NodeId}

theorem setChild_eq_ok_iff :
    t.setChild n i child = .ok t' ↔
      (∀ c ∈ child.toList, t.parent c = none) ∧
        t' = ((t.setSlots n (putSlot (t.slots n) i child)).setParents (t.child n i).toList
          none).setParents child.toList (some n) := by
  unfold setChild
  rw [check_bind_eq_ok_iff, requireAllFree_eq_ok_iff]
  refine and_congr_right fun _ ↦ ⟨fun h ↦ ?_, fun h ↦ by rw [h]; rfl⟩
  cases h
  rfl

theorem exists_setChild (hfree : ∀ c ∈ child.toList, t.parent c = none) :
    ∃ t', t.setChild n i child = .ok t' :=
  ⟨_, setChild_eq_ok_iff.2 ⟨hfree, rfl⟩⟩

theorem sameKinds_setChild (h : t.setChild n i child = .ok t') : SameKinds t t' := by
  obtain ⟨-, rfl⟩ := setChild_eq_ok_iff.1 h
  exact ⟨by simp, by simp⟩

theorem slots_setChild (h : t.setChild n i child = .ok t') (hn : t.Has n) :
    t'.slots n = putSlot (t.slots n) i child := by
  obtain ⟨-, rfl⟩ := setChild_eq_ok_iff.1 h
  simp [slots_setSlots, hn]

theorem reslotted_setChild (ht : t.Linked) (h : t.setChild n i child = .ok t') (hn : t.Has n)
    (hchild : ∀ c ∈ child.toList, t.Has c) :
    Reslotted t t' n (t.child n i).toList child.toList := by
  obtain ⟨hfree, rfl⟩ := setChild_eq_ok_iff.1 h
  have hold : ∀ c ∈ (t.child n i).toList, t.parent c = some n := fun c hc ↦
    ht.parent_of_child (mem_toList.1 hc)
  have hnodup : child.toList.Nodup := by cases child <;> simp
  refine ⟨fun m hm ↦ ?_, fun c ↦ ?_, fun c ↦ ?_, hold, hfree, hnodup⟩
  · simp [slots_setSlots, hm]
  · simp only [slots_setParents, slots_setSlots, hn, and_self, if_true]
    exact count_putSlot ..
  · simp only [parent_setParents, has_setParents, has_setSlots, parent_setSlots]
    by_cases hc : c ∈ child.toList
    · rw [if_pos ⟨hc, hchild c hc⟩, if_pos hc]
    · rw [if_neg fun h ↦ hc h.1, if_neg hc]
      by_cases hout : c ∈ (t.child n i).toList
      · rw [if_pos ⟨hout, has_of_parent (hold c hout)⟩, if_pos hout]
      · rw [if_neg fun h ↦ hout h.1, if_neg hout]

theorem addChild_eq_ok_iff :
    t.addChild n child = .ok t' ↔
      (∀ c ∈ child.toList, t.parent c = none) ∧
        t' = (t.setParents child.toList (some n)).setSlots n (t.slots n ++ [child]) := by
  unfold addChild
  rw [check_bind_eq_ok_iff, requireAllFree_eq_ok_iff]
  simp only [slots_setParents]
  refine and_congr_right fun _ ↦ ⟨fun h ↦ ?_, fun h ↦ by rw [h]; rfl⟩
  cases h
  rfl

theorem exists_addChild (hfree : ∀ c ∈ child.toList, t.parent c = none) :
    ∃ t', t.addChild n child = .ok t' :=
  ⟨_, addChild_eq_ok_iff.2 ⟨hfree, rfl⟩⟩

theorem sameKinds_addChild (h : t.addChild n child = .ok t') : SameKinds t t' := by
  obtain ⟨-, rfl⟩ := addChild_eq_ok_iff.1 h
  exact ⟨by simp, by simp⟩

theorem reslotted_addChild (h : t.addChild n child = .ok t') (hn : t.Has n)
    (hchild : ∀ c ∈ child.toList, t.Has c) : Reslotted t t' n [] child.toList := by
  obtain ⟨hfree, rfl⟩ := addChild_eq_ok_iff.1 h
  have hnodup : child.toList.Nodup := by cases child <;> simp
  refine ⟨fun m hm ↦ ?_, fun c ↦ ?_, fun c ↦ ?_, fun _ hc ↦ absurd hc not_mem_nil, hfree,
    hnodup⟩
  · simp [slots_setSlots, hm]
  · simp only [slots_setSlots, has_setParents, hn, and_self, if_true, count_append]
    cases child <;> simp [count_singleton]
  · simp only [parent_setSlots, parent_setParents, not_mem_nil, if_false]
    by_cases hc : c ∈ child.toList
    · rw [if_pos ⟨hc, hchild c hc⟩, if_pos hc]
    · rw [if_neg fun h ↦ hc h.1, if_neg hc]

theorem child_of_findIdx? (h : (t.slots n).findIdx? (· == some old) = some i) :
    t.child n i = some old := by
  obtain ⟨hi, hold, -⟩ := findIdx?_eq_some_iff_getElem.1 h
  rw [child_eq_some_iff, getElem?_eq_getElem hi, eq_of_beq hold]

theorem child_of_slotIndex (hp : t.parent n = some p) (h : t.slotIndex n = some i) :
    t.child p i = some n := by
  unfold slotIndex at h
  rw [hp] at h
  exact child_of_findIdx? h

theorem exists_slotIndex (ht : t.Linked) (hp : t.parent n = some p) :
    ∃ i, t.slotIndex n = some i := by
  unfold slotIndex
  rw [hp, bind_some]
  cases hfind : (t.slots p).findIdx? (· == some n) with
  | some i => exact ⟨i, rfl⟩
  | none =>
    have habsent := findIdx?_eq_none_iff.1 hfind (some n) (ht.held hp)
    simp at habsent

/-- A child is replaced in the slot that holds it. -/
theorem replaceChild_eq_ok (h : t.replaceChild n old new = .ok t') :
    ∃ i, t.child n i = some old ∧ t.setChild n i (some new) = .ok t' := by
  unfold replaceChild at h
  split at h
  · cases h
  next i hi => exact ⟨i, child_of_findIdx? hi, h⟩

theorem reslotted_replaceChild (ht : t.Linked) (h : t.replaceChild n old new = .ok t')
    (hnew : t.Has new) : Reslotted t t' n [old] [new] := by
  obtain ⟨i, hi, hset⟩ := replaceChild_eq_ok h
  have hreslot := reslotted_setChild ht hset (has_of_mem_slots (mem_slots_of_child hi))
    (by simpa using hnew)
  rw [hi] at hreslot
  exact hreslot

theorem reslotted_replaceNode (ht : t.Linked) (h : t.replaceNode old new = .ok t')
    (hnew : t.Has new) : ∃ p, t.parent old = some p ∧ Reslotted t t' p [old] [new] := by
  unfold replaceNode at h
  split at h
  · cases h
  next p hp => exact ⟨p, hp, reslotted_replaceChild ht h hnew⟩

end Placing

/-! ## Taking nodes out -/

theorem count_eraseIdx {i : Nat} {slot : Option NodeId} (h : slots[i]? = some slot) (c : NodeId) :
    (slots.eraseIdx i).count (some c) = slots.count (some c) - slot.toList.count c := by
  obtain ⟨hi, rfl⟩ := List.getElem?_eq_some_iff.1 h
  have hsplit : slots.count (some c) =
      (slots.take i ++ slots[i] :: slots.drop (i + 1)).count (some c) := by
    rw [← drop_eq_getElem_cons hi, take_append_drop]
  have hslot : [slots[i]].count (some c) = slots[i].toList.count c := by
    cases slots[i] <;> simp [count_singleton]
  rw [eraseIdx_eq_take_drop_succ, hsplit, ← hslot, count_append, count_append,
    count_cons, count_singleton]
  omega

/-- The slots before, in and after a range hold what all slots hold. -/
theorem count_range {start stop : Nat} (h : start ≤ stop) (c : NodeId) :
    (slots.take start ++ slots.drop stop).count (some c) =
      slots.count (some c) - (((slots.take stop).drop start).filterMap id).count c := by
  have htake : (slots.take stop).take start = slots.take start := by
    rw [take_take, Nat.min_eq_left h]
  have hsplit : slots.count (some c) =
      (slots.take start ++ (slots.take stop).drop start ++ slots.drop stop).count (some c) := by
    rw [← htake, take_append_drop, take_append_drop]
  rw [count_filterMap_id, hsplit]
  simp only [count_append]
  omega

section TakingOut

variable {t t' : Tree} {n : NodeId} {i start stop : Nat}

theorem reslotted_detached (hn : t.Has n) {slots : List (Option NodeId)}
    {out : List NodeId} (hout : ∀ c ∈ out, t.parent c = some n)
    (hcount : ∀ c, slots.count (some c) = (t.slots n).count (some c) - out.count c) :
    Reslotted t ((t.setSlots n slots).setParents out none) n out [] := by
  refine ⟨fun m hm ↦ ?_, fun c ↦ ?_, fun c ↦ ?_, hout, fun _ hc ↦ absurd hc not_mem_nil,
    nodup_nil⟩
  · simp [slots_setSlots, hm]
  · simp [slots_setSlots, hn, hcount]
  · simp only [parent_setParents, has_setSlots, parent_setSlots, not_mem_nil, if_false]
    by_cases hc : c ∈ out
    · rw [if_pos ⟨hc, has_of_parent (hout c hc)⟩, if_pos hc]
    · rw [if_neg fun h ↦ hc h.1, if_neg hc]

theorem reslotted_removeChild (ht : t.Linked) {old : Option NodeId}
    (h : t.removeChild n i = .ok (old, t')) : Reslotted t t' n old.toList [] := by
  unfold removeChild at h
  split at h
  · cases h
  next slot hslot =>
    cases h
    have hi : i < (t.slots n).length := (List.getElem?_eq_some_iff.1 hslot).1
    refine reslotted_detached (has_of_mem_slots (mem_of_getElem? hslot)) (fun c hc ↦ ?_)
      fun c ↦ ?_
    · rw [mem_toList.1 hc] at hslot
      exact ht.parent_of_held (mem_of_getElem? hslot)
    · rw [count_eraseIdx hslot]

theorem reslotted_removeChildren (ht : t.Linked) (hn : t.Has n)
    (h : t.removeChildren n start stop = .ok t') :
    Reslotted t t' n ((((t.slots n).take stop).drop start).filterMap id) [] := by
  unfold removeChildren at h
  dsimp only at h
  split at h
  next hrange =>
    cases h
    refine reslotted_detached hn (fun c hc ↦ ?_) fun c ↦ count_range hrange.1 c
    have hmem : some c ∈ ((t.slots n).take stop).drop start := by simpa using hc
    exact ht.parent_of_held (mem_of_mem_take (mem_of_mem_drop hmem))
  · cases h

theorem sameKinds_removeChildren (h : t.removeChildren n start stop = .ok t') : SameKinds t t' := by
  unfold removeChildren at h
  dsimp only at h
  split at h
  · cases h
    exact ⟨by simp, by simp⟩
  · cases h

theorem exists_removeChildren (hstart : start ≤ stop) (hstop : stop ≤ (t.slots n).length) :
    ∃ t', t.removeChildren n start stop = .ok t' := by
  unfold removeChildren
  dsimp only
  rw [if_pos ⟨hstart, hstop⟩]
  exact ⟨_, rfl⟩

theorem detach_eq_ok (h : t.detach n = .ok t') :
    t' = t ∨ ∃ p i, t.child p i = some n ∧ t.setChild p i none = .ok t' := by
  unfold detach at h
  split at h
  next p i hp hi => exact .inr ⟨p, i, child_of_slotIndex hp hi, h⟩
  · cases h; exact .inl rfl

end TakingOut

end ProtocolIR.Tree
