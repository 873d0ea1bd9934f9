import Mathlib.Data.List.Nodup
import ProtocolIR.Tree.Traversal

/-!
# Nodes before and after an edit

A tree is observed through `Tree.node`. For each edit of a tree this file says what node stands
at a number afterwards, and from that what the slots, the parent and the kind of a node become.
Later files speak of these views only.
-/

namespace ProtocolIR.Tree

open List

variable {n c : NodeId} {t : Tree} {i : Nat}

/-- Whether a number names a node of the tree. -/
def Has (t : Tree) (n : NodeId) : Prop := n.index < t.size

instance (t : Tree) (n : NodeId) : Decidable (t.Has n) := inferInstanceAs (Decidable (_ < _))

theorem node_of_not_has (h : ¬t.Has n) : t.node n = { kind := .root } := by
  unfold Has size at h
  unfold node
  rw [Array.getElem?_eq_none (by omega)]
  rfl

theorem slots_of_not_has (h : ¬t.Has n) : t.slots n = [] := by
  unfold slots
  rw [node_of_not_has h]

theorem parent_of_not_has (h : ¬t.Has n) : t.parent n = none := by
  unfold parent
  rw [node_of_not_has h]

theorem kind_of_not_has (h : ¬t.Has n) : t.kind n = .root := by
  unfold kind
  rw [node_of_not_has h]

theorem has_of_kind (h : t.kind n ≠ .root) : t.Has n := by
  by_contra hn
  exact h (kind_of_not_has hn)

theorem has_of_isFunction (h : (t.kind n).isFunction = true) : t.Has n :=
  has_of_kind fun hroot ↦ by rw [hroot] at h; cases h

theorem declaration?_eq_some_iff {d : Declaration} :
    t.declaration? n = some d ↔ t.kind n = .declaration d := by
  unfold declaration? NodeKind.declaration?
  cases t.kind n <;> simp

theorem has_of_parent {p : NodeId} (h : t.parent n = some p) : t.Has n := by
  by_contra hn
  rw [parent_of_not_has hn] at h
  cases h

theorem has_of_mem_slots {c : Option NodeId} (h : c ∈ t.slots n) : t.Has n := by
  by_contra hn
  rw [slots_of_not_has hn] at h
  cases h

@[simp] theorem mem_children : c ∈ t.children n ↔ some c ∈ t.slots n := by
  simp [children]

theorem child_eq_some_iff : t.child n i = some c ↔ (t.slots n)[i]? = some (some c) := by
  unfold child
  cases (t.slots n)[i]? <;> simp

theorem mem_slots_of_child (h : t.child n i = some c) : some c ∈ t.slots n :=
  mem_of_getElem? (child_eq_some_iff.1 h)

theorem exists_child_of_held (h : some c ∈ t.slots n) : ∃ i, t.child n i = some c := by
  obtain ⟨i, hi⟩ := mem_iff_getElem?.1 h
  exact ⟨i, child_eq_some_iff.2 hi⟩

theorem mem_slots_of_mem_drop {start : Nat} (h : c ∈ ((t.slots n).drop start).filterMap id) :
    some c ∈ t.slots n :=
  mem_of_mem_drop (by simpa using h)

theorem mem_slots_of_mem_childrenFrom {start : Nat} {category : NodeCategory}
    (h : c ∈ t.childrenFrom n start category) : some c ∈ t.slots n :=
  mem_slots_of_mem_drop (mem_filter.1 h).1

/-! ## Changing one node -/

@[simp] theorem size_modifyNode (t : Tree) (n : NodeId) (f : Node → Node) :
    (t.modifyNode n f).size = t.size := by
  simp [modifyNode, size]

theorem node_modifyNode (t : Tree) (n m : NodeId) (f : Node → Node) :
    (t.modifyNode n f).node m = if m = n ∧ t.Has n then f (t.node n) else t.node m := by
  unfold modifyNode node Has size
  rw [Array.getElem?_modify]
  by_cases hm : m = n
  · subst hm
    by_cases hn : m.index < t.nodes.size
    · simp [hn]
    · simp [hn]
  · have hindex : n.index ≠ m.index := fun h ↦ hm (by cases n; cases m; simp_all)
    simp [hm, hindex]

@[simp] theorem has_modifyNode (t : Tree) (n m : NodeId) (f : Node → Node) :
    (t.modifyNode n f).Has m ↔ t.Has m := by
  simp [Has]

@[simp] theorem scopes_modifyNode (t : Tree) (n : NodeId) (f : Node → Node) :
    (t.modifyNode n f).scopes = t.scopes := rfl

/-- A field that an edit of one node leaves alone keeps its value everywhere. -/
theorem field_modifyNode {α : Type} (field : Node → α) (t : Tree) (n m : NodeId) (f : Node → Node)
    (h : ∀ data, field (f data) = field data) :
    field ((t.modifyNode n f).node m) = field (t.node m) := by
  rw [node_modifyNode]
  split
  next hm => rw [h, hm.1]
  · rfl

section SetComments

variable (t : Tree) (n m : NodeId) (comments : List String)

@[simp] theorem has_setComments : (t.setComments n comments).Has m ↔ t.Has m := has_modifyNode ..

@[simp] theorem kind_setComments : (t.setComments n comments).kind m = t.kind m :=
  field_modifyNode Node.kind t n m _ fun _ ↦ rfl

@[simp] theorem slots_setComments : (t.setComments n comments).slots m = t.slots m :=
  field_modifyNode Node.slots t n m _ fun _ ↦ rfl

@[simp] theorem parent_setComments : (t.setComments n comments).parent m = t.parent m :=
  field_modifyNode Node.parent t n m _ fun _ ↦ rfl

end SetComments

section SetParent

variable (t : Tree) (n m : NodeId) (p : Option NodeId)

@[simp] theorem size_setParent : (t.setParent n p).size = t.size := size_modifyNode ..

@[simp] theorem has_setParent : (t.setParent n p).Has m ↔ t.Has m := has_modifyNode ..

@[simp] theorem scopes_setParent : (t.setParent n p).scopes = t.scopes := rfl

end SetParent

section SetParents

variable (t : Tree) (ns : List NodeId) (m : NodeId) (p : Option NodeId)

@[simp] theorem size_setParents : (t.setParents ns p).size = t.size := by
  unfold setParents
  induction ns generalizing t with
  | nil => rfl
  | cons n ns ih => rw [foldl_cons, ih, size_setParent]

@[simp] theorem has_setParents : (t.setParents ns p).Has m ↔ t.Has m := by
  simp [Has]

@[simp] theorem scopes_setParents : (t.setParents ns p).scopes = t.scopes := by
  unfold setParents
  induction ns generalizing t with
  | nil => rfl
  | cons n ns ih => rw [foldl_cons, ih, scopes_setParent]

/-- Moving nodes under a parent changes nothing but their parents. -/
theorem node_setParents :
    (t.setParents ns p).node m =
      if m ∈ ns ∧ t.Has m then { t.node m with parent := p } else t.node m := by
  unfold setParents
  induction ns generalizing t with
  | nil => simp
  | cons n ns ih =>
    rw [foldl_cons, ih]
    simp only [has_setParent, mem_cons]
    unfold setParent
    rw [node_modifyNode]
    by_cases hm : t.Has m
    · by_cases hn : m = n <;> by_cases hns : m ∈ ns <;> simp_all
    · have hn : ¬(m = n ∧ t.Has n) := fun h ↦ hm (h.1 ▸ h.2)
      simp [hm, hn]

@[simp] theorem slots_setParents : (t.setParents ns p).slots m = t.slots m := by
  unfold slots
  rw [node_setParents]
  split <;> rfl

@[simp] theorem kind_setParents : (t.setParents ns p).kind m = t.kind m := by
  unfold kind
  rw [node_setParents]
  split <;> rfl

theorem parent_setParents :
    (t.setParents ns p).parent m = if m ∈ ns ∧ t.Has m then p else t.parent m := by
  unfold parent
  rw [node_setParents]
  split <;> rfl

end SetParents

section SetSlots

variable (t : Tree) (n m : NodeId) (slots : List (Option NodeId))

@[simp] theorem size_setSlots : (t.setSlots n slots).size = t.size := size_modifyNode ..

@[simp] theorem has_setSlots : (t.setSlots n slots).Has m ↔ t.Has m := has_modifyNode ..

@[simp] theorem parent_setSlots : (t.setSlots n slots).parent m = t.parent m :=
  field_modifyNode Node.parent t n m _ fun _ ↦ rfl

@[simp] theorem kind_setSlots : (t.setSlots n slots).kind m = t.kind m :=
  field_modifyNode Node.kind t n m _ fun _ ↦ rfl

theorem slots_setSlots :
    (t.setSlots n slots).slots m = if m = n ∧ t.Has n then slots else t.slots m := by
  unfold setSlots Tree.slots
  rw [node_modifyNode]
  split <;> rfl

end SetSlots

section SetKind

variable (t : Tree) (n m : NodeId) (kind : NodeKind)

@[simp] theorem size_setKind : (t.setKind n kind).size = t.size := size_modifyNode ..

@[simp] theorem has_setKind : (t.setKind n kind).Has m ↔ t.Has m := has_modifyNode ..

@[simp] theorem parent_setKind : (t.setKind n kind).parent m = t.parent m :=
  field_modifyNode Node.parent t n m _ fun _ ↦ rfl

@[simp] theorem slots_setKind : (t.setKind n kind).slots m = t.slots m :=
  field_modifyNode Node.slots t n m _ fun _ ↦ rfl

theorem kind_setKind : (t.setKind n kind).kind m = if m = n ∧ t.Has n then kind else t.kind m := by
  unfold setKind Tree.kind
  rw [node_modifyNode]
  split <;> rfl

/-- Writing what is there changes nothing. -/
theorem setKind_self {t : Tree} {n : NodeId} {kind : NodeKind} (h : t.kind n = kind) :
    t.setKind n kind = t := by
  have hnodes : (t.setKind n kind).nodes = t.nodes := by
    refine Array.ext_getElem? fun i ↦ ?_
    show (t.nodes.modify n.index _)[i]? = _
    rw [Array.getElem?_modify]
    split
    next hi =>
      subst hi
      cases hnode : t.nodes[n.index]? with
      | none => rfl
      | some data =>
        have hdata : t.node n = data := by unfold node; rw [hnode]; rfl
        subst h hdata
        rfl
    · rfl
  show { t with nodes := (t.setKind n kind).nodes } = t
  rw [hnodes]

end SetKind

end ProtocolIR.Tree
