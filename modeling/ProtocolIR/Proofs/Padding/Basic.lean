import ProtocolIR.Proofs.Pass.Step
import ProtocolIR.Proofs.Tree.Typing

/-!
# Padding

A sweep that needs the type of conditions makes one, and leaves it behind unused. A tree with such
leftovers is *padded*: beyond the nodes of a base tree it has only types, which no node of the
base holds and which have no scope. Reading a padded tree from a node of the base gives what
reading the base gives, and without its scopes it gives the same for all but lookups. This file shows
it for slots, paths, orders and links; bounds that grow with the tree do not matter, since they are
never met.
-/

namespace ProtocolIR

open List NodeKind

section Lists

variable {α β : Type} {p q : α → Bool} {l : List α}

theorem all_congr_of_mem (h : ∀ a ∈ l, p a = q a) : l.all p = l.all q := by
  induction l with
  | nil => rfl
  | cons a rest ih =>
    rw [all_cons, all_cons, h a mem_cons_self,
      ih fun b hb ↦ h b (mem_cons_of_mem a hb)]

theorem any_congr_of_mem (h : ∀ a ∈ l, p a = q a) : l.any p = l.any q := by
  rw [any_eq_not_all_not, any_eq_not_all_not]
  exact congrArg (!·) (all_congr_of_mem fun a ha ↦ congrArg (!·) (h a ha))

theorem find?_congr_of_mem (h : ∀ a ∈ l, p a = q a) : l.find? p = l.find? q := by
  rw [← head?_filter, ← head?_filter, filter_congr h]

theorem findSome?_congr_of_mem {f g : α → Option β} (h : ∀ a ∈ l, f a = g a) :
    l.findSome? f = l.findSome? g := by
  induction l with
  | nil => rfl
  | cons a rest ih =>
    rw [findSome?_cons, findSome?_cons, h a mem_cons_self,
      ih fun c hc ↦ h c (mem_cons_of_mem a hc)]

theorem mapM_congr_of_mem {f g : α → Option β} (h : ∀ a ∈ l, f a = g a) : l.mapM f = l.mapM g := by
  induction l with
  | nil => rfl
  | cons a rest ih =>
    rw [mapM_cons, mapM_cons, h a mem_cons_self,
      ih fun c hc ↦ h c (mem_cons_of_mem a hc)]

end Lists

/-- A node but for its findings, which no pass reads. -/
def Node.silent (data : Node) : Node := { data with findings := [] }

namespace Tree

/-- The second tree is padded but for its scopes. -/
structure Inset (b s : Tree) : Prop where
  rooted : b.Rooted
  linked : s.Linked
  size_le : b.size ≤ s.size
  node_eq : ∀ {n : NodeId}, b.Has n → (s.node n).silent.unscoped = (b.node n).silent.unscoped
  extra_type : ∀ {n : NodeId}, ¬b.Has n → s.Has n → (s.kind n).IsType

structure Padded (b s : Tree) : Prop extends Inset b s where
  scopes_eq : s.scopes = b.scopes
  scopeOf_eq : ∀ n, s.scopeOf n = b.scopeOf n

namespace Inset

variable {b s : Tree} {n a : NodeId}

theorem refl (hb : b.Rooted) : Inset b b where
  rooted := hb
  linked := hb.toLinked
  size_le := Nat.le_refl _
  node_eq _ := rfl
  extra_type hn hn' := absurd hn' hn

/-! ## One node -/

variable (h : Inset b s)

include h

theorem base : b.Linked := h.rooted.toLinked

theorem has (hn : b.Has n) : s.Has n := Nat.lt_of_lt_of_le hn h.size_le

theorem kind_eq (hn : b.Has n) : s.kind n = b.kind n := by
  have heq := congrArg Node.kind (h.node_eq hn)
  exact heq

theorem slots_eq (hn : b.Has n) : s.slots n = b.slots n := by
  have heq := congrArg Node.slots (h.node_eq hn)
  exact heq

theorem parent_eq (hn : b.Has n) : s.parent n = b.parent n := by
  have heq := congrArg Node.parent (h.node_eq hn)
  exact heq

theorem child_eq (hn : b.Has n) (i : Nat) : s.child n i = b.child n i := by
  unfold child
  rw [h.slots_eq hn]

theorem children_eq (hn : b.Has n) : s.children n = b.children n := by
  unfold children
  rw [h.slots_eq hn]

theorem extra_kind (hn : ¬b.Has n) :
    s.kind n = .root ∨ (∃ data, s.kind n = .type data) ∨ ∃ q, s.kind n = .qualified q := by
  by_cases hs : s.Has n
  · have hextra := h.extra_type hn hs
    cases hkind : s.kind n with
    | type data => exact .inr (.inl ⟨data, rfl⟩)
    | qualified q => exact .inr (.inr ⟨q, rfl⟩)
    | _ => simp [hkind, NodeKind.IsType, category] at hextra
  · exact .inl (kind_of_not_has hs)

/-- A question about kinds that does not tell types from what is missing has the same answer for
every number, wherever that comes from. -/
theorem kind_congr {α : Type} (n : NodeId) (f : NodeKind → α)
    (htype : ∀ data, f (.type data) = f .root) (hqualified : ∀ q, f (.qualified q) = f .root) :
    f (s.kind n) = f (b.kind n) := by
  by_cases hn : b.Has n
  · rw [h.kind_eq hn]
  · rw [kind_of_not_has hn]
    rcases h.extra_kind hn with hkind | ⟨data, hkind⟩ | ⟨q, hkind⟩
    · rw [hkind]
    · rw [hkind, htype]
    · rw [hkind, hqualified]

theorem declaration?_eq (n : NodeId) : s.declaration? n = b.declaration? n :=
  h.kind_congr n NodeKind.declaration? (fun _ ↦ rfl) fun _ ↦ rfl

theorem item?_eq (n : NodeId) : (s.kind n).item? = (b.kind n).item? :=
  h.kind_congr n item? (fun _ ↦ rfl) fun _ ↦ rfl

theorem isFunction_eq (n : NodeId) : (s.kind n).isFunction = (b.kind n).isFunction :=
  h.kind_congr n isFunction (fun _ ↦ rfl) fun _ ↦ rfl

theorem isTypeDeclaration_eq (n : NodeId) :
    (s.kind n).isTypeDeclaration = (b.kind n).isTypeDeclaration :=
  h.kind_congr n isTypeDeclaration (fun _ ↦ rfl) fun _ ↦ rfl

theorem childrenFrom_eq (hn : b.Has n) (start : Nat) (category : NodeCategory) :
    s.childrenFrom n start category = b.childrenFrom n start category := by
  unfold childrenFrom
  rw [h.slots_eq hn]
  refine filter_congr fun c hc ↦ ?_
  obtain ⟨slot, hslot, hsome⟩ := mem_filterMap.1 hc
  cases hsome
  rw [h.kind_eq (h.base.has_of_held (mem_of_mem_drop hslot))]

theorem slotIndex_eq (hn : b.Has n) : s.slotIndex n = b.slotIndex n := by
  unfold slotIndex
  rw [h.parent_eq hn]
  refine Option.bind_congr fun p hp ↦ ?_
  rw [h.slots_eq (h.base.has_parent hp)]

/-- What the base does not hold, no node of the base holds in the padded tree either. -/
theorem not_has_of_held (hn : ¬b.Has n) {c : NodeId} (hc : some c ∈ s.slots n) : ¬b.Has c := by
  intro hhas
  have hparent := h.linked.parent_of_held hc
  rw [h.parent_eq hhas] at hparent
  exact hn (h.base.has_parent hparent)

/-! ## Paths and orders -/

theorem chain_eq (hn : b.Has n) (fuel : Nat) :
    s.chain fuel (s.parent n) = b.chain fuel (b.parent n) := by
  induction fuel generalizing n with
  | zero =>
    rw [h.parent_eq hn]
    cases b.parent n <;> rfl
  | succ fuel ih =>
    rw [h.parent_eq hn]
    cases hp : b.parent n with
    | none => rfl
    | some p => rw [chain, chain, ih (h.base.has_parent hp)]

theorem ancestors_eq (hn : b.Has n) : s.ancestors n = b.ancestors n := by
  unfold ancestors
  rw [h.chain_eq hn]
  exact h.rooted.chain_eq_ancestors h.size_le

theorem findAncestor_eq (hn : b.Has n) (p : NodeKind → Bool) :
    s.findAncestor n p = b.findAncestor n p := by
  unfold findAncestor
  rw [h.ancestors_eq hn]
  refine find?_congr_of_mem fun m hm ↦ ?_
  rw [h.kind_eq (h.rooted.has_of_mem_ancestors hm)]

theorem isWithin_eq (hn : b.Has n) (a : NodeId) : s.isWithin n a = b.isWithin n a := by
  unfold isWithin
  rw [h.ancestors_eq hn]

theorem isAttached_eq (hn : b.Has n) : s.isAttached n = b.isAttached n :=
  h.isWithin_eq hn root

theorem ordered_eq (hn : b.Has n) (order : Order) : s.ordered order n = b.ordered order n := by
  have hstep : ∀ fuel fuel' n, b.Has n →
      (∀ c, some c ∈ b.slots n → (s.orderWithin order fuel · c) = (b.orderWithin order fuel' · c)) →
        (s.orderWithin order (fuel + 1) · n) = (b.orderWithin order (fuel' + 1) · n) := by
    intro fuel fuel' n hn hchildren
    funext depth
    rw [orderWithin_succ, orderWithin_succ, h.children_eq hn]
    congr 1
    exact flatMap_congr fun c hc ↦ congrFun (hchildren c (mem_children.1 hc)) (depth + 1)
  rw [ordered_eq_map, ordered_eq_map]
  exact congrArg (List.map Prod.fst)
    (congrFun (h.rooted.eq_of_descent hstep hn h.size_le (Nat.le_refl _)) 0)

theorem subtree_eq (hn : b.Has n) : s.subtree n = b.subtree n :=
  h.ordered_eq hn .pre

/-- What is beneath the root of a padding is of the base. -/
theorem within_iff (hs : s.Rooted) : s.Within root n ↔ b.Within root n := by
  constructor
  · intro hwithin
    have hmem := hs.mem_ordered .post (hwithin.has hs.has_root) hwithin
    rw [h.ordered_eq h.rooted.has_root] at hmem
    have hn := h.base.has_of_mem_ordered h.rooted.has_root .post hmem
    rw [← hs.isWithin_iff, h.isWithin_eq hn, h.rooted.isWithin_iff] at hwithin
    exact hwithin
  · intro hwithin
    have hn := hwithin.has h.rooted.has_root
    rw [← h.rooted.isWithin_iff, ← h.isWithin_eq hn] at hwithin
    exact hs.isWithin_iff.1 hwithin

/-! ## Links -/

theorem linkTo_eq (n : NodeId) : s.linkTo n = b.linkTo n := by
  unfold linkTo
  rw [h.declaration?_eq]

theorem linkTarget_eq (link : Link) : s.linkTarget link = b.linkTarget link := by
  unfold linkTarget
  by_cases hn : b.Has link.node
  · have hlt : link.node.index < b.size := hn
    have hlt' : link.node.index < s.size := h.has hn
    rw [if_pos hlt, if_pos hlt', h.kind_eq hn, h.isAttached_eq hn]
  · have hle : ¬link.node.index < b.size := hn
    rw [if_neg hle]
    rcases h.extra_kind hn with hkind | ⟨data, hkind⟩ | ⟨q, hkind⟩ <;> simp [hkind]

end Inset

namespace Padded

variable {b s : Tree}

theorem refl (hb : b.Rooted) : Padded b b := ⟨.refl hb, rfl, fun _ ↦ rfl⟩

theorem scope_eq (h : Padded b s) (number : ScopeId) : s.scope number = b.scope number := by
  unfold scope
  rw [h.scopes_eq]

end Padded

/-- Two paddings of one base, but for scopes. -/
structure Twin (b s s' : Tree) : Prop where
  left : Inset b s
  right : Inset b s'

/-- Two paddings of one base, the second at least as large. -/
structure Later (b s s' : Tree) : Prop where
  left : Padded b s
  right : Padded b s'
  size_le : s.size ≤ s'.size

section

variable {b s s' : Tree}

theorem Twin.refl (hb : b.Rooted) : Twin b b b := ⟨.refl hb, .refl hb⟩

theorem Twin.symm (h : Twin b s s') : Twin b s' s := ⟨h.right, h.left⟩

theorem Twin.base (h : Twin b s s') : b.Linked := h.left.base

theorem Later.base (h : Later b s s') : b.Linked := h.left.base

theorem Later.toTwin (h : Later b s s') : Twin b s s' := ⟨h.left.toInset, h.right.toInset⟩

end

end Tree

end ProtocolIR
