import Mathlib.Data.Finset.Card
import Mathlib.Data.Finset.Image
import ProtocolIR.Proofs.Tree.Coherence

/-!
# Paths

In a coherent tree the way up from a node meets no node twice, so it is shorter than the tree has
nodes. The bounds of the recursions up and down a tree are therefore never met: with any larger
bound they give the same lists.
-/

namespace ProtocolIR

open List

/-- Where an order puts a node with what it lists beneath it. -/
def Order.join : Order → NodeId × Nat → List (NodeId × Nat) → List (NodeId × Nat)
  | .pre, entry, rest => entry :: rest
  | .post, entry, rest => rest ++ [entry]

theorem Order.perm_join (order : Order) (entry : NodeId × Nat) (rest : List (NodeId × Nat)) :
    (order.join entry rest).Perm (entry :: rest) := by
  cases order with
  | pre => exact .refl _
  | post => exact perm_append_singleton entry rest

namespace Tree

variable {t : Tree} {a n p : NodeId}

/-! ## The nodes of a tree -/

def present (t : Tree) : Finset NodeId := (Finset.range t.size).image NodeId.mk

@[simp] theorem mem_present : n ∈ t.present ↔ t.Has n := by
  unfold present Has
  rw [Finset.mem_image]
  constructor
  · rintro ⟨i, hi, rfl⟩
    exact Finset.mem_range.1 hi
  · intro hn
    exact ⟨n.index, Finset.mem_range.2 hn, rfl⟩

theorem card_present_le (t : Tree) : t.present.card ≤ t.size := by
  calc t.present.card ≤ (Finset.range t.size).card := Finset.card_image_le
    _ = t.size := Finset.card_range _

theorem length_le_size {path : List NodeId} (hnodup : path.Nodup) (hpath : ∀ m ∈ path, t.Has m) :
    path.length ≤ t.size := by
  calc path.length = path.toFinset.card := (toFinset_card_of_nodup hnodup).symm
    _ ≤ t.present.card := by
      apply Finset.card_le_card
      intro m hm
      exact mem_present.2 (hpath m (mem_toFinset.1 hm))
    _ ≤ t.size := card_present_le t

/-! ## The way up -/

theorem Within.has (h : t.Within a n) (ha : t.Has a) : t.Has n := by
  cases h with
  | here => exact ha
  | beneath hp _ => exact has_of_parent hp

/-- What lies beneath a node is the node or lies beneath one of its children. -/
theorem Within.eq_or_beneath (ht : t.Linked) (h : t.Within a n) :
    n = a ∨ ∃ c, some c ∈ t.slots a ∧ t.Within c n := by
  induction h with
  | here => exact .inl rfl
  | @beneath n p hp _ ih =>
    rcases ih with rfl | ⟨c, hc, hcp⟩
    · exact .inr ⟨n, ht.held hp, .here⟩
    · exact .inr ⟨c, hc, .beneath hp hcp⟩

theorem Linked.has_above (ht : t.Linked) (hp : t.parent n = some p) (h : t.Within a p) : t.Has a := by
  induction h generalizing n with
  | here => exact ht.has_parent hp
  | beneath hq _ ih => exact ih hq

/-- The way up from a node, cut off where the fuel ends. -/
theorem Grounded.exists_path (h : t.Grounded n) :
    ∃ path : List NodeId, path.Nodup ∧ (∀ fuel, t.chain fuel (t.parent n) = path.take fuel) ∧
      ∀ a, a ∈ path ↔ ∃ p, t.parent n = some p ∧ t.Within a p := by
  induction h with
  | top hp =>
    refine ⟨[], nodup_nil, fun fuel ↦ ?_, fun a ↦ ?_⟩
    · rw [hp]
      simp [chain]
    · simp [hp]
  | @beneath n p hp hground ih =>
    obtain ⟨path, hnodup, hchain, hmem⟩ := ih
    have hself : p ∉ path := by
      intro hin
      obtain ⟨q, hq, hwithin⟩ := (hmem p).1 hin
      exact hground.not_within hq hwithin
    refine ⟨p :: path, nodup_cons.2 ⟨hself, hnodup⟩, fun fuel ↦ ?_, fun a ↦ ?_⟩
    · rw [hp]
      cases fuel with
      | zero => rfl
      | succ fuel => rw [chain, hchain, take_succ_cons]
    · rw [mem_cons, hmem, hp]
      constructor
      · rintro (rfl | ⟨q, hq, hwithin⟩)
        · exact ⟨a, rfl, .here⟩
        · exact ⟨p, rfl, .beneath hq hwithin⟩
      · rintro ⟨q, hq, hwithin⟩
        cases hq
        cases hwithin with
        | here => exact .inl rfl
        | beneath hq hwithin => exact .inr ⟨_, hq, hwithin⟩

def orderWithin (t : Tree) : Order → Nat → Nat → NodeId → List (NodeId × Nat)
  | .pre => t.preOrderWithin
  | .post => t.postOrderWithin

theorem orderWithin_succ (order : Order) (fuel depth : Nat) (n : NodeId) :
    t.orderWithin order (fuel + 1) depth n =
      order.join (n, depth) ((t.children n).flatMap (t.orderWithin order fuel (depth + 1))) := by
  cases order <;> rfl

/-- A node with what its children list from left to right. -/
inductive Walks (t : Tree) (order : Order) : Nat → NodeId → List (NodeId × Nat) → Prop
  | node {depth : Nat} {n : NodeId} (part : NodeId → List (NodeId × Nat))
    (h : ∀ c ∈ t.children n, Walks t order (depth + 1) c (part c)) :
    Walks t order depth n (order.join (n, depth) ((t.children n).flatMap part))

theorem ordered_eq_map (t : Tree) (order : Order) (n : NodeId) :
    t.ordered order n = (t.orderWithin order t.size 0 n).map Prod.fst := by
  cases order <;> rfl

/-- What holds of a node and of whatever such a node holds, holds of all nodes that an order
lists. -/
theorem of_mem_ordered {p : NodeId → Prop} (hchild : ∀ {m c}, p m → some c ∈ t.slots m → p c)
    (hn : p n) (order : Order) {m : NodeId} (h : m ∈ t.ordered order n) : p m := by
  rw [ordered_eq_map] at h
  obtain ⟨entry, hentry, rfl⟩ := mem_map.1 h
  have hall : ∀ fuel depth n, p n → entry ∈ t.orderWithin order fuel depth n → p entry.1 := by
    intro fuel
    induction fuel with
    | zero =>
      intro _ _ _ hmem
      cases order <;> cases hmem
    | succ fuel ih =>
      intro depth n hn hmem
      rw [orderWithin_succ, (order.perm_join _ _).mem_iff] at hmem
      rcases mem_cons.1 hmem with rfl | hmem
      · exact hn
      · obtain ⟨c, hc, hmem⟩ := mem_flatMap.1 hmem
        exact ih _ _ (hchild hn (mem_children.1 hc)) hmem
  exact hall _ _ n hn hentry

namespace Linked

theorem has_of_mem_ordered (ht : t.Linked) (hn : t.Has n) (order : Order) {m : NodeId}
    (h : m ∈ t.ordered order n) : t.Has m :=
  of_mem_ordered (fun _ hc ↦ ht.has_of_held hc) hn order h

theorem within_of_mem_ordered (ht : t.Linked) (order : Order) {m : NodeId} (h : m ∈ t.ordered order n) :
    t.Within n m := of_mem_ordered (fun hm hc ↦ .beneath (ht.parent_of_held hc) hm) .here order h

end Linked

namespace Coherent

variable {fuel : Nat}

variable (ht : t.Coherent)

include ht

/-- The ancestors of a node are all nodes above it, without repetition, and no bound that is at
least the size cuts them off. -/
theorem ancestors_spec (n : NodeId) :
    (t.ancestors n).Nodup ∧ (∀ fuel ≥ t.size, t.chain fuel (t.parent n) = t.ancestors n) ∧
      ∀ a, a ∈ t.ancestors n ↔ ∃ p, t.parent n = some p ∧ t.Within a p := by
  obtain ⟨path, hnodup, hchain, hmem⟩ := (ht.grounded n).exists_path
  have hpath : ∀ a ∈ path, t.Has a := by
    intro a ha
    obtain ⟨p, hp, hwithin⟩ := (hmem a).1 ha
    exact ht.has_above hp hwithin
  have hlength := length_le_size hnodup hpath
  have hancestors : t.ancestors n = path := by
    unfold ancestors
    rw [hchain, take_of_length_le hlength]
  refine ⟨hancestors ▸ hnodup, fun fuel hfuel ↦ ?_, hancestors ▸ hmem⟩
  rw [hchain, hancestors, take_of_length_le (Nat.le_trans hlength hfuel)]

theorem nodup_ancestors (n : NodeId) : (t.ancestors n).Nodup :=
  (ht.ancestors_spec n).1

theorem chain_eq_ancestors (hfuel : t.size ≤ fuel) : t.chain fuel (t.parent n) = t.ancestors n :=
  (ht.ancestors_spec n).2.1 fuel hfuel

theorem mem_ancestors_iff : a ∈ t.ancestors n ↔ ∃ p, t.parent n = some p ∧ t.Within a p :=
  (ht.ancestors_spec n).2.2 a

theorem has_of_mem_ancestors (h : a ∈ t.ancestors n) : t.Has a := by
  obtain ⟨p, hp, hwithin⟩ := ht.mem_ancestors_iff.1 h
  exact ht.has_above hp hwithin

theorem ancestors_of_parent (hp : t.parent n = some p) : t.ancestors n = p :: t.ancestors p := by
  calc t.ancestors n = t.chain (t.size + 1) (t.parent n) :=
        (ht.chain_eq_ancestors (Nat.le_succ _)).symm
    _ = p :: t.ancestors p := by rw [hp]; rfl

theorem mem_way_iff : a ∈ n :: t.ancestors n ↔ t.Within a n := by
  rw [mem_cons, ht.mem_ancestors_iff]
  constructor
  · rintro (rfl | ⟨p, hp, hwithin⟩)
    · exact .here
    · exact .beneath hp hwithin
  · intro hwithin
    cases hwithin with
    | here => exact .inl rfl
    | beneath hp hwithin => exact .inr ⟨_, hp, hwithin⟩

theorem isWithin_iff : t.isWithin n a = true ↔ t.Within a n := by
  unfold isWithin
  rw [Bool.or_eq_true_iff, beq_iff_eq, contains_iff_mem, ← ht.mem_way_iff, mem_cons, eq_comm]

/-- One step further on the way up. -/
theorem way_succ (n : NodeId) (k : Nat) :
    (n :: t.ancestors n)[k + 1]? = (n :: t.ancestors n)[k]?.bind t.parent := by
  induction k generalizing n with
  | zero =>
    cases hp : t.parent n with
    | none =>
      unfold ancestors
      rw [hp]
      cases t.size <;> simp [chain, hp]
    | some p => simp [ht.ancestors_of_parent hp, hp]
  | succ k ih =>
    cases hp : t.parent n with
    | none =>
      unfold ancestors
      rw [hp]
      cases t.size <;> simp [chain]
    | some p => simpa [ht.ancestors_of_parent hp] using ih p

/-- No node is met twice on the way up. -/
theorem nodup_way (n : NodeId) : (n :: t.ancestors n).Nodup := by
  refine nodup_cons.2 ⟨fun h ↦ ?_, ht.nodup_ancestors n⟩
  obtain ⟨p, hp, hwithin⟩ := ht.mem_ancestors_iff.1 h
  exact (ht.grounded n).not_within hp hwithin

/-- How far a node is from the top. -/
theorem length_ancestors_lt (hn : t.Has n) : (t.ancestors n).length < t.size := by
  have hpath : ∀ m ∈ n :: t.ancestors n, t.Has m := by
    intro m hm
    rcases mem_cons.1 hm with rfl | hm
    · exact hn
    · exact ht.has_of_mem_ancestors hm
  exact length_le_size (ht.nodup_way n) hpath

/-! ## The way down -/

theorem length_ancestors_child {c : NodeId} (hc : some c ∈ t.slots n) :
    (t.ancestors c).length = (t.ancestors n).length + 1 := by
  rw [ht.ancestors_of_parent (ht.parent_of_held hc), length_cons]

/-- What a node has if all that it holds have it, all nodes have. -/
theorem induction_down {p : NodeId → Prop}
    (hstep : ∀ n, t.Has n → (∀ c, some c ∈ t.slots n → p c) → p n) (hn : t.Has n) : p n := by
  have hdown : ∀ k n, t.Has n → t.size ≤ k + (t.ancestors n).length → p n := by
    intro k
    induction k with
    | zero =>
      intro n hn hle
      have hlt := ht.length_ancestors_lt hn
      omega
    | succ k ih =>
      intro n hn hle
      refine hstep n hn fun c hc ↦ ih c (ht.has_of_held hc) ?_
      have hdepth := ht.length_ancestors_child hc
      omega
  exact hdown t.size n hn (Nat.le_add_right _ _)

/-- Two recursions from a node to its children that agree at each level agree, once their bounds
cover the way down. -/
theorem eq_of_descent {α : Type} {f g : Nat → NodeId → α}
    (hstep : ∀ fuel fuel' n, t.Has n → (∀ c, some c ∈ t.slots n → f fuel c = g fuel' c) →
      f (fuel + 1) n = g (fuel' + 1) n)
    {fuel' : Nat} (hn : t.Has n) (hfuel : t.size ≤ fuel) (hfuel' : t.size ≤ fuel') :
    f fuel n = g fuel' n := by
  have hdown : ∀ fuel fuel', t.size ≤ fuel + (t.ancestors n).length →
      t.size ≤ fuel' + (t.ancestors n).length → f fuel n = g fuel' n := by
    refine ht.induction_down (p := fun n ↦ ∀ fuel fuel', t.size ≤ fuel + (t.ancestors n).length →
      t.size ≤ fuel' + (t.ancestors n).length → f fuel n = g fuel' n) ?_ hn
    intro n hn ih fuel fuel' hfuel hfuel'
    have hlt := ht.length_ancestors_lt hn
    obtain ⟨fuel, rfl⟩ : ∃ k, fuel = k + 1 := ⟨fuel - 1, by omega⟩
    obtain ⟨fuel', rfl⟩ : ∃ k, fuel' = k + 1 := ⟨fuel' - 1, by omega⟩
    refine hstep fuel fuel' n hn fun c hc ↦ ?_
    have hdepth := ht.length_ancestors_child hc
    exact ih c hc fuel fuel' (by omega) (by omega)
  exact hdown fuel fuel' (by omega) (by omega)

/-- The bound of an order is never met. -/
theorem walks_orderWithin (order : Order) (depth : Nat) (hn : t.Has n) :
    t.Walks order depth n (t.orderWithin order t.size depth n) := by
  have hsize : ∀ depth n, t.Has n →
      t.orderWithin order t.size depth n = t.orderWithin order (t.size + 1) depth n := by
    intro depth n hn
    refine congrFun (ht.eq_of_descent (f := fun fuel n depth ↦ t.orderWithin order fuel depth n)
      (g := fun fuel n depth ↦ t.orderWithin order fuel depth n) (fun fuel fuel' n _ hchildren ↦ ?_) hn
      (Nat.le_refl _) (Nat.le_succ _)) depth
    funext depth
    rw [orderWithin_succ, orderWithin_succ]
    congr 1
    exact flatMap_congr fun c hc ↦ congrFun (hchildren c (mem_children.1 hc)) (depth + 1)
  revert depth
  refine ht.induction_down (p := fun n ↦ ∀ depth,
    t.Walks order depth n (t.orderWithin order t.size depth n)) (fun n hn ih depth ↦ ?_) hn
  rw [hsize depth n hn, orderWithin_succ]
  exact .node _ fun c hc ↦ ih c (mem_children.1 hc) (depth + 1)

/-- The nodes that are listed are those with the start on their way up, as far up as the depth says. -/
theorem mem_of_walks {order : Order} {depth d : Nat} {m : NodeId} {l : List (NodeId × Nat)}
    (h : t.Walks order depth n l) :
    (m, d) ∈ l ↔ ∃ k, (m :: t.ancestors m)[k]? = some n ∧ d = depth + k := by
  induction h generalizing d with
  | @node depth n part _ ih =>
    rw [(order.perm_join _ _).mem_iff, mem_cons, mem_flatMap]
    constructor
    · rintro (heq | ⟨c, hc, hmem⟩)
      · cases heq
        exact ⟨0, rfl, rfl⟩
      · obtain ⟨k, hk, rfl⟩ := (ih c hc).1 hmem
        refine ⟨k + 1, ?_, by omega⟩
        rw [ht.way_succ, hk]
        exact ht.parent_of_held (mem_children.1 hc)
    · rintro ⟨k, hk, rfl⟩
      cases k with
      | zero => exact .inl (by cases hk; rfl)
      | succ k =>
        rw [ht.way_succ] at hk
        obtain ⟨c, hc, hp⟩ := Option.bind_eq_some_iff.1 hk
        have hmem := mem_children.2 (ht.held hp)
        exact .inr ⟨c, hmem, (ih c hmem).2 ⟨k, hc, by omega⟩⟩

theorem exists_mem_of_walks {order : Order} {depth : Nat} {l : List (NodeId × Nat)}
    (hl : t.Walks order depth a l) (h : t.Within a n) : ∃ d, (n, d) ∈ l := by
  obtain ⟨k, hk⟩ := mem_iff_getElem?.1 (ht.mem_way_iff.2 h)
  exact ⟨depth + k, (ht.mem_of_walks hl).2 ⟨k, hk, rfl⟩⟩

theorem mem_ordered (order : Order) (hn : t.Has n) (h : t.Within a n) : n ∈ t.ordered order a := by
  have ha : t.Has a := by
    cases h with
    | here => exact hn
    | beneath hp h => exact ht.has_above hp h
  obtain ⟨d, hd⟩ := ht.exists_mem_of_walks (ht.walks_orderWithin order 0 ha) h
  rw [ordered_eq_map]
  exact mem_map_of_mem hd

theorem mem_visited (order : Order) (hn : t.Has n) (h : t.Within a n) : n ∈ t.visited order a :=
  mem_filter.2 ⟨ht.mem_ordered order hn h, ht.isWithin_iff.2 h⟩

end Coherent

end Tree

end ProtocolIR
