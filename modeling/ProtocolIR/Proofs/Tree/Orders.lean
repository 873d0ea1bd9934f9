import ProtocolIR.Proofs.Pass.Step

/-!
# Orders

The slots of a coherent tree and its parent fields describe the same subtrees. An order that goes
down from a node lists exactly the nodes that have it on their way up, once each and with the number
of steps up. Going down with a stack lists the nodes in the order of the recursion.

Only the nodes of a tree have slots and parents, so whether it is coherent is a question about finitely
many nodes. The way up from a node ends if it is shorter than the tree is large.
-/

namespace ProtocolIR.Tree

open List

variable {t : Tree} {n r : NodeId} {depth : Nat} {order : Order} {l : List (NodeId × Nat)}

/-! ## Deciding coherence -/

/-- What a node holds has it as parent, and its own parent holds it once. -/
def LinkedAt (t : Tree) (n : NodeId) : Prop :=
  (∀ c ∈ t.children n, t.parent c = some n) ∧
    ∀ p ∈ (t.parent n).toList, (t.slots p).count (some n) = 1

instance : Decidable (t.LinkedAt n) := inferInstanceAs (Decidable (_ ∧ _))

theorem linked_iff : t.Linked ↔ ∀ i < t.size, t.LinkedAt ⟨i⟩ := by
  constructor
  · intro ht i _
    refine ⟨fun c hc ↦ ht.parent_of_held (mem_children.1 hc), fun p hp ↦ ?_⟩
    exact ht.held_once (Option.mem_toList.1 hp)
  · intro h
    refine ⟨fun {p c} hc ↦ ?_, fun {p c} hp ↦ ?_⟩
    · have hhas : t.Has p := by
        by_contra hnot
        rw [slots_of_not_has hnot] at hc
        cases hc
      exact (h p.index hhas).1 c (mem_children.2 hc)
    · exact (h c.index (has_of_parent hp)).2 p (Option.mem_toList.2 hp)

theorem grounded_of_chain {fuel : Nat} (h : (t.chain fuel (t.parent n)).length < fuel) :
    t.Grounded n := by
  induction fuel generalizing n with
  | zero => cases h
  | succ fuel ih =>
    cases hp : t.parent n with
    | none => exact .top hp
    | some p =>
      rw [hp, chain, List.length_cons] at h
      exact .beneath hp (ih (Nat.lt_of_succ_lt_succ h))

theorem coherent_iff :
    t.Coherent ↔ t.Linked ∧ ∀ i < t.size, (t.ancestors ⟨i⟩).length < t.size := by
  constructor
  · exact fun ht ↦ ⟨ht.toLinked, fun i hi ↦ ht.length_ancestors_lt hi⟩
  · rintro ⟨ht, h⟩
    refine ⟨ht, fun n ↦ ?_⟩
    by_cases hn : t.Has n
    · exact grounded_of_chain (h n.index hn)
    · exact .top (parent_of_not_has hn)

instance : Decidable t.Rooted :=
  decidable_of_iff (((∀ i < t.size, t.LinkedAt ⟨i⟩) ∧ ∀ i < t.size, (t.ancestors ⟨i⟩).length < t.size) ∧
      t.Has root ∧ t.kind root = .root) <| by
    rw [← linked_iff, ← coherent_iff]
    exact ⟨fun ⟨ht, hhas, hkind⟩ ↦ ⟨ht, hhas, hkind⟩, fun ht ↦ ⟨ht.toCoherent, ht.has_root, ht.kind_root⟩⟩

/-! ## Listing nodes -/

/-- The node on top of a stack is listed, and its children take its place, the first one on top. -/
inductive Unstacks (t : Tree) : List (NodeId × Nat) → List (NodeId × Nat) → Prop
  | done : Unstacks t [] []
  | pop {n : NodeId} {depth : Nat} {stack listed : List (NodeId × Nat)} :
    Unstacks t ((t.children n).map (·, depth + 1) ++ stack) listed →
      Unstacks t ((n, depth) :: stack) ((n, depth) :: listed)

/-- What a stack lists before it comes to the nodes below the top one. -/
theorem Walks.unstacks (h : t.Walks .pre depth n l) {stack listed : List (NodeId × Nat)}
    (hstack : t.Unstacks stack listed) : t.Unstacks ((n, depth) :: stack) (l ++ listed) := by
  induction h generalizing stack listed with
  | @node depth n part _ ih =>
    refine .pop ?_
    show t.Unstacks _ ((t.children n).flatMap part ++ listed)
    generalize t.children n = children at ih ⊢
    induction children with
    | nil => exact hstack
    | cons c children ihc =>
      simp only [map_cons, cons_append, flatMap_cons, append_assoc]
      exact ih c mem_cons_self (ihc fun d hd ↦ ih d (mem_cons_of_mem c hd))

namespace Coherent

variable (ht : t.Coherent)

include ht

/-- The way up from a node leads to one place at each distance, so no two children of a node list
the same node, and none lists the node itself. -/
theorem nodup_of_walks (h : t.Walks order depth n l) : (l.map Prod.fst).Nodup := by
  induction h with
  | @node depth n part hparts ih =>
    have hway : ∀ {c}, c ∈ t.children n → ∀ {m}, m ∈ (part c).map Prod.fst →
        ∃ k, (m :: t.ancestors m)[k]? = some c ∧ (m :: t.ancestors m)[k + 1]? = some n := by
      intro c hc m hm
      obtain ⟨⟨m, d⟩, hmem, rfl⟩ := List.mem_map.1 hm
      obtain ⟨k, hk, -⟩ := (ht.mem_of_walks (hparts c hc)).1 hmem
      exact ⟨k, hk, by rw [ht.way_succ, hk]; exact ht.parent_of_held (mem_children.1 hc)⟩
    have hunique : ∀ {m i j a}, (m :: t.ancestors m)[i]? = some a → (m :: t.ancestors m)[j]? = some a → i = j :=
      fun {m i j a} hi hj ↦ (getElem?_inj (List.getElem?_eq_some_iff.1 hi).1
        (ht.nodup_way m)).1 (hi.trans hj.symm)
    rw [((order.perm_join _ _).map Prod.fst).nodup_iff, map_cons, nodup_cons, map_flatMap]
    refine ⟨fun hself ↦ ?_, nodup_flatMap.2 ⟨ih, ?_⟩⟩
    · obtain ⟨c, hc, hmem⟩ := mem_flatMap.1 hself
      obtain ⟨k, -, hk⟩ := hway hc hmem
      exact absurd (hunique (j := 0) hk rfl) (Nat.succ_ne_zero k)
    · refine (ht.nodup_children n).pairwise_of_forall_ne fun c hc d hd hne m hmc hmd ↦ hne ?_
      obtain ⟨i, hi, hni⟩ := hway hc hmc
      obtain ⟨j, hj, hnj⟩ := hway hd hmd
      cases hunique hni hnj
      exact Option.some.inj (hi.symm.trans hj)

end Coherent

/-- Both orders list what is within a node, each node once and with the number of steps up to it, and
they go down as the recursion does, the one of them with a stack. -/
theorem orders_of_coherent (ht : t.Coherent) (hr : t.Has r) :
    t.Unstacks [(r, 0)] (t.preOrder r) ∧ t.Walks .pre 0 r (t.preOrder r) ∧
      t.Walks .post 0 r (t.postOrder r) ∧ (t.postOrder r).Perm (t.preOrder r) ∧
      ((t.preOrder r).map Prod.fst).Nodup ∧
      (∀ n, t.isWithin n r = true ↔ ∃ d, (n, d) ∈ t.preOrder r) ∧
      ∀ n d, (n, d) ∈ t.preOrder r ↔ (n :: t.ancestors n)[d]? = some r := by
  have hpre := ht.walks_orderWithin .pre 0 hr
  have hpost := ht.walks_orderWithin .post 0 hr
  have hmem : ∀ {order l}, t.Walks order 0 r l → ∀ n d, (n, d) ∈ l ↔ (n :: t.ancestors n)[d]? = some r := by
    intro order l hl n d
    rw [ht.mem_of_walks hl]
    constructor
    · rintro ⟨k, hk, rfl⟩
      rwa [Nat.zero_add]
    · exact fun hd ↦ ⟨d, hd, (Nat.zero_add d).symm⟩
  have hnodup := ht.nodup_of_walks hpre
  refine ⟨(append_nil (t.preOrder r)) ▸ hpre.unstacks .done, hpre, hpost, ?_, hnodup,
    fun n ↦ ?_, hmem hpre⟩
  · refine (perm_ext_iff_of_nodup (.of_map _ (ht.nodup_of_walks hpost)) (.of_map _ hnodup)).2 ?_
    exact fun ⟨n, d⟩ ↦ (hmem hpost n d).trans (hmem hpre n d).symm
  · rw [ht.isWithin_iff, ← ht.mem_way_iff, mem_iff_getElem?]
    exact exists_congr fun d ↦ (hmem hpre n d).symm

/-- A block with two blocks and an empty slot between them, the second of which holds a third. -/
def forkedBlocks : Tree := .ofRows [
  (.root, [1]),
  (.statement .block, [4, 0, 2]),
  (.statement .block, [3]),
  (.statement .block, []),
  (.statement .block, [])]

theorem orders_of_coherent_forkedBlocks :
    forkedBlocks.preOrder ⟨1⟩ = [(⟨1⟩, 0), (⟨4⟩, 1), (⟨2⟩, 1), (⟨3⟩, 2)] ∧
      forkedBlocks.Walks .post 0 ⟨1⟩ [(⟨4⟩, 1), (⟨3⟩, 2), (⟨2⟩, 1), (⟨1⟩, 0)] := by
  have ht : forkedBlocks.Coherent := coherent_iff.2 ⟨linked_iff.2 (by decide), by decide⟩
  exact ⟨by decide, (orders_of_coherent ht (r := ⟨1⟩) (by decide)).2.2.1⟩

end ProtocolIR.Tree
