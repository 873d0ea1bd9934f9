import ProtocolIR.Proofs.Tree.Calls
import ProtocolIR.Proofs.Tree.Orders

/-!
# Which misplaced nodes are refused

A call that places nodes looks at one thing, whether a node that it places has a parent. A node
above the target is refused for that reason unless it is the top of its tree. What is let through
although it is no orderly call leaves a tree that is not coherent: a node that was named twice for a
new node is in two slots, and a top that was placed inside of its own tree is above itself.
-/

namespace ProtocolIR

open List

namespace Tree

variable {t : Tree} {n : NodeId}

theorem exists_setChild_iff {i : Nat} {child : Option NodeId} :
    (∃ t', t.setChild n i child = .ok t') ↔ ∀ c ∈ child.toList, t.parent c = none := by
  constructor
  · rintro ⟨t', h⟩
    exact (setChild_eq_ok_iff.1 h).1
  · exact exists_setChild

theorem exists_replaceChild_iff {old new : NodeId} :
    (∃ t', t.replaceChild n old new = .ok t') ↔ some old ∈ t.slots n ∧ t.parent new = none := by
  constructor
  · rintro ⟨t', h⟩
    obtain ⟨i, hi, hset⟩ := replaceChild_eq_ok h
    have hfree := exists_setChild_iff.1 ⟨t', hset⟩
    exact ⟨mem_slots_of_child hi, hfree new (by simp)⟩
  · rintro ⟨hold, hfree⟩
    unfold Tree.replaceChild
    cases hfind : (t.slots n).findIdx? (· == some old) with
    | none =>
      have habsent := findIdx?_eq_none_iff.1 hfind (some old) hold
      simp at habsent
    | some i => exact exists_setChild_iff.2 (by simpa using hfree)

end Tree

open Tree

namespace Call

/-- A call that puts the nodes it is given into slots. -/
def Places : Call → Prop
  | create .. | setChild .. | addChild .. | replaceChild .. | replaceNode .. => True
  | removeChild .. | removeChildren .. | detach _ | copy _ => False

/-- The nodes that a call puts into slots. -/
def placed : Call → List NodeId
  | create _ slots _ => slots.filterMap id
  | setChild _ _ child | addChild _ child => child.toList
  | replaceChild _ _ new | replaceNode _ new => [new]
  | removeChild .. | removeChildren .. | detach _ | copy _ => []

/-- What a call is to replace is where the call looks for it. -/
def HasPlace (t : Tree) : Call → Prop
  | replaceChild n old _ => some old ∈ t.slots n
  | replaceNode old _ => ∃ p, t.parent old = some p
  | _ => True

variable {t t' : Tree} {call : Call}

/-! ## What the guard lets through -/

theorem unit_eq_ok_iff {x : Except Fault Tree} :
    (∃ t', (do return ((), ← x) : Except Fault (Unit × Tree)) = .ok ((), t')) ↔ ∃ t', x = .ok t' := by
  constructor
  · rintro ⟨t', h⟩
    exact ⟨t', unit_eq_ok h⟩
  · rintro ⟨t', rfl⟩
    exact ⟨t', rfl⟩

/-- A call that places nodes of the tree returns if each of them is free. -/
theorem exists_perform_iff (ht : t.Linked) (hplaces : call.Places) :
    (∃ t', call.perform t = .ok ((), t')) ↔
      call.HasPlace t ∧ ∀ c ∈ call.placed, t.parent c = none := by
  cases call with
  | create kind slots location =>
    simp only [HasPlace, placed, true_and, mem_filterMap, id_eq, exists_eq_right]
    constructor
    · rintro ⟨t', h⟩
      obtain ⟨n, hcreate⟩ := discard_eq_ok h
      exact (create_eq_ok_iff.1 hcreate).1
    · intro hfree
      obtain ⟨t', hcreate⟩ := exists_create kind location hfree
      exact ⟨t', discard_of_ok hcreate⟩
  | setChild n i child =>
    simp only [HasPlace, placed, true_and]
    exact unit_eq_ok_iff.trans exists_setChild_iff
  | addChild n child =>
    simp only [HasPlace, placed, true_and]
    refine unit_eq_ok_iff.trans ⟨?_, exists_addChild⟩
    rintro ⟨t', h⟩
    exact (addChild_eq_ok_iff.1 h).1
  | replaceChild n old new =>
    simp only [HasPlace, placed, mem_singleton, forall_eq]
    exact unit_eq_ok_iff.trans exists_replaceChild_iff
  | replaceNode old new =>
    simp only [HasPlace, placed, mem_singleton, forall_eq]
    refine unit_eq_ok_iff.trans ?_
    unfold Tree.replaceNode
    cases hp : t.parent old with
    | none => simp
    | some p =>
      have hplace : (∃ t', t.replaceChild p old new = .ok t') ↔ some old ∈ t.slots p ∧ t.parent new = none :=
        exists_replaceChild_iff
      simpa [ht.held hp] using hplace
  | _ => exact absurd hplaces id

/-- A call that places nodes fails for one of three reasons: a node it names is not there, what it is
to replace is in no such place, or a node it places has a parent. -/
theorem run_fails_iff (ht : t.Linked) (hplaces : call.Places) :
    (∃ f, call.run t = .error f) ↔
      (∃ n ∈ call.nodes, ¬t.Has n) ∨ ¬call.HasPlace t ∨ ∃ c ∈ call.placed, ∃ p, t.parent c = some p := by
  unfold run
  split
  next hhas =>
    have hperform := exists_perform_iff ht hplaces
    have hthere : ¬∃ n ∈ call.nodes, ¬t.Has n := fun ⟨n, hn, hnot⟩ ↦ hnot (hhas n hn)
    have hfree : (∃ c ∈ call.placed, ∃ p, t.parent c = some p) ↔
        ¬∀ c ∈ call.placed, t.parent c = none := by
      simp [Option.ne_none_iff_exists']
    rw [hfree, ← not_and_or, ← hperform, or_iff_right hthere]
    cases call.perform t with
    | error f => simp
    | ok r => exact iff_of_false (by simp) fun h ↦ h ⟨r.2, rfl⟩
  next hhas =>
    refine iff_of_true ⟨_, rfl⟩ (.inl ?_)
    simpa using hhas

/-! ## What is left of what is let through -/

/-- A new node whose children are not different holds one of them twice. -/
theorem not_linked_of_create {kind : NodeKind} {slots : List (Option NodeId)}
    {location : Option Location} {n : NodeId} (h : t.create kind slots location = .ok (n, t'))
    (hhas : ∀ c, some c ∈ slots → t.Has c) (hdup : ¬(slots.filterMap id).Nodup) : ¬t'.Linked := by
  intro ht'
  have hself : some n ∉ slots := fun hn ↦ not_has_create h (hhas n hn)
  have hslots : t'.slots n = slots := by
    unfold Tree.slots
    rw [node_create_self h hself]
  have honce := ht'.nodup_children n
  unfold Tree.children at honce
  rw [hslots] at honce
  exact hdup honce

theorem not_coherent_of_not_distinct (hdup : ¬call.Distinct) (h : call.run t = .ok ((), t')) :
    ¬t'.Coherent := by
  obtain ⟨hhas, hperform⟩ := run_eq_ok h
  cases call with
  | create kind slots location =>
    obtain ⟨n, hcreate⟩ := discard_eq_ok hperform
    have hchild : ∀ c, some c ∈ slots → t.Has c := fun c hc ↦ hhas c (by simpa [nodes] using hc)
    exact fun ht' ↦ not_linked_of_create hcreate hchild hdup ht'.toLinked
  | _ => exact absurd trivial hdup

theorem coherent_iff_orderly (ht : t.Coherent) (h : call.run t = .ok ((), t')) :
    t'.Coherent ↔ call.Orderly t := by
  by_cases hdistinct : call.Distinct
  · rw [coherent_iff_of_run ht hdistinct h]
    exact ⟨fun horder ↦ ⟨hdistinct, horder⟩, And.right⟩
  · exact iff_of_false (not_coherent_of_not_distinct hdistinct h) fun horderly ↦ hdistinct horderly.1

end Call

/-- In a coherent tree, a call that places nodes is refused exactly if a node it names is missing,
what it is to replace is in no such place, or a node it places has a parent. So of the nodes at or
above its target it refuses all but the one without a parent. What it makes of a call that it does
not refuse is coherent exactly if the placed nodes are different and neither the target nor above it. -/
theorem placing_refused_iff (t : Tree) (call : Call) (ht : t.Coherent) (hplaces : call.Places) :
    ((∃ f, call.run t = .error f) ↔
      (∃ n ∈ call.nodes, ¬t.Has n) ∨ ¬call.HasPlace t ∨
        ∃ c ∈ call.placed, ∃ p, t.parent c = some p) ∧
    ∀ t', call.run t = .ok ((), t') → (t'.Coherent ↔ call.Orderly t) :=
  ⟨Call.run_fails_iff ht.toLinked hplaces, fun _ h ↦ Call.coherent_iff_orderly ht h⟩

/-- A block beneath the root that holds a block, and a block beside them. -/
def nestedBlocks : Tree := .ofRows [
  (.root, [2]),
  (.statement .block, []),
  (.statement .block, [1]),
  (.statement .block, [])]

theorem coherent_nestedBlocks : nestedBlocks.Coherent :=
  coherent_iff.2 ⟨linked_iff.2 (by decide), by decide⟩

/-- The inner block does not take the outer one, which has a parent, but it takes the root, and then
the tree is not coherent. -/
theorem placing_refused_iff_nestedBlocks :
    (∃ f, (Call.setChild ⟨1⟩ 0 (some ⟨2⟩)).run nestedBlocks = .error f) ∧
      ∃ t', (Call.setChild ⟨1⟩ 0 (some root)).run nestedBlocks = .ok ((), t') ∧ ¬t'.Coherent := by
  have hrefused := placing_refused_iff nestedBlocks (.setChild ⟨1⟩ 0 (some ⟨2⟩)) coherent_nestedBlocks trivial
  have htaken := placing_refused_iff nestedBlocks (.setChild ⟨1⟩ 0 (some root)) coherent_nestedBlocks trivial
  refine ⟨hrefused.1.2 (.inr (.inr ⟨⟨2⟩, by decide, root, rfl⟩)), _, rfl, fun hcoherent ↦ ?_⟩
  have horder := ((htaken.2 _ rfl).1 hcoherent).2
  exact horder ⟨1⟩ root rfl (.beneath (p := ⟨2⟩) rfl (.beneath (p := root) rfl .here))

/-- Three calls that return: a new node with one child in two slots, a block put into itself, and the
root put into a block beneath it. -/
theorem misplaced_nodes_let_through :
    nestedBlocks.Coherent ∧
    (∃ t', (Call.create (.statement .block) [some ⟨3⟩, some ⟨3⟩] none).run nestedBlocks = .ok ((), t') ∧
      (t'.slots ⟨4⟩).count (some ⟨3⟩) = 2) ∧
    (∃ t', (Call.addChild ⟨3⟩ (some ⟨3⟩)).run nestedBlocks = .ok ((), t') ∧ t'.parent ⟨3⟩ = some ⟨3⟩) ∧
    ∃ t', (Call.replaceNode ⟨1⟩ root).run nestedBlocks = .ok ((), t') ∧
      t'.parent root = some ⟨2⟩ ∧ t'.parent ⟨2⟩ = some root :=
  ⟨coherent_nestedBlocks, ⟨_, rfl, rfl⟩, ⟨_, rfl, rfl⟩, _, rfl, rfl, rfl⟩

end ProtocolIR
