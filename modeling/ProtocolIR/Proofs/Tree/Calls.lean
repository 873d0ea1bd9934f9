import ProtocolIR.Proofs.Tree.Growth

/-!
# Histories of surgery

The calls by which a tree is edited, and the trees that they lead to from the tree with only a
root. A call that names a node the tree does not have faults. Each call that returns is an edit of
the slots of one node or adds nodes beside the tree (`Call.effect`), so every history leads to a
linked tree, and to a coherent one as long as nothing is put beneath itself.
-/

namespace ProtocolIR

open Tree List

inductive Call where
  | create (kind : NodeKind) (slots : List (Option NodeId)) (location : Option Location)
  | setChild (n : NodeId) (i : Nat) (child : Option NodeId)
  | addChild (n : NodeId) (child : Option NodeId)
  | replaceChild (n old new : NodeId)
  | replaceNode (old new : NodeId)
  | removeChild (n : NodeId) (i : Nat)
  | removeChildren (n : NodeId) (start stop : Nat)
  | detach (n : NodeId)
  | copy (n : NodeId)

namespace Call

/-- The nodes a call names. -/
def nodes : Call → List NodeId
  | create _ slots _ => slots.filterMap id
  | setChild n _ child | addChild n child => n :: child.toList
  | replaceChild n old new => [n, old, new]
  | replaceNode old new => [old, new]
  | removeChild n _ | removeChildren n _ _ | detach n | copy n => [n]

def perform : Call → Surgery Unit
  | create kind slots location => discard (Surgery.create kind slots location)
  | setChild n i child => Surgery.setChild n i child
  | addChild n child => Surgery.addChild n child
  | replaceChild n old new => Surgery.replaceChild n old new
  | replaceNode old new => Surgery.replaceNode old new
  | removeChild n i => discard (Surgery.removeChild n i)
  | removeChildren n start stop => Surgery.removeChildren n start stop
  | detach n => Surgery.detach n
  | copy n => discard (Surgery.copy n)

/-- A call, which needs the nodes that it names. -/
def run (call : Call) : Surgery Unit := fun t ↦
  if ∀ n ∈ call.nodes, t.Has n then call.perform t else .error .outOfRange

/-- The target of a call that inserts a node, and that node. -/
def insertion? : Call → Option (NodeId × NodeId)
  | setChild n _ child | addChild n child => child.map fun c ↦ (n, c)
  | replaceChild n _ new => some (n, new)
  | replaceNode old new => some (old, new)
  | create .. | removeChild .. | removeChildren .. | detach _ | copy _ => none

/-- A new node is given different children. -/
def Distinct : Call → Prop
  | create _ slots _ => (slots.filterMap id).Nodup
  | _ => True

/-- What a call inserts is neither its target nor above it. -/
def KeepsOrder (t : Tree) (call : Call) : Prop :=
  ∀ target c, call.insertion? = some (target, c) → ¬t.Within c target

def Orderly (t : Tree) (call : Call) : Prop := call.Distinct ∧ call.KeepsOrder t

end Call

/-- The trees that a history of allowed calls, all of which return, leads to. -/
inductive Reached (allowed : Tree → Call → Prop) : Tree → Prop
  | new : Reached allowed Tree.new
  | call {t t' : Tree} {call : Call} :
    Reached allowed t → allowed t call → call.run t = .ok ((), t') → Reached allowed t'

namespace Call

variable {t t' : Tree} {call : Call}

theorem run_eq_ok (h : call.run t = .ok ((), t')) :
    (∀ n ∈ call.nodes, t.Has n) ∧ call.perform t = .ok ((), t') := by
  unfold run at h
  split at h
  next hhas => exact ⟨hhas, h⟩
  · cases h

/-- The result of a call is what remains of an operation when its value is dropped. -/
theorem discard_eq_ok {α : Type} {m : Surgery α} (h : (discard m) t = .ok ((), t')) :
    ∃ a, m t = .ok (a, t') := by
  have hmap : (discard m) t = (m t).map fun r ↦ ((), r.2) := by
    show ((fun _ ↦ ()) <$> m) t = _
    rw [map_eq_pure_bind]
    show (m t >>= fun r ↦ pure ((), r.2)) = _
    cases m t <;> rfl
  rw [hmap] at h
  cases hm : m t with
  | error f => rw [hm] at h; cases h
  | ok r =>
    rw [hm] at h
    cases h
    exact ⟨r.1, rfl⟩

theorem unit_eq_ok {x : Except Fault Tree} (h : (do return ((), ← x)) = .ok ((), t')) :
    x = .ok t' := by
  cases x with
  | error f => cases h
  | ok u => cases h; rfl

/-- A call adds nodes beside the tree, or it changes the slots of one node. In the second case
what comes in has that node beneath it exactly if the call does not keep the order. -/
theorem effect (ht : t.Linked) (hdistinct : call.Distinct) (h : call.run t = .ok ((), t')) :
    (Growth t t' ∧ call.KeepsOrder t) ∨
      ∃ n out inn, Reslotted t t' n out inn ∧
        ((∀ c ∈ inn, ¬t.Within c n) ↔ call.KeepsOrder t) := by
  obtain ⟨hhas, hperform⟩ := run_eq_ok h
  cases call with
  | create kind slots location =>
    obtain ⟨n, hcreate⟩ := discard_eq_ok hperform
    have hchild : ∀ c, some c ∈ slots → t.Has c := fun c hc ↦ hhas c (by simpa [nodes] using hc)
    refine .inr ⟨n, [], _, reslotted_create hcreate hchild hdistinct, ?_⟩
    refine iff_of_true (fun c hc hwithin ↦ ?_) fun _ _ hinsert ↦ by cases hinsert
    -- nothing is above a node that is not there yet
    cases hwithin with
    | here => exact not_has_create hcreate (hchild n (by simpa using hc))
    | beneath hp _ => rw [parent_of_not_has (not_has_create hcreate)] at hp; cases hp
  | setChild n i child =>
    have hset := unit_eq_ok hperform
    refine .inr ⟨n, _, _, reslotted_setChild ht hset (hhas n (by simp [nodes]))
      (fun c hc ↦ hhas c (mem_cons_of_mem _ hc)), ?_⟩
    cases child <;> simp [KeepsOrder, insertion?]
  | addChild n child =>
    have hadd := unit_eq_ok hperform
    refine .inr ⟨n, _, _, reslotted_addChild hadd (hhas n (by simp [nodes]))
      (fun c hc ↦ hhas c (mem_cons_of_mem _ hc)), ?_⟩
    cases child <;> simp [KeepsOrder, insertion?]
  | replaceChild n old new =>
    have hreplace := unit_eq_ok hperform
    refine .inr ⟨n, _, _, reslotted_replaceChild ht hreplace (hhas new (by simp [nodes])), ?_⟩
    simp [KeepsOrder, insertion?]
  | replaceNode old new =>
    obtain ⟨p, hp, hreslot⟩ :=
      reslotted_replaceNode ht (unit_eq_ok hperform) (hhas new (by simp [nodes]))
    refine .inr ⟨p, _, _, hreslot, ?_⟩
    -- the new node is free, so it is not the old one; and the only way up goes through the parent
    have hne : new ≠ old := by
      rintro rfl
      have hfree := hreslot.inn_free new (mem_singleton_self _)
      rw [hp] at hfree
      cases hfree
    have hiff : t.Within new old ↔ t.Within new p := by
      constructor
      · intro hwithin
        cases hwithin with
        | here => exact absurd rfl hne
        | beneath hq hwithin => rw [hp] at hq; cases hq; exact hwithin
      · exact .beneath hp
    simp [KeepsOrder, insertion?, hiff]
  | removeChild n i =>
    obtain ⟨old, hremove⟩ := discard_eq_ok hperform
    refine .inr ⟨n, _, _, reslotted_removeChild ht hremove, ?_⟩
    simp [KeepsOrder, insertion?]
  | removeChildren n start stop =>
    have hremove := unit_eq_ok hperform
    refine .inr ⟨n, _, _, reslotted_removeChildren ht (hhas n (by simp [nodes])) hremove, ?_⟩
    simp [KeepsOrder, insertion?]
  | detach n =>
    rcases detach_eq_ok (unit_eq_ok hperform) with rfl | ⟨p, i, hchild, hset⟩
    · exact .inl ⟨Growth.refl _, fun _ _ hinsert ↦ by cases hinsert⟩
    · have hp : t.Has p := has_of_mem_slots (mem_slots_of_child hchild)
      refine .inr ⟨p, _, _, reslotted_setChild ht hset hp (by simp), ?_⟩
      simp [KeepsOrder, insertion?]
  | copy n =>
    obtain ⟨c, hcopy⟩ := discard_eq_ok hperform
    have hpost := (builder_copy n t).post_of_ok hcopy
    exact .inl ⟨hpost.1, fun _ _ hinsert ↦ by cases hinsert⟩

theorem linked_of_run (ht : t.Linked) (hdistinct : call.Distinct)
    (h : call.run t = .ok ((), t')) : t'.Linked := by
  rcases effect ht hdistinct h with ⟨hgrowth, -⟩ | ⟨n, out, inn, hreslot, -⟩
  · exact hgrowth.linked ht
  · exact hreslot.linked ht

theorem coherent_iff_of_run (ht : t.Coherent) (hdistinct : call.Distinct)
    (h : call.run t = .ok ((), t')) : t'.Coherent ↔ call.KeepsOrder t := by
  rcases effect ht.toLinked hdistinct h with ⟨hgrowth, horder⟩ | ⟨n, out, inn, hreslot, hiff⟩
  · exact iff_of_true (hgrowth.coherent ht) horder
  · rw [← hiff]
    exact hreslot.coherent_iff ht

theorem coherent_of_run (ht : t.Coherent) (hcall : Orderly t call) (h : call.run t = .ok ((), t')) :
    t'.Coherent :=
  (coherent_iff_of_run ht hcall.1 h).2 hcall.2

theorem Orderly.of_plain (t : Tree) (call : Call) (hinsert : call.insertion? = none)
    (hdistinct : call.Distinct) : Orderly t call := by
  refine ⟨hdistinct, fun _ _ h ↦ ?_⟩
  rw [hinsert] at h
  cases h

theorem Orderly.of_create (t : Tree) (kind : NodeKind) (slots : List (Option NodeId))
    (location : Option Location) (hdistinct : (slots.filterMap id).Nodup) :
    Orderly t (.create kind slots location) :=
  .of_plain t _ rfl hdistinct

/-- Only the target itself lies above a target without a parent. -/
theorem Orderly.of_top (t : Tree) (call : Call) (target c : NodeId) (hdistinct : call.Distinct)
    (hinsert : call.insertion? = some (target, c)) (hp : t.parent target = none)
    (hne : c ≠ target) : Orderly t call := by
  refine ⟨hdistinct, fun _ _ h hwithin ↦ ?_⟩
  rw [hinsert] at h
  cases h
  cases hwithin with
  | here => exact hne rfl
  | beneath hq _ => rw [hp] at hq; cases hq

end Call

theorem node_new (n : NodeId) : Tree.new.node n = { kind := .root } := by
  by_cases hn : Tree.new.Has n
  · have hindex : n.index = 0 := Nat.lt_one_iff.1 hn
    unfold Tree.node
    rw [hindex]
    rfl
  · exact node_of_not_has hn

theorem coherent_new : Tree.new.Coherent := by
  have hslots : ∀ n, Tree.new.slots n = [] := fun n ↦ by unfold Tree.slots; rw [node_new]
  have hparent : ∀ n, Tree.new.parent n = none := fun n ↦ by unfold Tree.parent; rw [node_new]
  refine { parent_of_held := ?_, held_once := ?_, grounded := fun n ↦ .top (hparent n) }
  · intro p c hc
    rw [hslots] at hc
    cases hc
  · intro p c hp
    rw [hparent] at hp
    cases hp

/-- Every history of calls that return leads to a tree whose slots and parent fields agree, and to
a coherent tree if each inserting call inserts a node that is neither its target nor above it.
That condition cannot be spared for any call: without it the tree is no longer coherent. -/
theorem coherent_of_reached :
    (∀ t, Reached Call.Orderly t → t.Coherent) ∧
    (∀ t, Reached (fun _ call ↦ call.Distinct) t → t.Linked) ∧
    ∀ (t t' : Tree) (call : Call), t.Coherent → call.Distinct → call.run t = .ok ((), t') →
      (t'.Coherent ↔ call.KeepsOrder t) := by
  refine ⟨fun t h ↦ ?_, fun t h ↦ ?_, fun t t' call ht hd h ↦ Call.coherent_iff_of_run ht hd h⟩
  · induction h with
    | new => exact coherent_new
    | call _ hallowed hrun ih => exact Call.coherent_of_run ih hallowed hrun
  · induction h with
    | new => exact coherent_new.toLinked
    | call _ hdistinct hrun ih => exact Call.linked_of_run ih hdistinct hrun

/-- A block with a hole and a child is given a child past its slots, attached, copied, and the hole
closed; adding the root to itself would be a ring. -/
theorem coherent_of_reached_block :
    (∃ t : Tree, t.slots ⟨2⟩ = [some ⟨1⟩, none, some ⟨3⟩] ∧ t.size = 7 ∧ t.Coherent) ∧
    ∃ t' : Tree, (Call.addChild Tree.root (some Tree.root)).run Tree.new = .ok ((), t') ∧
      ¬t'.Coherent := by
  have h₀ : Reached Call.Orderly Tree.new := .new
  have h₁ := h₀.call (.of_create _ (.statement .block) [] none (by decide)) rfl
  have h₂ := h₁.call (.of_create _ (.statement .block) [none, some ⟨1⟩] none (by decide)) rfl
  have h₃ := h₂.call (.of_create _ (.statement .ret) [] none (by decide)) rfl
  have h₄ := h₃.call
    (.of_top _ (.setChild ⟨2⟩ 3 (some ⟨3⟩)) ⟨2⟩ ⟨3⟩ trivial rfl rfl (by decide)) rfl
  have h₅ := h₄.call (.of_top _ (.addChild ⟨0⟩ (some ⟨2⟩)) ⟨0⟩ ⟨2⟩ trivial rfl rfl (by decide)) rfl
  have h₆ := h₅.call (.of_plain _ (.copy ⟨2⟩) rfl trivial) rfl
  have h₇ := h₆.call (.of_plain _ (.removeChild ⟨2⟩ 0) rfl trivial) rfl
  refine ⟨⟨_, rfl, rfl, coherent_of_reached.1 _ h₇⟩, _, rfl, fun h ↦ ?_⟩
  have hiff := coherent_of_reached.2.2 Tree.new _ (.addChild Tree.root (some Tree.root))
    coherent_new trivial rfl
  exact hiff.1 h _ _ rfl .here

end ProtocolIR
