import ProtocolIR.Proofs.Coercion.Visits

/-!
# Walks that settle

A sweep visits parts before wholes, so that when it comes to a node all beneath it is settled. The
visit settles the node, and what is done stays settled; what a visit makes is settled at once. So a
sweep of a ready tree leaves all that is attached settled.
-/

namespace ProtocolIR

open Tree List

namespace Tree

variable {t : Tree} {n : NodeId}

/-- When the turn of a node comes, all beneath it is done. -/
def PartsFirst (t : Tree) : List NodeId → List NodeId → Prop
  | _, [] => True
  | done, n :: rest => (∀ a, t.Within n a → a ≠ n → a ∈ done) ∧ PartsFirst t (n :: done) rest

namespace PartsFirst

variable {t : Tree} {done done' l l' : List NodeId}

theorem mono (h : t.PartsFirst done l) (hsub : done ⊆ done') : t.PartsFirst done' l := by
  induction l generalizing done done' with
  | nil => trivial
  | cons n l ih => exact ⟨fun a ha hne ↦ hsub (h.1 a ha hne), ih h.2 (cons_subset_cons n hsub)⟩

theorem append (h : t.PartsFirst done l) (h' : t.PartsFirst done' l') (hsub : done' ⊆ done ++ l) :
    t.PartsFirst done (l ++ l') := by
  induction l generalizing done with
  | nil => exact h'.mono (by rwa [append_nil] at hsub)
  | cons n l ih =>
    refine ⟨h.1, ih h.2 fun a ha ↦ ?_⟩
    have hmem := hsub ha
    rw [mem_append, mem_cons] at hmem
    rw [mem_append, mem_cons]
    rcases hmem with hmem | rfl | hmem
    · exact .inl (.inr hmem)
    · exact .inl (.inl rfl)
    · exact .inr hmem

theorem flatMap {f : NodeId → List NodeId} (h : ∀ n ∈ l, t.PartsFirst [] (f n)) :
    t.PartsFirst [] (l.flatMap f) := by
  induction l with
  | nil => trivial
  | cons n l ih =>
    exact (h n mem_cons_self).append (ih fun m hm ↦ h m (mem_cons_of_mem n hm))
      (nil_subset _)

end PartsFirst

theorem Coherent.partsFirst_of_walks (ht : t.Coherent) {depth : Nat} {l : List (NodeId × Nat)}
    (h : t.Walks .post depth n l) : t.PartsFirst [] (l.map Prod.fst) := by
  induction h with
  | @node depth n part hparts ih =>
    show t.PartsFirst [] ((_ ++ [(n, depth)]).map Prod.fst)
    rw [map_append, map_flatMap]
    refine PartsFirst.append (.flatMap ih) ⟨fun a ha hne ↦ ?_, trivial⟩ fun a ha ↦ ha
    rcases Within.eq_or_beneath ht.toLinked ha with rfl | ⟨c, hc, hca⟩
    · exact absurd rfl hne
    · have hmem := mem_children.2 hc
      obtain ⟨d, hd⟩ := ht.exists_mem_of_walks (hparts c hmem) hca
      exact mem_flatMap.2 ⟨c, hmem, List.mem_map_of_mem hd⟩

theorem Coherent.partsFirst_postOrder (ht : t.Coherent) (hn : t.Has n) :
    t.PartsFirst [] (t.ordered .post n) := by
  rw [ordered_eq_map]
  exact ht.partsFirst_of_walks (ht.walks_orderWithin .post 0 hn)

end Tree

namespace Coercion

open Sweep

/-- How far a sweep has come. -/
structure Progress (session : Session) (t₀ : Tree) (done : List NodeId) (t : Tree) (state : SweepState) :
    Prop where
  course : Course session t₀ t
  hasBool : HasBool t₀ t state
  has : ∀ {m}, m ∈ done → t₀.Has m
  settled : ∀ {m}, m ∈ done → t.Within root m → Settled session t m

variable {session : Session} {t₀ : Tree} {w : Workspace} {done : List NodeId} {state : SweepState}
  (hready : Ready session t₀) (hregular : session.Regular) (h : Progress session t₀ done w.tree state)
  {n : NodeId}

include hready h

/-- A node of which all parts are done can be visited. -/
theorem Progress.visiting (hn : t₀.Has n) (hdone : ∀ a, t₀.Within n a → a ≠ n → a ∈ done)
    (hwithin : w.tree.Within root n) : Visiting session t₀ w.tree n where
  course := h.course
  start := h.course.amended.within hready.rooted.has_root hn hwithin
  beneath {a} ha hne := by
    by_cases hhas : t₀.Has a
    · exact h.settled (hdone a (h.course.amended.within hn hhas ha) hne) (hwithin.trans ha)
    · exact h.course.made hhas (ha.has (h.course.amended.has hn))

theorem Progress.advance {t' : Tree} {state' : SweepState} (hn : t₀.Has n)
    (hadvance : Advance session t₀ w.tree t') (hbool : HasBool t₀ t' state')
    (hsettled : Settled session t' n) :
    Progress session t₀ (n :: done) t' state' where
  course := hadvance.course
  hasBool := hbool
  has := by
    intro m hm
    rcases mem_cons.1 hm with rfl | hm
    · exact hn
    · exact h.has hm
  settled := by
    intro m hm hwithin
    rcases mem_cons.1 hm with rfl | hm
    · exact hsettled
    · have hhas := h.course.amended.has (h.has hm)
      have hroot := h.course.amended.has hready.rooted.has_root
      have hdomain := hready.region.attached
        (hadvance.course.amended.within hready.rooted.has_root (h.has hm) hwithin)
      exact hadvance.settled hhas hdomain (h.settled hm (hadvance.amended.within hroot hhas hwithin))

include hregular

theorem Progress.ensures_visit (hn : t₀.Has n)
    (hdone : ∀ a, t₀.Within n a → a ≠ n → a ∈ done) :
    Ensures (do
      if (← Pass.tree).isWithin n root then return (← (node session .coercer n).run state).2
      else return state : Pass SweepState) w
        fun state' w' ↦ Progress session t₀ (n :: done) w'.tree state' := by
  refine ensures_tree_bind ?_
  split
  next hwithin =>
    have hwithin := h.course.amended.rooted'.isWithin_iff.1 hwithin
    refine Ensures.bind (carries_node .coercer hready hregular (h.visiting hready hn hdone hwithin) state
      h.hasBool) fun r w' ⟨hadvance, hbool, hsettled⟩ ↦ ?_
    exact ensures_pure (h.advance hready hn hadvance hbool hsettled)
  next hout =>
    refine ensures_pure ⟨h.course, h.hasBool, fun {m} hm ↦ ?_, fun {m} hm hwithin ↦ ?_⟩
    · rcases mem_cons.1 hm with rfl | hm
      · exact hn
      · exact h.has hm
    · rcases mem_cons.1 hm with rfl | hm
      · exact absurd (h.course.amended.rooted'.isWithin_iff.2 hwithin) hout
      · exact h.settled hm hwithin

theorem Progress.ensures_visits {l : List NodeId} (hl : t₀.PartsFirst done l)
    (hhas : ∀ n ∈ l, t₀.Has n) :
    Ensures (l.foldlM (fun state n ↦ do
      if (← Pass.tree).isWithin n root then return (← (node session .coercer n).run state).2
      else return state : SweepState → NodeId → Pass SweepState) state) w
        fun state' w' ↦ Progress session t₀ (l.reverse ++ done) w'.tree state' := by
  induction l generalizing done state w with
  | nil => exact ensures_pure h
  | cons n l ih =>
    rw [foldlM_cons, reverse_cons, append_assoc]
    refine (h.ensures_visit hready hregular (hhas n mem_cons_self) hl.1).bind fun state' w' h' ↦ ?_
    exact ih h' hl.2 fun m hm ↦ hhas m (mem_cons_of_mem n hm)

omit hready h in
/-- A sweep of a ready tree leaves all that is attached settled. -/
theorem ensures_sweep_settled (hready : Ready session w.tree) :
    Ensures (sweep session root) w fun _ w' ↦ Course session w.tree w'.tree ∧
      ∀ {m}, w'.tree.Within root m → Settled session w'.tree m := by
  have ht := hready.rooted
  have hstart : Progress session w.tree [] w.tree {} :=
    { course := .start hready
      hasBool := nofun
      has := nofun
      settled := nofun }
  have hvisits := hstart.ensures_visits hready hregular (ht.partsFirst_postOrder ht.has_root)
    fun n hn ↦ ht.toLinked.has_of_mem_ordered ht.has_root .post hn
  refine Ensures.bind (ensures_tree_bind hvisits) fun state w' h ↦ ensures_pure ⟨h.course, fun {m} hm ↦ ?_⟩
  by_cases hhas : w.tree.Has m
  · have hwithin := h.course.amended.within ht.has_root hhas hm
    refine h.settled ?_ hm
    rw [append_nil, mem_reverse]
    exact ht.mem_ordered .post hhas hwithin
  · exact h.course.made hhas (hm.has h.course.amended.rooted'.has_root)

end Coercion

end ProtocolIR
