import ProtocolIR.Proofs.Coercion.Settling

/-!
# Visits

A visit looks at every site and at every condition of a node, and so leaves the node settled. The
looks are put together along the course of the sweep: each goes ahead, and what an earlier one left
calm stays calm.
-/

namespace ProtocolIR

open Tree List

/-- No expression is a type. -/
theorem Tree.bind_unqualified_of_isExpression {t : Tree} {o : Option NodeId}
    (h : ∀ c, o = some c → (t.kind c).isExpression = true) : o.bind t.unqualified = none := by
  refine Option.bind_eq_none_iff.2 fun c hc ↦ Option.eq_none_iff_forall_ne_some.2 fun u hu ↦ ?_
  have hplain := isExpression_of_unqualified hu
  rw [h c hc] at hplain
  cases hplain

/-- The parameters of a function are not what is coerced. -/
theorem Tree.Amended.parameters_eq {t t' : Tree} {g : NodeId → Prop} {f : NodeId} (h : Amended t t')
    (hg : Region t g) (hf : g f) (hhas : t.Has f) : t'.parameters f = t.parameters f := by
  have hecho := h.self hg
  have hsignature : (t'.child f 0).bind t'.unqualified = (t.child f 0).bind t.unqualified := by
    rcases h.child (i := 0) hhas with heq | ⟨-, hexpression, hexpression'⟩
    · rw [heq]
      exact Option.bind_congr fun c hc ↦ h.unqualified_eq (h.rooted.has_of_child hc)
    · rw [bind_unqualified_of_isExpression hexpression, bind_unqualified_of_isExpression hexpression']
  unfold parameters
  rw [hsignature]
  split
  next s hs =>
    obtain ⟨c, hc, hs⟩ := Option.bind_eq_some_iff.1 hs
    have hself : SelfOrCopy g t (fun _ _ ↦ False) s s :=
      .inl ⟨hg.unqualified (hg.child hf (mem_slots_of_child hc)) hs, h.rooted.has_of_unqualified hs, rfl⟩
    have hforall := (hecho.childrenFrom hself 1).imp fun a b hab ↦ hab.self.2.2
    rw [forall₂_eq_eq_eq] at hforall
    exact hforall.symm
  · rfl

namespace Coercion

variable {t₀ t : Tree} {session : Session} {n : NodeId} {i : Nat} {w : Workspace}

/-! ## Looks -/

/-- There is no type for the value in the slot. -/
theorem Calm.of_value {source : TypeSource} {style : Style}
    (hlook : .value i source style ∈ looks session.registry t n) (hnone : source.read t n = none) :
    Calm session t n i where
  value hsite := by
    obtain ⟨_, hlook', hread⟩ := mem_looks_of_site hsite
    cases eq_of_mem_looks hlook hlook' rfl
    rw [hnone] at hread
    cases hread
  condition hcondition he := by
    cases eq_of_mem_looks hlook (mem_looks_of_isCondition hcondition he) rfl

theorem Calm.of_condition (hcondition : (t.kind n).IsCondition i)
    (h : ∀ {e}, t.child n i = some e → (t.kind e).isExpression = true → Met t e) : Calm session t n i :=
  ⟨fun hsite ↦ absurd hcondition hsite.not_isCondition, fun _ he hexpression ↦ h he hexpression⟩

/-- A node is settled if every look at it has been taken. -/
theorem Settled.of_looks
    (h : ∀ look ∈ looks session.registry t n, look ≠ .unknown ∧ Calm session t n look.slot) :
    Settled session t n where
  known hkind hnone := (h .unknown (unknown_mem_looks_iff.2 ⟨_, _, hkind, hnone⟩)).1 rfl
  calm i := by
    refine ⟨fun hsite ↦ ?_, fun hcondition he ↦ ?_⟩
    · obtain ⟨source, hlook, -⟩ := mem_looks_of_site hsite
      exact (h _ hlook).2.value hsite
    · exact (h _ (mem_looks_of_isCondition hcondition he)).2.condition hcondition he

theorem Visiting.has (h : Visiting session t₀ t n) (hready : Ready session t₀) : t.Has n :=
  h.course.amended.has (h.start.has hready.rooted.has_root)

theorem Visiting.kind_eq {t' : Tree} (h : Visiting session t₀ t n) (hready : Ready session t₀)
    (hadvance : Advance session t₀ t t') :
    t'.kind n = t.kind n := hadvance.amended.kind (h.has hready)

theorem Visiting.looks_eq {t' : Tree} (h : Visiting session t₀ t n) (hready : Ready session t₀)
    (hadvance : Advance session t₀ t t') :
    looks session.registry t' n = looks session.registry t n := by
  have hregion := h.course.region
  have hdomain := hready.region.attached h.start
  exact looks_congr (h.kind_eq hready hadvance) (hadvance.amended.length (h.has hready)) fun hkind ↦
    hadvance.amended.parameters_eq hregion (hregion.callee hdomain hkind)
      (hregion.closed hdomain (by rw [hkind]; rfl))

namespace Sweep

/-- The type of conditions is made in the sweep. -/
def HasBool (t₀ t : Tree) (state : SweepState) : Prop :=
  ∀ {q}, state.boolType = some q → t.IsBool q ∧ ¬t₀.Has q

/-- A part of a visit goes ahead on the course, and ends as `post` says. -/
def Carries (session : Session) (t₀ : Tree) {α : Type} (m : Sweep α) (w : Workspace)
    (post : α → Tree → Prop) : Prop :=
  ∀ state, HasBool t₀ w.tree state → Ensures (m state) w fun r w' ↦
    Advance session t₀ w.tree w'.tree ∧ HasBool t₀ w'.tree r.2 ∧ post r.1 w'.tree

section Rules

variable {α β : Type} {post post' : α → Tree → Prop}

theorem carries_pure {a : α} (hcourse : Course session t₀ w.tree) (h : post a w.tree) :
    Carries session t₀ (pure a) w post := fun _ hbool ↦ ensures_pure ⟨.refl hcourse, hbool, h⟩

theorem carries_throw (f : Fault) : Carries session t₀ (throw f : Sweep α) w post := fun _ _ ↦
  ensures_throw f

theorem carries_tree_bind {k : Tree → Sweep α} (h : Carries session t₀ (k w.tree) w post) :
    Carries session t₀ (liftM Pass.tree >>= k) w post := h

theorem Carries.mono {m : Sweep α} (h : Carries session t₀ m w post)
    (himp : ∀ a t', Advance session t₀ w.tree t' → post a t' → post' a t') :
    Carries session t₀ m w post' := fun state hbool ↦
  (h state hbool).mono fun _ _ ⟨hadvance, hbool', hpost⟩ ↦ ⟨hadvance, hbool', himp _ _ hadvance hpost⟩

theorem Carries.bind {m : Sweep α} {k : α → Sweep β} {post : β → Tree → Prop}
    {mid : α → Tree → Prop}
    (hm : Carries session t₀ m w mid)
    (hk : ∀ a w', Advance session t₀ w.tree w'.tree → mid a w'.tree → Carries session t₀ (k a) w' post) :
    Carries session t₀ (m >>= k) w post := fun state hbool ↦
  Ensures.bind (hm state hbool) fun r w' ⟨hadvance, hbool', hmid⟩ ↦
    (hk r.1 w' hadvance hmid r.2 hbool').mono fun _ _ ⟨hadvance', hrest⟩ ↦ ⟨hadvance.trans hadvance', hrest⟩

/-- What one look leaves calm stays calm in the later ones. -/
theorem carries_forM {k : Look → Sweep PUnit} {l : List Look} {n : NodeId}
    (hready : Ready session t₀) (hvisit : Visiting session t₀ w.tree n)
    (hk : ∀ look ∈ l, ∀ w', Advance session t₀ w.tree w'.tree →
      Carries session t₀ (k look) w' fun _ t' ↦ look ≠ .unknown ∧ Calm session t' n look.slot) :
    Carries session t₀ (l.forM k) w fun _ t' ↦
      ∀ look ∈ l, look ≠ .unknown ∧ Calm session t' n look.slot := by
  induction l generalizing w with
  | nil => exact carries_pure hvisit.course fun _ hlook ↦ by cases hlook
  | cons look l ih =>
    refine (hk look mem_cons_self w (.refl hvisit.course)).bind fun _ w₁ hadvance ⟨hknown, hcalm⟩ ↦ ?_
    have hvisit₁ := hvisit.advance hready hadvance
    refine (ih hvisit₁ fun look' hlook w₂ hadvance₂ ↦
      hk look' (mem_cons_of_mem look hlook) w₂ (hadvance.trans hadvance₂)).mono fun _ t' hadvance' hrest ↦ ?_
    intro look' hlook
    rcases mem_cons.1 hlook with rfl | hlook
    · exact ⟨hknown, hadvance'.calm (hvisit₁.has hready) (hready.region.attached hvisit.start) hcalm⟩
    · exact hrest look' hlook

end Rules

section Looks

variable {dst : NodeId} {style : Style} {kind : OperatorKind} {d : Declaration} (stream : Stream)
  (hready : Ready session t₀) (hregular : session.Regular)

theorem carries_slot (h : Ensures (coerceSlot session.conversions stream n i dst style) w fun _ w' ↦
      Advance session t₀ w.tree w'.tree ∧ Calm session w'.tree n i) :
    Carries session t₀ (slot session stream n i dst style) w fun _ t' ↦ Calm session t' n i := by
  intro state hbool
  unfold slot
  rw [run_bind, run_lift, bind_assoc]
  refine h.bind fun changed w' ⟨hadvance, hcalm⟩ ↦ ensures_pure ⟨hadvance, fun hq ↦ ?_, hcalm⟩
  exact ⟨hadvance.amended.isBool (hbool hq).1, (hbool hq).2⟩

include hready hregular

theorem carries_boolType (hcourse : Course session t₀ w.tree) :
    Carries session t₀ boolType w fun q t' ↦ Padded w.tree t' ∧ t'.IsBool q ∧ ¬t₀.Has q := by
  intro state hbool
  have ht := hcourse.amended.rooted'
  cases hq : state.boolType with
  | some q =>
    rw [boolType_of_some hq]
    exact ensures_pure ⟨.refl hcourse, hbool, .refl ht, hbool hq⟩
  | none =>
    rw [boolType_of_none hq]
    obtain ⟨q, t', hrun, hgrowth, hpiece, hisBool, hsize, hnew⟩ := plainValueType_bool w.tree
    have hout : ¬t₀.Has q := fun hhas ↦ hpiece.new (hcourse.amended.has hhas)
    refine Ensures.bind (ensures_edit (p := fun c w' ↦ c = q ∧ w'.tree = t') fun c u hc ↦ ?_) ?_
    · cases hrun.symm.trans hc
      exact ⟨rfl, rfl⟩
    · rintro _ w' ⟨rfl, rfl⟩
      refine ensures_pure ⟨hcourse.boolType hready hregular hgrowth hpiece hisBool hsize, fun hq' ↦ ?_,
        (Padded.refl ht).grow hgrowth hnew, hisBool, hout⟩
      cases hq'
      exact ⟨hisBool, hout⟩

section

variable (hvisit : Visiting session t₀ w.tree n)

include hvisit

theorem carries_site (hsite : Site session.registry w.tree n i dst style) :
    Carries session t₀ (slot session stream n i dst style) w fun _ t' ↦ Calm session t' n i :=
  carries_slot stream (ensures_coerceSlot_site hready hregular hvisit hsite)

theorem carries_condition (hcondition : (w.tree.kind n).IsCondition i) :
    Carries session t₀ (condition session stream n i) w fun _ t' ↦ Calm session t' n i := by
  have hn := hvisit.has hready
  refine carries_tree_bind ?_
  split
  next hnone =>
    refine carries_pure hvisit.course (.of_condition hcondition fun he ↦ ?_)
    rw [hnone] at he
    cases he
  next e he =>
    split
    next hmet =>
      refine carries_pure hvisit.course (.of_condition hcondition fun he' _ ↦ .inl ?_)
      cases he.symm.trans he'
      exact eq_of_beq hmet
    next hunmet =>
      refine (carries_boolType hready hregular hvisit.course).bind
        fun q w' hadvance ⟨hpadded, hbool, hnew⟩ ↦ ?_
      refine carries_slot stream (ensures_coerceSlot_condition hready hregular
        (hvisit.advance hready hadvance) ?_ hbool hnew fun he' hmet ↦ ?_)
      · rw [hadvance.amended.kind hn]
        exact hcondition
      · rw [hpadded.child_eq hn] at he'
        cases he.symm.trans he'
        rw [hpadded.conditionType_eq (hpadded.base.has_of_child he)] at hmet
        exact hunmet (beq_iff_eq.2 hmet)

theorem carries_look {look : Look} (hlook : look ∈ looks session.registry w.tree n) :
    Carries session t₀ (Sweep.look session stream n look) w fun _ t' ↦
      look ≠ .unknown ∧ Calm session t' n look.slot := by
  cases look with
  | value i source style =>
    refine carries_tree_bind ?_
    split
    next dst hdst =>
      exact (carries_site stream hready hregular hvisit (site_of_mem_looks hlook hdst)).mono
        fun _ _ _ hcalm ↦ ⟨by simp, hcalm⟩
    next hnone => exact carries_pure hvisit.course ⟨by simp, .of_value hlook hnone⟩
  | condition i =>
    exact (carries_condition stream hready hregular hvisit (isCondition_of_mem_looks hlook)).mono
      fun _ _ _ hcalm ↦ ⟨by simp, hcalm⟩
  | unknown => exact carries_throw _

/-- A visit settles its node. -/
theorem carries_node :
    Carries session t₀ (node session stream n) w fun _ t' ↦ Settled session t' n := by
  rw [node_eq]
  refine carries_tree_bind ((carries_forM hready hvisit fun look hlook w' hadvance ↦ ?_).mono
    fun _ t' hadvance hlooks ↦ .of_looks ?_)
  · refine carries_look stream hready hregular (hvisit.advance hready hadvance) ?_
    rw [hvisit.looks_eq hready hadvance]
    exact hlook
  · rw [hvisit.looks_eq hready hadvance]
    exact hlooks

end

end Looks

end Sweep

end Coercion

end ProtocolIR
