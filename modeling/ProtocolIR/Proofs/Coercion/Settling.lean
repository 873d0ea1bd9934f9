import ProtocolIR.Proofs.Coercion.Course
import ProtocolIR.Proofs.Replay.Coercion

/-!
# What a sweep settles

A visit looks at the slots of a node one after the other. When it comes to the node, all that lies
beneath is settled; what it puts in place is settled too, and a slot that it has looked at is calm
and stays calm. So the visit leaves the node settled, and a walk over a ready tree, parts before
wholes, leaves all that is attached settled.
-/

namespace ProtocolIR

open Tree List Option

namespace Tree

variable {t t' : Tree} {n q b : NodeId}

theorem Growth.rooted (h : Growth t t') (ht : t.Rooted) : t'.Rooted where
  toCoherent := h.coherent ht.toCoherent
  has_root := h.has ht.has_root
  kind_root := by rw [h.kind_eq ht.has_root, ht.kind_root]

theorem Growth.amended (h : Growth t t') (ht : t.Rooted) : Amended t t' where
  rooted := ht
  rooted' := h.rooted ht
  size_le := h.size_le
  kind := h.kind_eq
  length hn := by rw [h.slots_eq hn]
  child hn := .inl (child_congr (h.slots_eq hn) _)
  within _ hn hwithin := (h.within_of_has ht.toLinked hn hwithin).2
  function {n f} hn hf := by
    induction ht.grounded n with
    | @top n hfree =>
      rw [findAncestor_of_free (h.coherent ht.toCoherent) (by rw [h.parent_eq hn, hfree])] at hf
      cases hf
    | @beneath n p hp _ ih =>
      have hhas := ht.has_parent hp
      rw [findAncestor_of_parent (h.coherent ht.toCoherent) (by rw [h.parent_eq hn, hp]),
        h.kind_eq hhas] at hf
      rw [findAncestor_of_parent ht.toCoherent hp]
      split at hf
      next hkind => rwa [if_pos hkind]
      next hkind =>
        rw [if_neg hkind]
        exact ih hhas hf
  around {n q} hn _ hq _ := by
    rw [h.parent_eq hn] at hq
    obtain ⟨p, hp, hq⟩ := bind_eq_some_iff.1 hq
    rw [h.parent_eq (ht.has_parent hp)] at hq
    exact bind_eq_some_iff.2 ⟨p, hp, hq⟩

/-- A node in all slots of which types are looked for keeps its slots. -/
theorem Amended.slots_eq (h : Amended t t') (hn : t.Has n) (hreads : ∀ i, (t.kind n).ReadsType i) :
    t'.slots n = t.slots n := by
  refine ext_getElem (h.length hn) fun i hi hi' ↦ ?_
  have hchild := h.child_eq hn (hreads i)
  unfold Tree.child at hchild
  rwa [getElem?_eq_getElem hi, getElem?_eq_getElem hi'] at hchild

theorem Amended.isBool (h : Amended t t') (hq : t.IsBool q) : t'.IsBool q := by
  obtain ⟨u, hslots, hnone, hkind⟩ := hq.exists_type
  have hhas : t.Has q := has_of_kind (by simp [hq.kind_eq])
  have hhasU : t.Has u := has_of_kind (by simp [hkind])
  refine ⟨(h.kind hhas).trans hq.kind_eq, u, ?_, ?_, (h.kind hhasU).trans hkind⟩
  · rw [h.slots_eq hhas fun i ↦ by rw [hq.kind_eq]; trivial, hslots]
  · rw [h.slots_eq hhasU fun i ↦ by rw [hkind]; trivial, hnone]

/-- The type of conditions is a qualification and a type, both new. -/
theorem novel_of_isBool (ht : t.Coherent) (h : Growth t t') (hq : Piece t t' q) (hbool : t'.IsBool q)
    (hsize : t'.size = t.size + 2) (hb : ¬t.Has b) (hb' : t'.Has b) :
    t.Novel (t'.kind b) ∧ ∀ c, some c ∈ t'.slots b → ¬t.Has c := by
  obtain ⟨u, hslots, hnone, hkind⟩ := hbool.exists_type
  have hheld : some u ∈ t'.slots q := by
    rw [hslots]
    exact mem_singleton_self _
  have ht' := h.coherent ht
  have hu : ¬t.Has u := fun hhas ↦ by
    have hp := ht'.parent_of_held hheld
    rw [h.parent_eq hhas] at hp
    exact hq.new (ht.has_parent hp)
  have hne : q ≠ u := fun heq ↦ by
    have hkind' := hbool.kind_eq
    rw [heq, hkind] at hkind'
    cases hkind'
  have hindex : b = q ∨ b = u := by
    have hq' := hq.has
    have hu' := ht'.has_of_held hheld
    have hnew := hq.new
    have hext : ∀ {x y : NodeId}, x.index = y.index → x = y := fun {x y} heq ↦ by
      cases x
      cases y
      exact congrArg NodeId.mk heq
    have hne' : q.index ≠ u.index := fun heq ↦ hne (hext heq)
    unfold Has at hb hb' hu hq' hu' hnew
    by_cases hbq : b.index = q.index
    · exact .inl (hext hbq)
    · exact .inr (hext (by omega))
  rcases hindex with rfl | rfl
  · rw [hbool.kind_eq, hslots]
    refine ⟨trivial, fun c hc ↦ ?_⟩
    cases mem_singleton.1 hc
    exact hu
  · rw [hkind, hnone]
    exact ⟨.inl ⟨rfl, _, rfl⟩, fun _ hc ↦ by cases hc⟩

end Tree

namespace Coercion

variable {session : Session} {t₀ t t' : Tree} {n q : NodeId}

/-- Making the type of conditions is a part of the course. -/
theorem Course.boolType (hready : Ready session t₀) (hregular : session.Regular)
    (hcourse : Course session t₀ t) (h : Growth t t') (hq : Piece t t' q) (hbool : t'.IsBool q)
    (hsize : t'.size = t.size + 2) : Advance session t₀ t t' := by
  have ht := hcourse.amended.rooted'
  have ham := h.amended ht
  have hnovel : ∀ {b}, ¬t.Has b → t'.Has b → _ := fun hb hb' ↦
    novel_of_isBool ht.toCoherent h hq hbool hsize hb hb'
  refine hcourse.advance hready hregular.leads ham ?_ (fun hm hdm hcalm ↦ ?_) (fun ha _ ↦ h.slots_eq ha)
    fun hb hb' ↦ settled_of_isInert (isInert_of_novel (hnovel hb hb').1)
  · refine hcourse.region.amended ham (fun hp hc ↦ .inl ?_) (fun hb hc ↦ hcourse.region.new ?_)
      fun hb hb' ↦ .inr (hnovel hb hb').1
    · rwa [h.slots_eq hp] at hc
    · exact (hnovel hb (has_of_mem_slots hc)).2 _ hc
  · exact hcalm.amended hregular ham hcourse.region hdm hm (child_congr (h.slots_eq hm) _)

/-! ## One slot -/

/-- A visit to a node beneath which all is settled. -/
structure Visiting (session : Session) (t₀ t : Tree) (n : NodeId) : Prop where
  course : Course session t₀ t
  start : t₀.Within root n
  beneath : ∀ {a}, t.Within n a → a ≠ n → Settled session t a

theorem Visiting.advance (h : Visiting session t₀ t n) (hready : Ready session t₀)
    (hadvance : Advance session t₀ t t') : Visiting session t₀ t' n where
  course := hadvance.course
  start := h.start
  beneath {a} hwithin hne := by
    have hn := h.course.amended.has (h.start.has hready.rooted.has_root)
    by_cases ha : t.Has a
    · have hold := hadvance.amended.within hn ha hwithin
      have hdomain := h.course.region.below h.course.amended.rooted'.toLinked
        (hready.region.attached h.start) hold
      exact hadvance.settled ha hdomain (h.beneath hold hne)
    · exact hadvance.course.made (fun hhas ↦ ha (h.course.amended.has hhas))
        (hwithin.has (hadvance.amended.has hn))

section Slot

variable {w : Workspace} {i : Nat} {dst : NodeId} {style : Style} {stream : Stream} {p : NodeId → Prop}

/-- Nothing is to be done with the expression in a slot. -/
def Still (session : Session) (t : Tree) (n : NodeId) (i : Nat) (dst : NodeId) (style : Style) : Prop :=
  ∀ e c, t.child n i = some e → (t.kind e).isExpression = true →
    coerceExpression session.conversions t e dst style = .ok c → c = .unchanged

/-- Either nothing is to be done and nothing is done, or a new expression is put in place. -/
theorem ensures_coerceSlot (hready : Ready session t₀) (hregular : session.Regular)
    (hvisit : Visiting session t₀ w.tree n)
    (htargets : ∀ e, Targets (Source session t₀ w.tree) (Top w.tree e) w.tree p)
    (hdst : ∀ {e c}, coerceExpression session.conversions w.tree e dst style = .ok c → c ≠ .unchanged → p dst)
    (hreads : ¬(w.tree.kind n).ReadsType i)
    (hstill : Calm session w.tree n i ↔ Still session w.tree n i dst style)
    (hplaced : ∀ {t' e e' r}, p dst → Amended w.tree t' →
      Placed (Source session t₀ w.tree) (Top w.tree e) w.tree t' n i e e' dst r → Calm session t' n i) :
    Ensures (coerceSlot session.conversions stream n i dst style) w fun _ w' ↦
      Advance session t₀ w.tree w'.tree ∧ Calm session w'.tree n i := by
  have hcourse := hvisit.course
  have ht := hcourse.amended.rooted'
  have hdone : Still session w.tree n i dst style →
      Advance session t₀ w.tree w.tree ∧ Calm session w.tree n i :=
    fun h ↦ ⟨.refl hcourse, hstill.2 h⟩
  have hmain : Ensures (coerceSlot session.conversions stream n i dst style) w fun _ w' ↦
      w'.tree.Rooted → Advance session t₀ w.tree w'.tree ∧ Calm session w'.tree n i := by
    refine ensures_tree_bind ?_
    split
    next hnone =>
      refine ensures_pure fun _ ↦ hdone fun e _ he hexpression _ ↦ ?_
      rw [he, filter_some, if_pos hexpression] at hnone
      cases hnone
    next e he =>
      obtain ⟨hchild, hexpression⟩ := filter_eq_some_iff.1 he
      split
      next hok =>
        refine ensures_pure fun _ ↦ hdone fun _ _ he' _ hok' ↦ ?_
        cases hchild.symm.trans he'
        cases hok.symm.trans hok'
        rfl
      next herror =>
        refine ensures_pure fun _ ↦ hdone fun _ _ he' _ hok' ↦ ?_
        cases hchild.symm.trans he'
        cases herror.symm.trans hok'
      next c hne hok =>
        have hne : c ≠ .unchanged := hne
        have hn := has_of_child_eq hchild
        have hp := ht.parent_of_child hchild
        have hsource : ∀ a, w.tree.Within e a → Source session t₀ w.tree a := fun a ha ↦ by
          have hna := (Within.of_parent hp).trans ha
          refine ⟨hvisit.beneath hna fun heq ↦ ?_, ?_, hna.has hn⟩
          · rw [heq] at ha
            exact (ht.grounded e).not_within hp ha
          · exact hcourse.region.below ht.toLinked (hready.region.attached hvisit.start) hna
        refine Ensures.bind (q := fun _ w' ↦
          Places (Source session t₀ w.tree) (Top w.tree e) w.tree n i e dst w'.tree)
          (Ensures.map (ensures_apply hregular.echoes ht.toCoherent (htargets e) hchild hexpression
            (hdst hok hne) hok hne hsource fun a ha ↦ .inl ha)) ?_
        rintro _ w' ⟨e', r, h⟩
        refine ensures_pure fun ht' ↦ ?_
        have hbusy : ¬Calm session w.tree n i := fun hcalm ↦ hne (hstill.1 hcalm e c hchild hexpression hok)
        have hcalm := hplaced (hdst hok hne) (h.amended ht ht' hreads) h
        exact ⟨hcourse.place hready hregular hvisit.start ht' h hreads hbusy hcalm, hcalm⟩
  intro b w' hrun
  refine hmain b w' hrun ?_
  exact ((safe_coerceSlot hregular.tame.literals ht.toCoherent stream n i dst style).post_of_ok hrun).rooted ht

theorem ensures_coerceSlot_site (hready : Ready session t₀) (hregular : session.Regular)
    (hvisit : Visiting session t₀ w.tree n) (hsite : Site session.registry w.tree n i dst style) :
    Ensures (coerceSlot session.conversions stream n i dst style) w fun _ w' ↦
      Advance session t₀ w.tree w'.tree ∧ Calm session w'.tree n i := by
  have htargets := fun e ↦ hvisit.course.targets hready hregular.leads e
  refine ensures_coerceSlot hready hregular hvisit htargets (fun hok hne ↦ ?_)
    (hsite.not_readsType hregular.leads) ⟨fun hcalm _ _ he ↦ hcalm.value hsite he, fun hstill ↦ ?_⟩ ?_
  · obtain ⟨d, hd⟩ := exists_follow_of_coerceExpression hregular.echoes hok hne
    exact hvisit.course.site hready hregular.leads hvisit.start hsite (isExpression_of_follow hd)
  · refine ⟨fun hsite' he hexpression hok ↦ ?_, fun hcondition ↦ absurd hcondition hsite.not_isCondition⟩
    obtain ⟨rfl, rfl⟩ := hsite.unique hsite'
    exact hstill _ _ he hexpression hok
  · intro t' e e' r hdst ham h
    refine calm_of_site hregular ham hvisit.course.region (hready.region.attached hvisit.start) h hsite ?_
    intro u data hu hkind
    obtain ⟨data', text, hkind', htext⟩ := ((htargets e).wanted hdst hu hkind).recorded
    cases hkind.symm.trans hkind'
    exact ⟨text, htext⟩

/-- The type of conditions is a plain type without parts. -/
theorem targets_bool (hcourse : Course session t₀ t) (hbool : t.IsBool q) (hnew : ¬t₀.Has q) (e : NodeId) :
    Targets (Source session t₀ t) (Top t e) t (· = q) := by
  obtain ⟨u, -, hu, -, hfollow, hnone, hdata⟩ := hbool.exists_inner
  have hkind := typeData?_eq_some_iff.1 hdata
  have hhas : t.Has u := has_of_kind (by simp [hkind])
  have hwithin : ∀ {a}, t.Within u a → a = u := by
    intro a ha
    induction ha with
    | here => rfl
    | beneath hp _ ih =>
      have hheld := hcourse.amended.rooted'.held hp
      rw [ih, hnone] at hheld
      cases hheld
  constructor
  · rintro x u' data rfl hu' -
    cases hu.symm.trans hu'
    refine ⟨⟨_, _, hkind, rfl⟩, fun a ha ↦ ?_, .inr fun x hx hret ↦ ?_⟩
    · rw [hwithin ha]
      refine ⟨settled_of_isInert (by rw [hkind]; trivial), ?_, hhas⟩
      exact hcourse.region.unqualified (fun hold ↦ absurd hold hnew) hu
    · rw [hwithin hx, hkind] at hret
      cases hret
  · rintro x d y rfl hd hshape -
    cases hfollow.symm.trans hd
    unfold shape? at hshape
    rw [hdata] at hshape
    cases hshape

theorem not_readsType_of_isCondition {kind : NodeKind} (h : kind.IsCondition i) : ¬kind.ReadsType i := by
  cases kind with
  | statement => exact id
  | expression e =>
    cases e with
    | ternary =>
      intro hreads
      cases h.symm.trans hreads
    | logicalAnd | logicalOr | logicalNot => exact Nat.ne_of_gt h
    | _ => exact h.elim
  | _ => exact h.elim

theorem ensures_coerceSlot_condition (hready : Ready session t₀) (hregular : session.Regular)
    (hvisit : Visiting session t₀ w.tree n) (hcondition : (w.tree.kind n).IsCondition i)
    (hbool : w.tree.IsBool q) (hnew : ¬t₀.Has q)
    (hunmet : ∀ {e}, w.tree.child n i = some e →
      (w.tree.expressionType e).bind w.tree.followedShape ≠ some .bool) :
    Ensures (coerceSlot session.conversions stream n i q .ofCondition) w fun _ w' ↦
      Advance session t₀ w.tree w'.tree ∧ Calm session w'.tree n i := by
  have hanswer : ∀ e, (coerceExpression session.conversions w.tree e q .ofCondition).toOption =
      conditionAnswer w.tree e := fun e ↦ coerceExpression_bool hregular.tame hbool
  obtain ⟨u, -, hu, -, -, -, hdata⟩ := hbool.exists_inner
  refine ensures_coerceSlot hready hregular hvisit (targets_bool hvisit.course hbool hnew) (fun _ _ ↦ rfl)
    (not_readsType_of_isCondition hcondition) ⟨fun hcalm e c he hexpression hok ↦ ?_, fun hstill ↦ ?_⟩
    fun _ ham h ↦ calm_of_condition ham h hcondition hu (by rw [hdata]; rfl)
  · refine (hcalm.condition hcondition he hexpression).resolve_left (hunmet he) c ?_
    rw [← hanswer, hok]
    rfl
  · refine ⟨fun hsite ↦ absurd hcondition hsite.not_isCondition,
      fun {e} _ he hexpression ↦ .inr fun c hc ↦ ?_⟩
    rw [← hanswer] at hc
    cases hok : coerceExpression session.conversions w.tree e q .ofCondition with
    | ok c' =>
      rw [hok] at hc
      cases hc
      exact hstill _ _ he hexpression hok
    | error refusal =>
      rw [hok] at hc
      cases hc

end Slot

end Coercion

end ProtocolIR
