import ProtocolIR.Proofs.Coercion.Calm
import ProtocolIR.Proofs.Coercion.Placing

/-!
# Carrying a coercion out

A literal is made anew beside the tree and takes the slot of the old one. A value that is wrapped
leaves its slot, goes into a conversion to the target type, and that into the slot.
-/

namespace ProtocolIR

open Tree List

namespace Tree

section

variable {source top : NodeId → Prop} {t t₁ t₂ t₃ t' : Tree} {n e e' l q dst : NodeId} {i : Nat}
  {r : NodeId → NodeId → Prop} {location : Option Location}

/-- What was assembled is put in place, and with it at most one more node. -/
theorem Assembled.placed (h : Assembled source top t t₁ r) (hchild : t.child n i = some e)
    (he : (t.kind e).isExpression = true) (hfilled : Filled t₁ t' n i e')
    (hparent : ∀ {m}, t.Has m → m ≠ e → t'.parent m = t₁.parent m)
    (hold : t'.parent e = none ∨ t'.parent e = some e') (hnew : ¬t.Has e')
    (he' : (t'.kind e').isExpression = true) (hmade : ∀ {b}, ¬t₁.Has b → t'.Has b → b = e')
    (hnovel : t.Novel (t'.kind e')) (hinside : ∀ {c}, some c ∈ t'.slots e' → t.Has c → c = e)
    (htyped : ∃ q, t'.expressionType e' = some q ∧ TypeFor t t' dst q) :
    Placed source top t t' n i e e' dst r where
  size_le := Nat.le_trans h.size_le hfilled.size_le
  kind hm := by rw [hfilled.kind (h.has hm), h.kind_eq hm]
  slots_of_ne hm hne := by rw [hfilled.slots_of_ne (h.has hm) hne, h.slots_eq hm]
  slots_self := by rw [hfilled.slots_self, h.slots_eq (has_of_child_eq hchild)]
  child := hchild
  isExpression := he
  new := hnew
  isExpression' := he'
  parent_of_ne hm hne := by rw [hparent hm hne, h.parent_eq hm]
  parent_old := hold
  copies := h.toReplicas.congr (fun hab ↦ Nat.lt_of_lt_of_le (h.present hab) hfilled.size_le)
    (fun hab ↦ hfilled.kind (h.present hab)) fun hab ↦
      hfilled.slots_of_ne (h.present hab) fun heq ↦ h.new hab (heq ▸ has_of_child_eq hchild)
  copy_source := h.source
  copy_held hab := (h.held hab).imp_right fun ⟨p, p', hp, hb⟩ ↦ by
    have hne : p' ≠ n := fun heq ↦ h.new hp (heq ▸ has_of_child_eq hchild)
    exact ⟨p, p', hp, by rwa [hfilled.slots_of_ne (h.present hp) hne]⟩
  novel {b} hb hb' := by
    by_cases hb₁ : t₁.Has b
    · rw [hfilled.kind hb₁]
      exact h.novel hb hb₁
    · rw [hmade hb₁ hb']
      exact .inr hnovel
  inside {b c} hb hc hhas := by
    by_cases hbe : b = e'
    · exact hinside (hbe ▸ hc) hhas
    · have hb₁ : t₁.Has b := by
        by_contra hb₁
        exact hbe (hmade hb₁ (has_of_mem_slots hc))
      rw [hfilled.slots_of_ne hb₁ fun heq ↦ hb (heq ▸ has_of_child_eq hchild)] at hc
      exact absurd hhas (h.inside hb hc)
  typed := htyped

theorem expressionType_of_coerced (hkind : t.kind e = .expression .coerced) :
    t.expressionType e = t.child e 1 := by
  unfold expressionType expressionTypeWithin
  simp only [hkind]

/-- A new literal takes the slot. -/
theorem placed_of_retype {rest : List (Option NodeId)} (h : Assembled source top t t₁ r) (ht : t.Coherent)
    (hchild : t.child n i = some e) (he : (t.kind e).isExpression = true) (hl : Piece t t₁ l)
    (hslots : t₁.slots l = some q :: rest) (htype : TypeFor t t₁ dst q)
    (hcreate : t₁.create (.expression .literal) [some l] location = .ok (e', t₂))
    (hset : t₂.setChild n i (some e') = .ok t') : Placed source top t t' n i e e' dst r := by
  have hnovel : t.Novel (.expression .literal) := trivial
  have h₂ := h.create (.single hl) hnovel hcreate
  have hpiece := piece_create h.toGrowth (.single hl) hcreate
  have hn := has_of_child_eq hchild
  have hchild₂ : t₂.child n i = some e := (child_congr (h₂.slots_eq hn) i).trans hchild
  have hkinds := sameKinds_setChild hset
  have hreslot := reslotted_setChild (h₂.coherent ht).toLinked hset (h₂.has hn) (by simpa using hpiece.has)
  rw [hchild₂] at hreslot
  have hkind' : t'.kind e' = .expression .literal := by
    rw [hkinds.kind_eq, kind_create_self hcreate]
  have hslots' : t'.slots e' = [some l] := by
    rw [hreslot.slots_ne e' fun heq ↦ hpiece.new (heq ▸ hn), slots_create_self hcreate]
  have hinside : ∀ {c}, some c ∈ t'.slots e' → t.Has c → c = e := fun hc hhas ↦ by
    rw [hslots'] at hc
    cases mem_singleton.1 hc
    exact absurd hhas hl.new
  refine h₂.placed hchild he ⟨Nat.le_of_eq hkinds.size_eq.symm, fun _ ↦ hkinds.kind_eq _,
    fun _ hne ↦ hreslot.slots_ne _ hne, ?_⟩ (fun {m} hm hne ↦ ?_) (.inl (hreslot.parent_of_out (by simp)))
    hpiece.new (by rw [hkind']; rfl) (fun hb hb' ↦ absurd ((hkinds.has_iff _).1 hb') hb)
    (by rw [hkind']; exact hnovel) hinside ⟨q, ?_, ?_⟩
  · rw [slots_setChild hset (h₂.has hn), Edited.putSlot_of_child hchild₂]
  · have hme : m ≠ e' := fun heq ↦ hpiece.new (heq ▸ hm)
    exact hreslot.parent_of_other (by simpa using hme) (by simpa using hne)
  · have hl' : t'.slots l = some q :: rest := by
      rw [hreslot.slots_ne l fun heq ↦ hl.new (heq ▸ hn), slots_create_of_has hcreate hl.has, hslots]
    rw [Coercion.expressionType_of_literal hkind' (child_eq_some_iff.2 (by rw [hslots']; rfl))]
    exact child_eq_some_iff.2 (by rw [hl']; rfl)
  · have hq : ¬t.Has q := h.inside hl.new (by rw [hslots]; exact mem_cons_self)
    refine htype.of_same ?_ (fun hm ↦ ?_) ?_
    · rw [hkinds.size_eq]
      exact (Refines.of_create hcreate).size_le
    · rw [hkinds.kind_eq, kind_create_of_has hcreate hm]
    · rw [hreslot.slots_ne q fun heq ↦ hq (heq ▸ hn), slots_create_of_has hcreate htype.has]

/-- An expression is taken out of its slot and put into a conversion, and that into the slot. -/
structure Wrapped (t t' : Tree) (n : NodeId) (i : Nat) (e q e' : NodeId) : Prop
    extends Filled t t' n i e' where
  new : ¬t.Has e'
  parent_of_ne : ∀ {m}, t.Has m → m ≠ e → m ≠ q → t'.parent m = t.parent m
  parent_old : t'.parent e = some e'
  made : ∀ {b}, ¬t.Has b → t'.Has b → b = e'
  kind_new : t'.kind e' = .expression .coerced
  slots_new : t'.slots e' = [some e, some q]

theorem wrapped_of_create (ht : t.Coherent) (hchild : t.child n i = some e) (hq : t.Has q) (hne : q ≠ e)
    (hset₁ : t.setChild n i none = .ok t₁)
    (hcreate : t₁.create (.expression .coerced) [some e, some q] location = .ok (e', t₂))
    (hset' : t₂.setChild n i (some e') = .ok t') : Wrapped t t' n i e q e' := by
  have hn := has_of_child_eq hchild
  have hehas := ht.has_of_child hchild
  have hlt := (List.getElem?_eq_some_iff.1 (child_eq_some_iff.1 hchild)).1
  -- out of the slot
  have hkinds₁ := sameKinds_setChild hset₁
  have hreslot₁ := reslotted_setChild ht.toLinked hset₁ hn (by simp)
  rw [hchild] at hreslot₁
  have hn₁ : t₁.Has n := (hkinds₁.has_iff n).2 hn
  -- into the conversion
  have hhas : ∀ c, some c ∈ [some e, some q] → t₁.Has c := by
    intro c hc
    rw [hkinds₁.has_iff]
    rcases mem_cons.1 hc with heq | hmem
    · cases heq
      exact hehas
    · cases mem_singleton.1 hmem
      exact hq
  have hnodup : ([some e, some q].filterMap id).Nodup := by simpa using hne.symm
  have hreslot₂ := reslotted_create hcreate hhas hnodup
  have ht₂ := coherent_create (hreslot₁.coherent_of_out ht) hcreate hhas hnodup
  have hn₂ := (Refines.of_create hcreate).has hn₁
  have hnew : ¬t.Has e' := fun hold ↦ not_has_create hcreate ((hkinds₁.has_iff e').2 hold)
  have hslots₂ : t₂.slots n = (t.slots n).set i none := by
    rw [slots_create_of_has hcreate hn₁, slots_setChild hset₁ hn, Edited.putSlot_of_child hchild]
  -- back into the slot
  have hkinds' := sameKinds_setChild hset'
  have hreslot' := reslotted_setChild ht₂.toLinked hset' hn₂ (by simpa using has_create hcreate)
  have hempty : t₂.child n i = none := by
    unfold Tree.child
    rw [hslots₂, getElem?_set_self hlt]
    rfl
  rw [hempty] at hreslot'
  have hfilled : Filled t t' n i e' := by
    refine ⟨?_, fun {m} hm ↦ ?_, fun {m} hm hmn ↦ ?_, ?_⟩
    · rw [hkinds'.size_eq, ← hkinds₁.size_eq]
      exact (Refines.of_create hcreate).size_le
    · rw [hkinds'.kind_eq, kind_create_of_has hcreate ((hkinds₁.has_iff m).2 hm), hkinds₁.kind_eq]
    · rw [hreslot'.slots_ne m hmn, slots_create_of_has hcreate ((hkinds₁.has_iff m).2 hm),
        hreslot₁.slots_ne m hmn]
    · rw [slots_setChild hset' hn₂, hslots₂]
      unfold putSlot
      rw [if_pos (by simpa using hlt), set_set]
  constructor
  case toFilled => exact hfilled
  case new => exact hnew
  case parent_of_ne =>
    intro m hm hme hmq
    have hme' : m ≠ e' := fun heq ↦ hnew (heq ▸ hm)
    rw [hreslot'.parent_of_other (by simpa using hme') (by simp),
      hreslot₂.parent_of_other (by simpa using ⟨hme, hmq⟩) (by simp),
      hreslot₁.parent_of_other (by simp) (by simpa using hme)]
  case parent_old =>
    have hee' : e ≠ e' := fun heq ↦ hnew (heq ▸ hehas)
    rw [hreslot'.parent_of_other (by simpa using hee') (by simp)]
    exact hreslot₂.parent_of_inn (by simp)
  case made =>
    intro b hb hb'
    by_contra hbe
    exact hb ((hkinds₁.has_iff b).1 (has_of_has_create hcreate ((hkinds'.has_iff b).1 hb') hbe))
  case kind_new => rw [hkinds'.kind_eq, kind_create_self hcreate]
  case slots_new => rw [hreslot'.slots_ne e' fun heq ↦ hnew (heq ▸ hn), slots_create_self hcreate]

/-- The old expression goes into a conversion to the type that was assembled. -/
theorem placed_of_wrap (h : Assembled source top t t₁ r) (hchild : t.child n i = some e)
    (he : (t.kind e).isExpression = true) (hq : Piece t t₁ q) (htype : TypeFor t t₁ dst q)
    (hwrapped : Wrapped t₁ t' n i e q e') : Placed source top t t' n i e e' dst r := by
  have hnovel : t.Novel (.expression .coerced) := trivial
  have hne : ∀ {m}, t.Has m → m ≠ q := fun hm heq ↦ hq.new (heq ▸ hm)
  have hinside : ∀ {c}, some c ∈ t'.slots e' → t.Has c → c = e := fun hc hold ↦ by
    rw [hwrapped.slots_new] at hc
    rcases mem_cons.1 hc with heq | hmem
    · exact Option.some.inj heq
    · cases mem_singleton.1 hmem
      exact absurd hold hq.new
  refine h.placed hchild he hwrapped.toFilled
    (fun hm hme ↦ hwrapped.parent_of_ne (h.has hm) hme (hne hm)) (.inr hwrapped.parent_old)
    (fun hold ↦ hwrapped.new (h.has hold)) (by rw [hwrapped.kind_new]; rfl) hwrapped.made
    (by rw [hwrapped.kind_new]; exact hnovel) hinside ⟨q, ?_, ?_⟩
  · rw [expressionType_of_coerced hwrapped.kind_new]
    exact child_eq_some_iff.2 (by rw [hwrapped.slots_new]; rfl)
  · exact htype.of_same hwrapped.size_le hwrapped.kind
      (hwrapped.slots_of_ne htype.has (hne (has_of_child_eq hchild)).symm)

end

end Tree

namespace Coercion

variable {source top p : NodeId → Prop} {w : Workspace} {n e old dst : NodeId} {i : Nat} {style : Style}
  {conversions : List Conversions} {stream : Stream}

/-- A coercion of the expression in slot `i` of `n` puts a new one there. -/
def Places (source top : NodeId → Prop) (t : Tree) (n : NodeId) (i : Nat) (e dst : NodeId) (t' : Tree) :
    Prop :=
  ∃ e' r, Placed source top t t' n i e e' dst r

theorem ensures_retype (hplain : PlainLiterals conversions) (ht : w.tree.Coherent)
    (htargets : Targets source top w.tree p) (hchild : w.tree.child n i = some e)
    (he : (w.tree.kind e).isExpression = true) (hold : w.tree.child e 0 = some old) (hdst : p dst)
    (hok : coerceLiteral conversions w.tree old dst style = .ok ())
    (hsource : ∀ a, w.tree.Within old a → source a) (htop : top old) :
    Ensures (apply stream e dst .retype) w fun _ w' ↦ Places source top w.tree n i e dst w'.tree := by
  obtain ⟨_, l, _, _, _, hl, -⟩ := literalRule_of_coerceLiteralWithin hplain hok
  refine ensures_tree_bind ?_
  rw [hold]
  refine Ensures.bind (q := fun l w₁ ↦ Remade source top w.tree dst l w₁.tree) (ensures_edit
    (ensures_get_bind (ensures_retypeWithin hplain ht htargets hl hsource htop hdst hok _))) ?_
  rintro l w₁ ⟨⟨r, hassembled⟩, hpiece, q, rest, hslots, htype⟩
  refine ensures_tree_bind (Ensures.bind (q := fun c w₂ ↦
    w₁.tree.create (.expression .literal) [some l] _ = .ok (c, w₂.tree))
    (ensures_edit (ensures_create_eq _ _ _)) ?_)
  intro new w₂ hcreate
  refine Ensures.bind (q := fun _ w₃ ↦ Places source top w.tree n i e dst w₃.tree) (ensures_replaceNode ?_)
    fun _ _ hw₃ ↦ ensures_pure hw₃
  intro t₃ _ hreplace
  obtain ⟨n', i', hparent, hchild', hset⟩ := replaceNode_eq_ok hreplace
  -- the slot is the one that holds the old expression
  have hgrowth := hassembled.toGrowth.create (.single hpiece) hcreate
  have hn := has_of_child_eq hchild
  rw [hgrowth.parent_eq (ht.has_of_child hchild), ht.parent_of_child hchild] at hparent
  cases hparent
  rw [child_congr (hgrowth.slots_eq hn)] at hchild'
  cases ht.index_unique hchild hchild'
  exact ⟨new, r, placed_of_retype hassembled ht hchild he hpiece hslots htype hcreate hset⟩

theorem ensures_wrap {u : NodeId} (ht : w.tree.Coherent) (hchild : w.tree.child n i = some e)
    (he : (w.tree.kind e).isExpression = true) (hu : w.tree.unqualified dst = some u)
    (hwanted : Wanted source top w.tree u) :
    Ensures (apply stream e dst .wrap) w fun _ w' ↦ Places source top w.tree n i e dst w'.tree := by
  refine ensures_tree_bind ?_
  split
  next n' i' hparent hindex =>
    cases (ht.parent_of_child hchild).symm.trans hparent
    cases ht.index_unique hchild (child_of_slotIndex hparent hindex)
    have hnothing := Assembled.nothing source top w.tree
    refine Ensures.bind (q := fun q w₁ ↦ (∃ r, Assembled source top w.tree w₁.tree r) ∧
      Growth w.tree w₁.tree ∧ Piece w.tree w₁.tree q ∧ TypeFor w.tree w₁.tree dst q)
      (ensures_edit (hnothing.ensures_targetType ht hu hwanted .mutable)) ?_
    rintro q w₁ ⟨⟨r, hassembled⟩, -, hpiece, htype⟩
    refine Ensures.bind (ensures_edit (p := fun _ w₂ ↦
      w₁.tree.setChild n i none = .ok w₂.tree) (ensures_update fun _ h ↦ h)) fun _ w₂ hset₂ ↦ ?_
    refine Ensures.bind (ensures_edit (p := fun c w₃ ↦
      w₂.tree.create _ _ _ = .ok (c, w₃.tree)) (ensures_create_eq _ _ _)) fun coerced w₃ hcreate ↦ ?_
    refine Ensures.bind (ensures_edit (p := fun _ w₄ ↦
      w₃.tree.setChild n i (some coerced) = .ok w₄.tree) (ensures_update fun _ h ↦ h)) fun _ w₄ hset₄ ↦ ?_
    have hgrowth := hassembled.toGrowth
    have hchild₁ := (child_congr (hgrowth.slots_eq (has_of_child_eq hchild)) i).trans hchild
    have hne : q ≠ e := fun heq ↦ hpiece.new (heq ▸ ht.has_of_child hchild)
    have hwrapped := wrapped_of_create (hgrowth.coherent ht) hchild₁ hpiece.has hne hset₂ hcreate hset₄
    have hplaces : Places source top w.tree n i e dst w₄.tree :=
      ⟨coerced, r, placed_of_wrap hassembled hchild he hpiece htype hwrapped⟩
    exact (Pass.safe_recordChangeTo fun _ ↦ hplaces).ensures.bind fun _ _ hw₅ ↦ ensures_pure hw₅
  · exact ensures_throw _

/-- What the sources and the destinations are like suffices for a coercion to be put in place. -/
theorem ensures_apply {c : Coercion} (hechoes : ∀ c ∈ conversions, c.Echoes) (ht : w.tree.Coherent)
    (htargets : Targets source top w.tree p) (hchild : w.tree.child n i = some e)
    (he : (w.tree.kind e).isExpression = true) (hdst : p dst)
    (hok : coerceExpression conversions w.tree e dst style = .ok c) (hne : c ≠ .unchanged)
    (hsource : ∀ a, w.tree.Within e a → source a) (htop : ∀ a, w.tree.parent a = some e → top a) :
    Ensures (apply stream e dst c) w fun _ w' ↦ Places source top w.tree n i e dst w'.tree := by
  have hplain : PlainLiterals conversions := fun c hc ↦ (hechoes c hc).literal
  cases c with
  | unchanged => exact absurd rfl hne
  | retype =>
    obtain ⟨src, -, -, -, -, -, ⟨old, -, hold, hliteral⟩ | htype⟩ := exists_of_coerceExpression hok hne
    · have hp := ht.parent_of_child hold
      exact ensures_retype hplain ht htargets hchild he hold hdst hliteral
        (fun a ha ↦ hsource a ((Within.of_parent hp).trans ha)) (htop old hp)
    · exact absurd htype (noRetype_coerceType conversions w.tree src dst style)
  | wrap =>
    obtain ⟨d, hd⟩ := exists_follow_of_coerceExpression hechoes hok hne
    obtain ⟨u, data, hu, hkind⟩ := unqualified_of_follow hd
    exact ensures_wrap ht hchild he hu (htargets.wanted hdst hu hkind)

end Coercion

end ProtocolIR
