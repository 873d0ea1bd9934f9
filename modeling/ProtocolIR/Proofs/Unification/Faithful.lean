import ProtocolIR.Proofs.Tree.Records
import ProtocolIR.Proofs.Unification.Written

/-!
# Faithful trees

A tree is faithful when every text that is recorded in it is allowed by the structure of its type.
Writing a type keeps to that: a text that is written is allowed, even where recorded texts are used
as they stand. And where no recorded text is used, and no enum is written by its labels, a type has
no other text than the one that is allowed.
-/

namespace ProtocolIR

open Option

/-- An enum that is written by its labels. -/
def TypeData.IsAnonymousEnum (data : TypeData) : Prop := data.ByMembers ∧ data.shape = .enumeration

namespace Tree

open TypeText

variable {t t' : Tree} {n u e : NodeId} {data : TypeData} {k : Nat} {x y : String}

/-! ## Texts are unique -/

theorem FollowsTo.unique {v : NodeId} {s s' : TypeShape} (h : t.FollowsTo n u s)
    (h' : t.FollowsTo n v s') : u = v ∧ s = s' := by
  induction h with
  | here hs hname =>
    cases h' with
    | here hs' => exact ⟨rfl, some.inj (hs.symm.trans hs')⟩
    | name hs' =>
      cases hs.symm.trans hs'
      exact absurd rfl hname
  | name hs hm _ ih =>
    cases h' with
    | here hs' hname =>
      cases hs.symm.trans hs'
      exact absurd rfl hname
    | name hs' hm' hf' =>
      cases hs.symm.trans hs'
      cases hm.symm.trans hm'
      exact ih hf'

theorem Element.unique {e' : NodeId} (h : t.Element n e) (h' : t.Element n e') : e = e' := by
  induction h with
  | list hv hf hc _ ih =>
    cases h' with
    | list hv' hf' hc' he' =>
      cases hv.symm.trans hv'
      obtain ⟨rfl, -⟩ := hf.unique hf'
      cases hc.symm.trans hc'
      exact ih he'
    | part hv' hf' hs' =>
      cases hv.symm.trans hv'
      obtain ⟨-, rfl⟩ := hf.unique hf'
      simp at hs'
  | part hv hf hs hc =>
    cases h' with
    | list hv' hf' =>
      cases hv.symm.trans hv'
      obtain ⟨-, rfl⟩ := hf.unique hf'
      simp at hs
    | part hv' hf' _ hc' =>
      cases hv.symm.trans hv'
      obtain ⟨rfl, -⟩ := hf.unique hf'
      exact some.inj (hc.symm.trans hc')

theorem declaredType_of_linkedType {resolved : Option Link} (h : t.linkedType resolved = some u) :
    ∃ link, resolved = some link ∧ t.declaredType link.node = some u := by
  obtain ⟨d, hd, hu⟩ := bind_eq_some_iff.1 h
  obtain ⟨link, hlink, hd⟩ := bind_eq_some_iff.1 hd
  obtain rfl := eq_of_linkTarget hd
  exact ⟨link, hlink, hu⟩

theorem followsTo_of_followWithin (h : t.followWithin k n = some u) : ∃ s, t.FollowsTo n u s := by
  induction k generalizing n with
  | zero => cases h
  | succ k ih =>
    unfold followWithin at h
    split at h
    · cases h
    next id resolved hs =>
      obtain ⟨m, hm, hu⟩ := bind_eq_some_iff.1 h
      obtain ⟨link, rfl, hlink⟩ := declaredType_of_linkedType hm
      obtain ⟨s, hs'⟩ := ih hu
      exact ⟨s, .name hs hlink hs'⟩
    next s hname hs =>
      cases h
      refine ⟨s, .here hs fun heq ↦ ?_⟩
      obtain ⟨id, resolved, rfl⟩ := exists_of_category_eq_name heq
      exact hname id resolved rfl

theorem exists_type_of_followWithin (h : t.followWithin k n = some u) :
    ∃ data, t.kind n = .type data := by
  obtain ⟨s, hf⟩ := followsTo_of_followWithin h
  cases hf with
  | here hs | name hs =>
    obtain ⟨data, hkind, -⟩ := shape?_eq_some_iff.1 hs
    exact ⟨data, hkind⟩

/-- What a container contains it contains by the links of names. -/
theorem element_of_elementTypeWithin (h : t.elementTypeWithin k n = some e) : t.Element n e := by
  induction k generalizing n with
  | zero => cases h
  | succ k ih =>
    obtain ⟨u, hu, h⟩ := bind_eq_some_iff.1 h
    obtain ⟨v, hv, hu⟩ := bind_eq_some_iff.1 hu
    obtain ⟨s, hf⟩ := followsTo_of_followWithin hu
    rw [hf.shape.1] at h
    split at h
    next heq =>
      cases heq
      obtain ⟨c, hc, h⟩ := bind_eq_some_iff.1 h
      exact .list hv hf hc (ih h)
    all_goals first
      | exact .part hv hf (by simp [← some.inj ‹some s = _›]) h
      | cases h

/-- The outline that a type may be written by is the one that it has. -/
theorem Outlined.eq_of_outline {o o' : Outline NodeId} (h : t.Outlined u data o)
    (ho' : t.outline u data = some o') : o = o' := by
  cases h with
  | other _ _ ho => exact some.inj (ho.symm.trans ho')
  | list hplain hlist he hp =>
    simp only [Tree.outline, hplain, hlist, Bool.false_eq_true, if_false] at ho'
    obtain ⟨e', he', ho'⟩ := bind_eq_some_iff.1 ho'
    obtain ⟨p', hp', ho'⟩ := bind_eq_some_iff.1 ho'
    cases ho'
    obtain rfl := he.unique (element_of_elementTypeWithin he')
    cases hp.symm.trans hp'
    rfl

/-- Where no text is recorded and no enum is written by its labels, a type is written by the text
that its structure allows. -/
theorem Written.eq_of_serializeWithin
    (hnone : ∀ n data, t.kind n = .type data → data.unification = none)
    (hclear : ∀ u data, t.Contains n u data → ¬data.IsAnonymousEnum) (hx : t.Written n x)
    (hy : t.serializeWithin k n = some y) : x = y := by
  induction k generalizing n x y with
  | zero =>
    obtain ⟨u, -, hy⟩ := bind_eq_some_iff.1 hy
    obtain ⟨data, hdata, hy⟩ := bind_eq_some_iff.1 hy
    rw [hnone u data (typeData?_eq_some_iff.1 hdata)] at hy
    cases hy
  | succ k ih =>
    obtain ⟨u, hu, hy⟩ := bind_eq_some_iff.1 hy
    obtain ⟨data, hdata, hy⟩ := bind_eq_some_iff.1 hy
    have hkind := typeData?_eq_some_iff.1 hdata
    simp only [hnone u data hkind] at hy
    cases hx with
    | name hu' hkind' hwildcard hshape hm hx =>
      cases hu.symm.trans hu'
      cases hkind.symm.trans hkind'
      simp only [serializeShape, hwildcard, hshape, Bool.false_eq_true, if_false] at hy
      obtain ⟨m, hm', hy⟩ := bind_eq_some_iff.1 hy
      obtain ⟨link, hlink, hm''⟩ := declaredType_of_linkedType hm'
      cases hlink
      cases hm.symm.trans hm''
      refine ih (fun v data' hv ↦ hclear v data' ?_) hx hy
      exact .name hu hdata hwildcard hshape hm' hv
    | enumeration hu' hkind' hmembers hshape =>
      cases hu.symm.trans hu'
      cases hkind.symm.trans hkind'
      exact absurd ⟨hmembers, hshape⟩ (hclear u data (.itself hu hdata))
    | @outline _ _ _ _ o o' r hu' hkind' ho halike hparts htext =>
      cases hu.symm.trans hu'
      cases hkind.symm.trans hkind'
      have hname : data.wildcard = true ∨ data.shape.category ≠ .name := by
        by_contra hnot
        obtain ⟨hwildcard, hname⟩ := not_or.1 hnot
        obtain ⟨id, resolved, hshape⟩ := exists_of_category_eq_name (not_not.1 hname)
        cases ho with
        | list _ hlist => simp [hshape] at hlist
        | other _ _ ho => simp [Tree.outline, hwildcard, hshape] at ho
      obtain ⟨o₂, ho₂, o₂', halike₂, htext₂⟩ := writesOutline_shape hname hy
      obtain rfl := ho.eq_of_outline ho₂
      -- the texts of its parts are the same, one by one
      have hsame : o'.Alike (· = ·) o₂' := by
        have hin : o.Alike (fun m x ↦ (∃ p ∈ o.parts, p.type? = some m) ∧ r m x) o' :=
          halike.mono fun p hp m x hm hx ↦ ⟨⟨p, hp, hm⟩, hx⟩
        refine (hin.swap.common halike₂.swap).mono ?_
        rintro - - a b - ⟨m, ⟨⟨p, hp, hm⟩, ha⟩, hb⟩
        exact ih (fun v data' hv ↦ hclear v data' (.part hu hdata ho₂ hp hm hv)) (hparts m a ha) hb
      rw [hsame.eq] at htext
      exact String.toList_injective (htext.trans htext₂.symm)

/-! ## Trees that differ in texts only -/

/-- The tree without the texts that are recorded in it. -/
def forgetTexts (t : Tree) : Tree :=
  { t with nodes := t.nodes.map fun data ↦ { data with kind := data.kind.forgetText } }

theorem node_forgetTexts (t : Tree) (n : NodeId) :
    t.forgetTexts.node n = { t.node n with kind := (t.kind n).forgetText } := by
  unfold forgetTexts kind node
  rw [Array.getElem?_map]
  cases t.nodes[n.index]? <;> rfl

theorem kind_forgetTexts (t : Tree) (n : NodeId) : t.forgetTexts.kind n = (t.kind n).forgetText :=
  congrArg Node.kind (node_forgetTexts t n)

theorem retold_forgetTexts (t : Tree) : Retold t t.forgetTexts where
  size_eq := Array.size_map
  exists_text n := ⟨none, by rw [kind_forgetTexts]; cases t.kind n <;> rfl⟩
  slots_eq := by
    funext n
    unfold slots
    rw [node_forgetTexts]
  parent_eq := by
    funext n
    unfold parent
    rw [node_forgetTexts]

namespace Retold

variable (h : Retold t t')

include h

theorem kind_of_type (hn : t.kind n = .type data) :
    ∃ text, t'.kind n = .type { data with unification := text } := by
  obtain ⟨text, heq⟩ := h.exists_text n
  exact ⟨text, by rw [heq, hn]; rfl⟩

/-- What is not a type is the same. -/
theorem kind_of_not_type (hn : ∀ data, t.kind n ≠ .type data) : t'.kind n = t.kind n := by
  obtain ⟨text, heq⟩ := h.exists_text n
  rw [heq]
  cases hkind : t.kind n with
  | type data => exact absurd hkind (hn data)
  | _ => rfl

/-- Texts are no part of a structure. -/
theorem carries : Carries t t' Eq where
  same _ := rfl
  type := by
    rintro a _ data rfl hkind
    obtain ⟨text, hkind'⟩ := h.kind_of_type hkind
    exact ⟨_, hkind', .same _, rfl, .refl _, fun _ ↦ rfl⟩
  qualified := by
    rintro a _ q rfl hkind
    rw [h.kind_of_not_type (by simp [hkind]), hkind]
  declaration := by
    rintro a _ d rfl hkind
    exact ⟨d, by rw [h.kind_of_not_type (by simp [hkind]), hkind], rfl, rfl, .refl _, .same _⟩
  inert := by
    rintro a _ rfl ⟨htype, hdecl⟩
    rw [h.kind_of_not_type fun data hkind ↦ htype (isType_iff.2 (.inl ⟨data, hkind⟩))]
    exact ⟨htype, hdecl⟩
  slots := by
    rintro a _ rfl - -
    rw [h.slots_eq, List.forall₂_same]
    rintro (_ | c) -
    · exact .none
    · exact .some rfl
  held := by
    rintro a _ c d rfl - hc - -
    exact ⟨c, by rw [h.child_eq, hc], rfl⟩
  undeclared := by
    rintro a _ data rfl - hnot ⟨d, hd⟩
    exact hnot ⟨d, by rw [← h.declaredType_eq, hd]⟩
  label := by
    rintro a _ p d value isImplicit owner rfl - - - hkind hlabel
    exact ⟨d, owner, by rw [h.kind_of_not_type (by simp [hkind]), hkind], rfl, hlabel⟩

end Retold

/-! ## Faithful trees -/

/-- The recorded texts are allowed, and they can stay so: what is declared without a qualification
has its type ID, and a type that is still to be inferred is no wildcard. -/
structure Faithful (t : Tree) : Prop where
  written : ∀ {n data x}, t.kind n = .type data → data.unification = some x → t.Written n x
  stamped : ∀ {d u data}, (t.kind d).isTypeDeclaration = true → t.child d 0 = some u →
    t.kind u = .type data → data.shape.category.isCompound = true → data.typeId ≠ none
  plain : t.PlainAuto

/-- A type that is written by its members is not declared. -/
theorem Faithful.not_declared {write : NodeId → Option String} (hf : t.Faithful) (ht : t.Linked)
    (hkind : t.kind u = .type data) (hmembers : data.ByMembers)
    (h : serializeShape t write u data = some x) : ¬t.Declared u := by
  have hisDeclared : t.isDeclared u = false := by
    obtain ⟨shape, wildcard, unification, typeId⟩ := data
    obtain ⟨rfl, hcompound, rfl⟩ := hmembers
    by_contra hdeclared
    cases shape with
    | enumeration | struct | union | unit =>
      simp [serializeShape, serializeCompound, hdeclared] at h
    | _ => cases hcompound
  rintro ⟨d, hd⟩
  obtain ⟨hdecl, c, hc, hu⟩ := declaredType_eq_some_iff.1 hd
  obtain ⟨data', hkind', rfl⟩ | ⟨q, -, hu⟩ := unqualified_cases hu
  · exact hf.stamped hdecl hc hkind hmembers.2.1 hmembers.2.2
  · simp [isDeclared, ht.parent_of_child hu, ht.parent_of_child hc, hdecl] at hisDeclared

/-- What is written is allowed, with recorded texts used as they stand. -/
theorem Faithful.written_of_serializeWithin (hf : t.Faithful) (ht : t.Linked)
    (h : t.serializeWithin k n = some x) : t.Written n x := by
  induction k generalizing n x with
  | zero =>
    obtain ⟨u, hu, h⟩ := bind_eq_some_iff.1 h
    obtain ⟨data, hdata, h⟩ := bind_eq_some_iff.1 h
    have hkind := typeData?_eq_some_iff.1 hdata
    exact (hf.written hkind h).of_unqualified hu hkind
  | succ k ih =>
    obtain ⟨u, hu, h⟩ := bind_eq_some_iff.1 h
    obtain ⟨data, hdata, h⟩ := bind_eq_some_iff.1 h
    have hkind := typeData?_eq_some_iff.1 hdata
    split at h
    next text htext =>
      cases h
      exact (hf.written hkind htext).of_unqualified hu hkind
    · by_cases hname : data.wildcard = true ∨ data.shape.category ≠ .name
      · obtain ⟨o, ho, o', halike, htext⟩ := writesOutline_shape hname h
        have hdeclared (hmembers : data.ByMembers) := hf.not_declared ht hkind hmembers h
        have hwritten (houtlined : t.Outlined u data o) : t.Written n x :=
          .outline hu hkind houtlined halike (fun m y hy ↦ ih hy) htext
        by_cases henum : data.IsAnonymousEnum
        · exact .enumeration hu hkind henum.1 henum.2 (hdeclared henum.1)
        · by_cases hlist : data.wildcard = true ∨ data.shape ≠ .list
          · exact hwritten (.other hlist
              (fun hmembers ↦ ⟨fun hshape ↦ henum ⟨hmembers, hshape⟩, hdeclared hmembers⟩) ho)
          · obtain ⟨hwildcard, hlist⟩ := not_or.1 hlist
            rw [Bool.not_eq_true] at hwildcard
            rw [not_not] at hlist
            simp only [Tree.outline, hwildcard, hlist, Bool.false_eq_true, if_false] at ho
            obtain ⟨e, he, ho⟩ := bind_eq_some_iff.1 ho
            obtain ⟨p, hp, ho⟩ := bind_eq_some_iff.1 ho
            cases ho
            exact hwritten (.list hwildcard hlist (element_of_elementTypeWithin he) hp)
      · obtain ⟨hwildcard, hname⟩ := not_or.1 hname
        obtain ⟨id, resolved, hshape⟩ := exists_of_category_eq_name (not_not.1 hname)
        rw [Bool.not_eq_true] at hwildcard
        simp only [serializeShape, hwildcard, hshape, Bool.false_eq_true, if_false] at h
        obtain ⟨m, hm, hx⟩ := bind_eq_some_iff.1 h
        obtain ⟨link, rfl, hlink⟩ := declaredType_of_linkedType hm
        exact .name hu hkind hwildcard hshape hlink (ih hx)

/-- In a faithful tree a recorded text is the one that the type would have without any recorded
texts, if it would have one and no enum is written by its labels. -/
theorem Faithful.eq_of_serialize_forgetTexts (hf : t.Faithful) (hkind : t.kind n = .type data)
    (hx : data.unification = some x)
    (hclear : ∀ u data', t.forgetTexts.Contains n u data' → ¬data'.IsAnonymousEnum)
    (hy : t.forgetTexts.serialize n = some y) : x = y := by
  have hretold := retold_forgetTexts t
  have hwritten := hretold.carries.written hf.plain (hf.written hkind hx) rfl
  refine hwritten.eq_of_serializeWithin (fun m data' hm ↦ ?_) hclear hy
  rw [kind_forgetTexts] at hm
  cases hkind' : t.kind m with
  | type data'' =>
    rw [hkind'] at hm
    cases hm
    rfl
  | _ =>
    rw [hkind'] at hm
    cases hm

end Tree

end ProtocolIR
