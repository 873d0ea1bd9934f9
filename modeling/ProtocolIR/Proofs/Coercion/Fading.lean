import ProtocolIR.FrontEnd.Base
import ProtocolIR.FrontEnd.Units
import ProtocolIR.Proofs.Coercion.Echo

/-!
# Coercions in an echo

A conversion that a later tree asks for was asked for in the tree it echoes. It need not be the
same one: a literal that was made anew before may have lost a link on its way and be wrapped now.
-/

namespace ProtocolIR

open Tree List Option

/-- The answers of a front end are about units that become references, and come from what an echo
shows. -/
structure Conversions.Echoes (c : Conversions) : Prop where
  literal : ∀ t n dst style, c.literal t n dst style = none
  type : ∀ {t t' : Tree} {r : NodeId → NodeId → Prop} {x x' y y' style answer}, Echo t t' r → r x x' →
    r y y' → c.type t' x' y' style = some answer → answer = .ok () ∧ c.type t x y style = some answer
  unit : ∀ {t x y style answer}, c.type t x y style = some answer → answer = .ok () ∧
    ∃ s d, t.follow x = some s ∧ t.shape? s = some .unit ∧ t.follow y = some d ∧
      (t.shape? d = some .valueRef ∨ t.shape? d = some .strongRef)

namespace Coercion

variable {t t' : Tree} {r : NodeId → NodeId → Prop} {x x' y y' s s' d d' l l' e e' : NodeId}
  {style : Style} {conversions : List Conversions} {c : Coercion} {data : TypeData}
  {recurse : NodeId → NodeId → Except NoMatch Coercion} {literal : Literal}

/-- What a type means is no name. -/
theorem exists_data_of_follow (h : t.follow x = some s) :
    ∃ data, t.kind s = .type data ∧ ∀ id resolved, data.shape ≠ .name id resolved := by
  obtain ⟨u, -, h⟩ := bind_eq_some_iff.1 h
  obtain ⟨shape, hf⟩ := followsTo_of_followWithin h
  obtain ⟨hshape, hname⟩ := hf.shape
  obtain ⟨data, hkind, rfl⟩ := shape?_eq_some_iff.1 hshape
  exact ⟨data, hkind, fun id resolved heq ↦ hname (by rw [heq]; rfl)⟩

theorem isExpression_of_follow (h : t.follow x = some s) : (t.kind x).isExpression = false := by
  obtain ⟨u, hu, -⟩ := bind_eq_some_iff.1 h
  exact isExpression_of_unqualified hu

/-- A type that is no name has its text on record. -/
theorem exists_text_of_data (h : Echo t t' r) (hr : r s s') (hkind : t.kind s = .type data)
    (hname : ∀ id resolved, data.shape ≠ .name id resolved) :
    ∃ text, t.serialize s = some text ∧ t'.serialize s' = some text := by
  have hkind' : t'.kind s' = .type data := by rw [h.kind hr, hkind]
  exact h.exists_serialize hr (unqualified_of_type hkind') hkind' fun id _ _ _ hshape ↦
    absurd hshape (hname id _)

/-- Whether two types that are no names are equal does not change. -/
theorem typesEqual_eq_of_follow (h : Echo t t' r) (hs : r s s') (hd : r d d') (hfollow : t.follow x = some s)
    (hfollow' : t.follow y = some d) : t'.typesEqual s' d' = t.typesEqual s d := by
  obtain ⟨data, hkind, hname⟩ := exists_data_of_follow hfollow
  obtain ⟨data', hkind', hname'⟩ := exists_data_of_follow hfollow'
  obtain ⟨text, htext, htext'⟩ := exists_text_of_data h hs hkind hname
  obtain ⟨other, hother, hother'⟩ := exists_text_of_data h hd hkind' hname'
  rw [typesEqual_of_serialize hother, typesEqual_of_serialize hother', htext, htext']

/-! ## Types -/

/-- The rules know no way from a unit to a reference. -/
theorem typeRule_of_unit {target : TypeShape} (htarget : target = .valueRef ∨ target = .strongRef) :
    typeRule t style recurse s d .unit target = .error .noRule := by
  unfold typeRule
  rcases htarget with rfl | rfl
  · simp
  · simp

section

variable (hechoes : ∀ c ∈ conversions, c.Echoes)

include hechoes

/-- What a front end takes over later it took over before. -/
theorem findSome?_type_echo (h : Echo t t' r) (hx : r x x') (hy : r y y')
    {answer : Except NoMatch Unit}
    (hanswer : (conversions.findSome? fun c ↦ c.type t' x' y' style) = some answer) :
    answer = .ok () ∧ (conversions.findSome? fun c ↦ c.type t x y style) = some (.ok ()) := by
  obtain ⟨c, hc, hanswer⟩ := exists_of_findSome?_eq_some hanswer
  obtain ⟨rfl, hanswer⟩ := (hechoes c hc).type h hx hy hanswer
  refine ⟨rfl, ?_⟩
  cases hfound : conversions.findSome? fun c ↦ c.type t x y style with
  | none =>
    rw [findSome?_eq_none_iff.1 hfound c hc] at hanswer
    cases hanswer
  | some answer =>
    obtain ⟨c, hc, hfound⟩ := exists_of_findSome?_eq_some hfound
    rw [((hechoes c hc).unit hfound).1]

/-- What a front end takes over, units for references, is left to no rule. -/
theorem typeRule_of_findSome? {source target : TypeData} (hs : t.follow x = some s)
    (hsource : t.kind s = .type source) (hd : t.follow y = some d)
    (htarget : t.kind d = .type target) {answer : Except NoMatch Unit}
    (hanswer : (conversions.findSome? fun c ↦ c.type t x y style) = some answer) :
    source.shape.sameCategory target.shape = false ∧
      typeRule t' style recurse s' d' source.shape target.shape = .error .noRule := by
  obtain ⟨c, hc, hanswer⟩ := exists_of_findSome?_eq_some hanswer
  obtain ⟨-, s₁, d₁, hs₁, hunit, hd₁, href⟩ := (hechoes c hc).unit hanswer
  cases hs.symm.trans hs₁
  cases hd.symm.trans hd₁
  rw [shape?_of_type hsource, some.injEq] at hunit
  rw [shape?_of_type htarget, some.injEq, some.injEq] at href
  rw [hunit]
  refine ⟨?_, typeRule_of_unit href⟩
  rcases href with href | href
  · rw [href]; rfl
  · rw [href]; rfl

theorem coerceTypeWithin_echo (h : Echo t t' r) (fuel : Nat) (hx : r x x') (hy : r y y') :
    Below (coerceTypeWithin conversions t' style fuel x' y')
      (coerceTypeWithin conversions t style fuel x y) := by
  induction fuel generalizing x x' y y' with
  | zero => exact .of_error _ _
  | succ fuel ih =>
    unfold coerceTypeWithin
    by_cases hresolved : t'.isResolved x' = true ∧ t'.isResolved y' = true
    · rw [hresolved.1, hresolved.2, h.isResolved hx hresolved.1, h.isResolved hy hresolved.2]
      simp only [Bool.not_true, Bool.or_false, Bool.false_eq_true, if_false]
      cases hs' : t'.follow x' with
      | none => exact .of_error _ _
      | some s' =>
        cases hd' : t'.follow y' with
        | none => exact .of_error _ _
        | some d' =>
          obtain ⟨s, hs, hrs⟩ := h.exists_follow hx hs'
          obtain ⟨d, hd, hrd⟩ := h.exists_follow hy hd'
          obtain ⟨source, hsource, -⟩ := exists_data_of_follow hs
          obtain ⟨target, htarget, -⟩ := exists_data_of_follow hd
          have hequal := typesEqual_eq_of_follow h hrs hrd hs hd
          simp only [hs, hd, hequal, h.typeData?_eq hrs, h.typeData?_eq hrd,
            typeData?_eq_some_iff.2 hsource, typeData?_eq_some_iff.2 htarget]
          split
          · exact .refl _
          split
          · exact .refl _
          have hrule : Below (typeRule t' style _ s' d' source.shape target.shape)
              (typeRule t style _ s d source.shape target.shape) :=
            typeRule_below h.typesEqual ih hrs hrd (h.slot hrs (by rw [hsource]; trivial))
              (h.slot hrd (by rw [htarget]; trivial))
              (h.children hrs fun _ ↦ by rw [hsource]; trivial)
              (h.children hrd fun _ ↦ by rw [htarget]; trivial) _ _
          cases hanswer' : conversions.findSome? fun c ↦ c.type t' x' y' style with
          | some answer' =>
            obtain ⟨rfl, hanswer⟩ := findSome?_type_echo hechoes h hx hy hanswer'
            rw [hanswer]
            exact .refl _
          | none =>
            cases hanswer : conversions.findSome? fun c ↦ c.type t x y style with
            | none =>
              dsimp only
              split
              · exact .refl _
              · exact hrule
            | some answer =>
              obtain ⟨hcategory, hnone⟩ := typeRule_of_findSome? hechoes hs hsource hd htarget hanswer
              rw [hcategory, hnone]
              simp only [Bool.and_false, Bool.false_and, Bool.false_eq_true, if_false]
              exact .of_error _ _
    · have hnot : (!t'.isResolved x' || !t'.isResolved y') = true := by grind
      rw [if_pos hnot]
      exact .of_error _ _

/-- A conversion of types that is asked for later was asked for before. -/
theorem coerceType_echo (hsteady : Steady conversions) (h : Echo t t' r) (hx : r x x') (hy : r y y') :
    Below (coerceType conversions t' x' y' style) (coerceType conversions t x y style) := by
  have hsize := Nat.succ_le_succ h.size_le
  refine (coerceTypeWithin_echo hechoes h _ hx hy).trans (.of_toOption_eq ?_)
  exact coerceTypeWithin_eq hsteady (.refl h.rooted) style (Nat.mul_le_mul hsize hsize) (h.has hx)
    (h.has hy)

end

/-! ## Literals -/

theorem coerceLiteralWithin_echo (hechoes : ∀ c ∈ conversions, c.Echoes) (h : Echo t t' r) (fuel : Nat)
    (hl : r l l') (hy : r y y') :
    Below (coerceLiteralWithin conversions t' style l' fuel y')
      (coerceLiteralWithin conversions t style l fuel y) := by
  have hnone : ∀ t l y, (conversions.findSome? fun c ↦ c.literal t l y style) = none :=
    fun t l y ↦ findSome?_eq_none_iff.2 fun c hc ↦ (hechoes c hc).literal t l y style
  induction fuel generalizing y y' with
  | zero => exact .of_error _ _
  | succ fuel ih =>
    unfold coerceLiteralWithin
    rw [hnone, hnone, h.literal?_eq hl]
    dsimp only
    cases hliteral : t.literal? l with
    | none => exact .refl _
    | some literal =>
      have hkind := literal?_eq_some_iff.1 hliteral
      dsimp only
      cases hd' : t'.follow y' with
      | none => exact .of_error _ _
      | some d' =>
        obtain ⟨d, hd, hrd⟩ := h.exists_follow hy hd'
        obtain ⟨target, htarget, -⟩ := exists_data_of_follow hd
        simp only [hd, h.shape?_eq hrd, shape?_eq_some_iff.2 ⟨target, htarget, rfl⟩]
        exact literalRule_below h.typesEqual ih (h.length hl)
          (fun _ ↦ h.slot hl (by rw [hkind]; trivial)) (h.slot hrd (by rw [htarget]; trivial)) _ _

theorem coerceLiteral_echo (hechoes : ∀ c ∈ conversions, c.Echoes) (hsteady : Steady conversions)
    (h : Echo t t' r) (hl : r l l') (hy : r y y') :
    Below (coerceLiteral conversions t' l' y' style) (coerceLiteral conversions t l y style) := by
  refine (coerceLiteralWithin_echo hechoes h _ hl hy).trans (.of_toOption_eq ?_)
  exact coerceLiteralWithin_eq hsteady (.refl h.rooted) style (Nat.succ_le_succ h.size_le) (h.has hl)
    (h.has hy)

/-! ## Expressions -/

theorem expressionType_of_literal (hkind : t.kind e = .expression .literal) (hl : t.child e 0 = some l) :
    t.expressionType e = t.child l 0 := by
  unfold expressionType expressionTypeWithin
  simp only [hkind, hl, bind_some]

theorem exists_follow_of_coerceType (h : coerceType conversions t x y style = .ok c) :
    ∃ s d, t.follow x = some s ∧ t.follow y = some d := by
  obtain ⟨fuel, hfuel⟩ : ∃ fuel, (t.size + 1) * (t.size + 1) = fuel + 1 :=
    Nat.exists_eq_succ_of_ne_zero (by simp)
  unfold coerceType at h
  rw [hfuel] at h
  unfold coerceTypeWithin at h
  split at h
  · cases h
  split at h
  next s d hs hd => exact ⟨s, d, hs, hd⟩
  · cases h

/-- What can be done about an expression: its literal is made anew, or its type is converted. -/
def HasWay (conversions : List Conversions) (t : Tree) (e src y : NodeId) (style : Style) (c : Coercion) : Prop :=
  (∃ l, t.kind e = .expression .literal ∧ t.child e 0 = some l ∧
      coerceLiteral conversions t l y style = .ok ()) ∨
    coerceType conversions t src y style = .ok c

/-- What was found out about an expression before something is done to it. -/
theorem exists_of_coerceExpression (h : coerceExpression conversions t e y style = .ok c)
    (hne : c ≠ .unchanged) :
    ∃ src, t.expressionType e = some src ∧ t.isResolved src = true ∧ t.isResolved y = true ∧
      t.typesEqual src y = false ∧ keepsType t src y style = false ∧
        HasWay conversions t e src y style c := by
  unfold coerceExpression at h
  split at h
  · cases h
  next src hsrc =>
    split at h
    · cases h
    next hresolved =>
      simp only [Bool.or_eq_true_iff, Bool.not_eq_true', not_or, Bool.not_eq_false] at hresolved
      split at h
      · cases h
        exact absurd rfl hne
      next hequal =>
        split at h
        · cases h
          exact absurd rfl hne
        next hkeeps =>
          refine ⟨src, hsrc, hresolved.1, hresolved.2, Bool.eq_false_iff.2 hequal,
            Bool.eq_false_iff.2 hkeeps, ?_⟩
          dsimp only at h
          cases hl : (if t.kind e == .expression .literal then t.child e 0 else none) with
          | none =>
            rw [hl] at h
            exact .inr h
          | some l =>
            rw [hl, map_some] at h
            split at hl
            next hkind =>
              split at h
              next hnone => cases hnone
              next hok => exact .inl ⟨l, eq_of_beq hkind, hl, some.inj hok⟩
              · refine .inr ?_
                cases htype : coerceType conversions t src y style with
                | ok => rw [htype] at h; exact h
                | error => rw [htype] at h; cases h
            · cases hl

/-- The findings make for something to be done. -/
theorem exists_coerceExpression {src : NodeId} (hsrc : t.expressionType e = some src)
    (hresolved : t.isResolved src = true) (hresolved' : t.isResolved y = true)
    (hequal : t.typesEqual src y = false) (hkeeps : keepsType t src y style = false)
    (hway : HasWay conversions t e src y style c) (hne : c ≠ .unchanged) :
    ∃ c', coerceExpression conversions t e y style = .ok c' ∧ c' ≠ .unchanged := by
  unfold coerceExpression
  simp only [hsrc, hresolved, hresolved', hequal, hkeeps, Bool.not_true, Bool.or_false,
    Bool.false_eq_true, if_false]
  cases hl : (if t.kind e == .expression .literal then t.child e 0 else none) with
  | none =>
    rcases hway with ⟨l, hkind, hchild, -⟩ | htype
    · rw [hkind, if_pos (by simp), hchild] at hl
      cases hl
    · exact ⟨c, htype, hne⟩
  | some l =>
    simp only [map_some]
    cases hliteral : coerceLiteral conversions t l y style with
    | ok => exact ⟨.retype, rfl, by simp⟩
    | error refusal =>
      rcases hway with ⟨l', hkind, hchild, hok⟩ | htype
      · rw [hkind, if_pos (by simp), hchild] at hl
        cases hl
        rw [hok] at hliteral
        cases hliteral
      · refine ⟨c, ?_, hne⟩
        rw [htype]
        rfl

theorem keepsType_echo (h : Echo t t' r) (hx : r x x') (hy : r y y') (hd : t'.follow y' = some d')
    (hresolved : t'.isResolved x' = true) (hkeeps : keepsType t x y style = true) :
    keepsType t' x' y' style = true := by
  obtain ⟨d, hd₁, hrd⟩ := h.exists_follow hy hd
  unfold keepsType at hkeeps ⊢
  cases hsource : t.followedShape x with
  | none => rw [hsource] at hkeeps; cases hkeeps
  | some source =>
    obtain ⟨s, hs, hshape⟩ := bind_eq_some_iff.1 hsource
    obtain ⟨s', hs', hrs⟩ := h.exists_follow_of_isResolved hx hs hresolved
    have hsource' : t'.followedShape x' = some source :=
      bind_eq_some_iff.2 ⟨s', hs', by rw [h.shape?_eq hrs, hshape]⟩
    rw [hsource, hd₁, bind_some] at hkeeps
    rw [hsource', hd, bind_some, h.typeData?_eq hrd]
    exact hkeeps

/-- Where something is to be done about an expression later, something was to be done before. -/
theorem coerceExpression_echo (hechoes : ∀ c ∈ conversions, c.Echoes) (hsteady : Steady conversions)
    (h : Echo t t' r) (he : r e e') (hy : r y y')
    (hok : coerceExpression conversions t' e' y' style = .ok c) (hne : c ≠ .unchanged) :
    ∃ c', coerceExpression conversions t e y style = .ok c' ∧ c' ≠ .unchanged := by
  obtain ⟨src', hsrc', hresolved, hresolved', hequal, hkeeps, hway⟩ := exists_of_coerceExpression hok hne
  have hrelated : ∃ src d', t.expressionType e = some src ∧ r src src' ∧ t'.follow y' = some d' ∧
      HasWay conversions t e src y style c := by
    rcases hway with ⟨l', hkind, hl', hliteral⟩ | htype
    · rw [h.kind he] at hkind
      obtain ⟨l, hl, hrl⟩ := exists_of_rel_some (h.slot he (by rw [hkind]; rfl)) hl'
      obtain ⟨_, literal, d', _, -, hkindl, hd', -⟩ :=
        literalRule_of_coerceLiteralWithin (fun c hc ↦ (hechoes c hc).literal) hliteral
      rw [expressionType_of_literal (by rw [h.kind he, hkind]) hl'] at hsrc'
      rw [literal?_eq_some_iff, h.kind hrl] at hkindl
      obtain ⟨src, hsrc, hrsrc⟩ := exists_of_rel_some (h.slot hrl (by rw [hkindl]; trivial)) hsrc'
      refine ⟨src, d', ?_, hrsrc, hd', .inl ⟨l, hkind, hl, ?_⟩⟩
      · rw [expressionType_of_literal hkind hl, hsrc]
      · exact coerceLiteral_echo hechoes hsteady h hrl hy _ hliteral
    · obtain ⟨s', d', hs', hd'⟩ := exists_follow_of_coerceType htype
      obtain ⟨src, hsrc, hrsrc⟩ := h.exists_expressionType he hsrc' (isExpression_of_follow hs')
      exact ⟨src, d', hsrc, hrsrc, hd', .inr (coerceType_echo hechoes hsteady h hrsrc hy _ htype)⟩
  obtain ⟨src, d', hsrc, hrsrc, hd', hway⟩ := hrelated
  obtain ⟨text, htext⟩ := h.exists_serialize_of_follow hy hd'
  refine exists_coerceExpression hsrc (h.isResolved hrsrc hresolved) (h.isResolved hy hresolved') ?_ ?_ hway hne
  · refine Bool.eq_false_iff.2 fun htrue ↦ ?_
    rw [h.typesEqual_of_isResolved hrsrc hy htext htrue hresolved] at hequal
    cases hequal
  · refine Bool.eq_false_iff.2 fun htrue ↦ ?_
    rw [keepsType_echo h hrsrc hy hd' hresolved htrue] at hkeeps
    cases hkeeps

/-! ## Conditions -/

/-- A condition needs nothing: it is a truth value, or nothing makes it one. -/
def Met (t : Tree) (e : NodeId) : Prop :=
  (t.expressionType e).bind t.followedShape = some .bool ∨
    ∀ c, conditionAnswer t e = some c → c = .unchanged

theorem exists_follow_of_conditionOfType (h : conditionOfType t x = some c) : ∃ s, t.follow x = some s := by
  obtain ⟨s, hs, -⟩ := bind_eq_some_iff.1 h
  exact ⟨s, hs⟩

theorem conditionOfType_echo (h : Echo t t' r) (hx : r x x') (hc : conditionOfType t' x' = some c) :
    conditionOfType t x = some c := by
  obtain ⟨s', hs', hc⟩ := bind_eq_some_iff.1 hc
  obtain ⟨s, hs, hrs⟩ := h.exists_follow hx hs'
  obtain ⟨data, hkind, hname⟩ := exists_data_of_follow hs
  obtain ⟨text, htext, htext'⟩ := exists_text_of_data h hrs hkind hname
  refine bind_eq_some_iff.2 ⟨s, hs, ?_⟩
  rw [htext', h.typeData?_eq hrs] at hc
  rw [htext]
  exact hc

/-- The literal of a literal expression. -/
theorem literal_eq_of_echo (h : Echo t t' r) (he : r e e') :
    (if t'.kind e' == .expression .literal then t'.child e' 0 else none).bind t'.literal? =
      (if t.kind e == .expression .literal then t.child e 0 else none).bind t.literal? := by
  rw [h.kind he]
  split
  next hkind =>
    have hslot := h.slot (i := 0) he (by rw [eq_of_beq hkind]; rfl)
    generalize t.child e 0 = part, t'.child e' 0 = part' at hslot
    cases hslot with
    | none => rfl
    | some hl => exact h.literal?_eq hl
  · rfl

/-- The type of what becomes a condition. -/
theorem exists_expressionType_of_condition (h : Echo t t' r) (he : r e e') {src' : NodeId}
    (hsrc' : t'.expressionType e' = some src')
    (hway : (∃ literal,
        (if t'.kind e' == .expression .literal then t'.child e' 0 else none).bind t'.literal? =
          some literal) ∨ ∃ s', t'.follow src' = some s') :
    ∃ src, t.expressionType e = some src ∧ r src src' := by
  rcases hway with ⟨literal, hliteral⟩ | ⟨s', hs'⟩
  · obtain ⟨l', hl', hliteral⟩ := bind_eq_some_iff.1 hliteral
    split at hl'
    next hkind =>
      have hkind' := eq_of_beq hkind
      have hkind : t.kind e = .expression .literal := by rw [← h.kind he, hkind']
      rw [expressionType_of_literal hkind' hl'] at hsrc'
      obtain ⟨l, hl, hrl⟩ := exists_of_rel_some (h.slot he (by rw [hkind]; rfl)) hl'
      have hkindl : t.kind l = .literal literal := by rw [← h.kind hrl, literal?_eq_some_iff.1 hliteral]
      rw [expressionType_of_literal hkind hl]
      exact exists_of_rel_some (h.slot hrl (by rw [hkindl]; trivial)) hsrc'
    · cases hl'
  · exact h.exists_expressionType he hsrc' (isExpression_of_follow hs')

theorem met_echo (h : Echo t t' r) (he : r e e') (hmet : Met t e) : Met t' e' := by
  by_cases hbool : (t'.expressionType e').bind t'.followedShape = some .bool
  · exact .inl hbool
  refine .inr fun c hc ↦ ?_
  by_contra hne
  obtain ⟨src', hsrc', hc⟩ := bind_eq_some_iff.1 hc
  split at hc
  · cases hc
  next hresolved =>
    simp only [Bool.not_eq_true', Bool.not_eq_false] at hresolved
    split at hc
    · cases hc
      exact hne rfl
    next htext =>
      dsimp only at hc
      have hsrc : ∃ src, t.expressionType e = some src ∧ r src src' := by
        refine exists_expressionType_of_condition h he hsrc' ?_
        split at hc
        next hliteral => exact .inl ⟨_, hliteral⟩
        next hliteral => exact .inl ⟨_, hliteral⟩
        · exact .inr (exists_follow_of_conditionOfType hc)
      obtain ⟨src, hsrc, hrsrc⟩ := hsrc
      rcases hmet with hmet | hmet
      · -- a truth value that is still resolved is still one
        rw [hsrc, bind_some] at hmet
        obtain ⟨s, hs, hshape⟩ := bind_eq_some_iff.1 hmet
        obtain ⟨s', hs', hrs⟩ := h.exists_follow_of_isResolved hrsrc hs hresolved
        rw [hsrc', bind_some] at hbool
        exact hbool (bind_eq_some_iff.2 ⟨s', hs', by rw [h.shape?_eq hrs, hshape]⟩)
      · refine hne (hmet c (bind_eq_some_iff.2 ⟨src, hsrc, ?_⟩))
        have htext' : (t.serialize src == some "bool") = false := by
          refine Bool.eq_false_iff.2 fun htrue ↦ htext ?_
          rw [h.serialize_of_isResolved hrsrc (eq_of_beq htrue) hresolved]
          rfl
        simp only [h.isResolved hrsrc hresolved, htext', Bool.not_true, Bool.false_eq_true, if_false]
        rw [literal_eq_of_echo h he] at hc
        split at hc
        · exact hc
        · exact hc
        · exact conditionOfType_echo h hrsrc hc

end Coercion

/-! ## The front ends -/

theorem echoes_base : FrontEnd.base.conversions.Echoes where
  literal _ _ _ _ := rfl
  type _ _ _ h := by cases h
  unit h := by cases h

/-- What a reference refers to. -/
theorem Tree.elementType_of_reference {t : Tree} {y d : NodeId} (hd : t.follow y = some d)
    (hshape : t.shape? d = some .valueRef ∨ t.shape? d = some .strongRef) :
    t.elementType d = t.child d 0 := by
  obtain ⟨data, hkind, hname⟩ := Coercion.exists_data_of_follow hd
  have hself : t.follow d = some d := by
    unfold follow
    rw [unqualified_of_type hkind, bind_some]
    unfold followLimit followWithin
    rcases hshape with hshape | hshape
    · rw [hshape]
    · rw [hshape]
  unfold elementType elementTypeWithin
  rw [hself, bind_some]
  rcases hshape with hshape | hshape
  · rw [hshape]
  · rw [hshape]

theorem echoes_units : FrontEnd.units.conversions.Echoes where
  literal _ _ _ _ := rfl
  type := by
    intro t t' r x x' y y' style answer h hx hy (hanswer : Units.convertType t' x' y' style = some answer)
    show answer = .ok () ∧ Units.convertType t x y style = some answer
    unfold Units.convertType at hanswer ⊢
    simp only [bind_eq_bind, bind_eq_some_iff, guard_eq_some'] at hanswer ⊢
    obtain ⟨u, hstyle, s', hs', v, hunit, d', hd', w, href, element', helement', target', htarget', hequal⟩ :=
      hanswer
    obtain ⟨s, hs, hrs⟩ := h.exists_follow hx hs'
    obtain ⟨d, hd, hrd⟩ := h.exists_follow hy hd'
    obtain ⟨data, hkind, -⟩ := Coercion.exists_data_of_follow hd
    rw [h.shape?_eq hrs] at hunit
    have hreference : t.shape? d = some .valueRef ∨ t.shape? d = some .strongRef := by
      simpa only [h.shape?_eq hrd, Bool.or_eq_true_iff, beq_iff_eq] using href
    rw [elementType_of_reference hd' (by rwa [h.shape?_eq hrd])] at helement'
    obtain ⟨element, helement, hrelement⟩ :=
      exists_of_rel_some (h.slot hrd (by rw [hkind]; trivial)) helement'
    obtain ⟨target, htarget, hrtarget⟩ := h.exists_follow hrelement htarget'
    split at hequal
    next hequal' =>
      refine ⟨(some.inj hequal).symm, u, hstyle, s, hs, v, hunit, d, hd, w, ?_, element, ?_, target,
        htarget, ?_⟩
      · rwa [h.shape?_eq hrd] at href
      · rw [elementType_of_reference hd hreference, helement]
      · rw [if_pos (h.typesEqual hrs hrtarget hequal')]
        exact hequal
    · cases hequal
  unit := by
    intro t x y style answer (hanswer : Units.convertType t x y style = some answer)
    unfold Units.convertType at hanswer
    simp only [bind_eq_bind, bind_eq_some_iff, guard_eq_some'] at hanswer
    obtain ⟨_, -, s, hs, _, hunit, d, hd, _, href, _, -, _, -, hequal⟩ := hanswer
    split at hequal
    · refine ⟨(some.inj hequal).symm, s, d, hs, eq_of_beq hunit, hd, ?_⟩
      simpa only [Bool.or_eq_true_iff, beq_iff_eq] using href
    · cases hequal

end ProtocolIR
