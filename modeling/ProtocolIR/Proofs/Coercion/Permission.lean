import Mathlib.Data.Option.Basic
import ProtocolIR.FrontEnd.Base
import ProtocolIR.FrontEnd.Units
import ProtocolIR.Proofs.Saturation

/-!
# More permissive styles

One style is below another if the other grants whatever it grants and forbids nothing else. What a
style coerces, every style above it coerces.

It need not be the same coercion. With more permissions a literal may be made anew or a value may
keep its type where it was converted before, and a wildcard that was left as it is may be converted.
The rules are tried in order, so a permission can also take a pair of types away from the rule that
accepted it. As a condition, a reference is converted without looking at what it refers to.
-/

namespace ProtocolIR

open List Option

/-- The second style grants what the first one grants, and forbids only what it forbids. -/
structure Style.IsBelow (a b : Style) : Prop where
  assignment : a.assignment = true → b.assignment = true
  functionCall : a.functionCall = true → b.functionCall = true
  tryCoercion : a.tryCoercion = true → b.tryCoercion = true
  contextual : a.contextual = true → b.contextual = true
  keepsOwn : a.keepsOwn = true → b.keepsOwn = true
  disallowSignedUnsigned : b.disallowSignedUnsigned = true → a.disallowSignedUnsigned = true
  disallowLossy : b.disallowLossy = true → a.disallowLossy = true

instance : LE Style := ⟨Style.IsBelow⟩

theorem Style.le_refl (a : Style) : a ≤ a := ⟨id, id, id, id, id, id, id⟩

theorem Style.converts_of_le {a b : Style} (hle : a ≤ b) (h : a.converts = true) : b.converts = true := by
  simp only [converts, Bool.or_eq_true] at h ⊢
  exact h.imp (Or.imp hle.assignment hle.functionCall) hle.tryCoercion

/-- If the first computation returns, so does the second. -/
def Allows {ε α : Type} (x y : Except ε α) : Prop := x.isOk = true → y.isOk = true

namespace Allows

variable {ε α β : Type} {x y z : Except ε α} {e : ε} {p q : Bool}

theorem refl (x : Except ε α) : Allows x x := id

theorem of_error (e : ε) (y : Except ε α) : Allows (.error e) y := fun h ↦ by cases h

theorem of_ok (x : Except ε α) (a : α) : Allows x (.ok a) := fun _ ↦ rfl

theorem map (f : α → β) (h : Allows x y) : Allows (x.map f) (y.map f) := by
  intro hx
  cases x with
  | error e => cases hx
  | ok a =>
    cases y with
    | error e => exact h rfl
    | ok a => rfl

theorem bind_pure (c : β) (h : Allows x y) : Allows (x >>= fun _ ↦ pure c) (y >>= fun _ ↦ pure c) :=
  h.map fun _ ↦ c

theorem mapError (f g : ε → ε) (h : Allows x y) : Allows (x.mapError f) (y.mapError g) := by
  intro hx
  cases x with
  | error e => cases hx
  | ok a =>
    cases y with
    | error e => exact h rfl
    | ok a => rfl

theorem forM {f g : α → Except ε Unit} {l : List α} (hfg : ∀ a, Allows (f a) (g a)) :
    Allows (l.forM f) (l.forM g) := by
  induction l with
  | nil => exact refl _
  | cons a rest ih =>
    intro h
    have ha := hfg a
    unfold List.forM at h ⊢
    cases hf : f a with
    | error e => rw [hf] at h; cases h
    | ok =>
      rw [hf] at h ha
      cases hg : g a with
      | error e => rw [hg] at ha; exact ha rfl
      | ok => exact ih h

/-- A permission that is kept. -/
theorem ite (hpq : p = true → q = true) (h : Allows x y) (e e' : ε) :
    Allows (if p then x else .error e) (if q then y else .error e') := by
  cases p with
  | false => exact of_error _ _
  | true =>
    rw [hpq rfl]
    exact h

/-- A prohibition that is not new. -/
theorem ite_not (hpq : q = true → p = true) (h : Allows x y) (e e' : ε) :
    Allows (if p then .error e else x) (if q then .error e' else y) := by
  cases q with
  | true =>
    rw [hpq rfl]
    exact of_error _ _
  | false =>
    cases p with
    | true => exact of_error _ _
    | false => exact h

theorem ite_else {p : Prop} [Decidable p] (h : Allows x y) :
    Allows (if p then z else x) (if p then z else y) := by
  split
  · exact refl _
  · exact h

end Allows

namespace Coercion

variable {conversions : List Conversions} {a b style : Style} {t : Tree} {x y : NodeId}
  {answer : Except NoMatch Unit} {recurse recurse' : NodeId → NodeId → Except NoMatch Coercion}
  {s d : NodeId} {source : TypeShape}

/-! ## Types -/

theorem allows_narrow (hle : a ≤ b) (source target : TypeShape) :
    Allows (narrow a source target) (narrow b source target) :=
  .ite_not hle.disallowLossy (.ite hle.tryCoercion (.refl _) _ _) _ _

theorem allows_crossSign (hle : a ≤ b) {x y : Except NoMatch Coercion} (h : Allows x y) :
    Allows (crossSign a x) (crossSign b y) :=
  .ite_not hle.disallowSignedUnsigned h _ _

theorem typeRule_of_contextual (hsource : source ≠ .bool) (h : a.contextual = true) :
    typeRule t a recurse s d source .bool =
      if isConditional source then .ok .wrap else .error .noRule := by
  unfold typeRule
  cases source with
  | bool => exact absurd rfl hsource
  | _ => rw [h]; rfl

/-- What becomes a truth value without being a condition is a reference, which can be one. -/
theorem isConditional_of_typeRule (hsource : source ≠ .bool) (ha : a.contextual = false)
    (h : (typeRule t a recurse s d source .bool).isOk = true) : isConditional source = true := by
  unfold typeRule at h
  cases source with
  | bool => exact absurd rfl hsource
  | strongRef => rfl
  | _ =>
    simp only [ha, Bool.false_eq_true, and_false, if_false] at h
    split at h <;> cases h

/-- The rules for types where neither style makes a condition of the value. -/
theorem allows_typeRule_of_not_condition (hle : a ≤ b)
    (hallows : ∀ x y, Allows (recurse x y) (recurse' x y)) (s d : NodeId) {target : TypeShape}
    (ha : ¬(target = .bool ∧ a.contextual = true)) (hb : ¬(target = .bool ∧ b.contextual = true)) :
    Allows (typeRule t a recurse s d source target) (typeRule t b recurse' s d source target) := by
  have hnarrow := allows_narrow hle source target
  unfold typeRule
  split
  · exact .refl _
  rw [if_neg ha, if_neg hb]
  cases hconverts : a.converts with
  | false => exact .of_error _ _
  | true =>
    rw [Style.converts_of_le hle hconverts]
    simp only [Bool.not_true, Bool.false_eq_true, if_false]
    split
    any_goals exact Allows.refl _
    -- numbers: what may be lost needs permission, and a change of sign must not be forbidden
    · exact .ite_else hnarrow
    · exact .ite_else hnarrow
    · exact allows_crossSign hle (.ite_else hnarrow)
    · exact allows_crossSign hle hnarrow
    · exact .ite_else hnarrow
    · exact .ite_else hnarrow
    -- optionals and results: the value goes inside
    · split
      · exact .refl _
      · exact (hallows _ _).map _
    · split
      · exact .refl _
      · exact (hallows _ _).map _
    -- references are converted in assignments
    · exact .ite hle.assignment (.refl _) _ _
    · exact .ite hle.assignment (.refl _) _ _
    -- tuples are coerced part by part
    · exact .ite_else ((Allows.forM fun _ ↦ (hallows _ _).map _).bind_pure _)

theorem allows_typeRule (hle : a ≤ b) (hallows : ∀ x y, Allows (recurse x y) (recurse' x y))
    (s d : NodeId) (source target : TypeShape) :
    Allows (typeRule t a recurse s d source target) (typeRule t b recurse' s d source target) := by
  by_cases hb : target = .bool ∧ b.contextual = true
  · obtain ⟨rfl, hb⟩ := hb
    by_cases hsource : source = .bool
    · subst hsource
      exact .refl _
    · rw [typeRule_of_contextual hsource hb]
      cases ha : a.contextual with
      | true =>
        rw [typeRule_of_contextual hsource ha]
        exact .refl _
      | false =>
        intro h
        rw [if_pos (isConditional_of_typeRule hsource ha h)]
        rfl
  · exact allows_typeRule_of_not_condition hle hallows s d (mt (And.imp_right hle.contextual) hb) hb

/-- A front end leaves literals to the built-in rules, converts where it answers for types, and
answers for a style if it does so for one below. -/
structure Lenient (c : Conversions) : Prop where
  literal : ∀ t n dst style, c.literal t n dst style = none
  type : ∀ {t x y answer} {a b : Style}, a ≤ b → c.type t x y a = some answer →
    answer = .ok () ∧ c.type t x y b = some answer

theorem convertType_eq_ite : Units.convertType t x y style =
      if style.assignment || style.functionCall then Units.convertType t x y .ofAssignment else none := by
  unfold Units.convertType
  cases style.assignment || style.functionCall <;> rfl

theorem eq_ok_of_convertType
    (h : Units.convertType t x y style = some answer) : answer = .ok () := by
  unfold Units.convertType at h
  simp only [bind_eq_bind, bind_eq_some_iff] at h
  obtain ⟨_, _, _, _, _, _, _, _, _, _, _, _, _, _, h⟩ := h
  split at h
  · exact (some.inj h).symm
  · cases h

theorem lenient_units : Lenient FrontEnd.units.conversions where
  literal _ _ _ _ := rfl
  type := by
    intro t x y answer a b hle (h : Units.convertType t x y a = some answer)
    refine ⟨eq_ok_of_convertType h, ?_⟩
    show Units.convertType t x y b = some answer
    rw [convertType_eq_ite] at h ⊢
    split at h
    next ha =>
      simp only [Bool.or_eq_true] at ha
      have hb : (b.assignment || b.functionCall) = true := by
        simpa only [Bool.or_eq_true] using ha.imp hle.assignment hle.functionCall
      rw [if_pos hb, h]
    · cases h

theorem lenient_base : Lenient FrontEnd.base.conversions where
  literal _ _ _ _ := rfl
  type _ h := by cases h

section

variable (hlenient : ∀ c ∈ conversions, Lenient c)

include hlenient

theorem eq_ok_of_findSome?
    (h : (conversions.findSome? fun c ↦ c.type t x y a) = some answer) : answer = .ok () := by
  obtain ⟨c, hc, hanswer⟩ := exists_of_findSome?_eq_some h
  exact ((hlenient c hc).type (Style.le_refl a) hanswer).1

theorem findSome?_type_of_le (hle : a ≤ b)
    (h : (conversions.findSome? fun c ↦ c.type t x y a) = some answer) :
    (conversions.findSome? fun c ↦ c.type t x y b) = some (.ok ()) := by
  obtain ⟨c, hc, hanswer⟩ := exists_of_findSome?_eq_some h
  have hb := ((hlenient c hc).type hle hanswer).2
  cases hfound : conversions.findSome? fun c ↦ c.type t x y b with
  | none =>
    rw [findSome?_eq_none_iff.1 hfound c hc] at hb
    cases hb
  | some other => rw [eq_ok_of_findSome? hlenient hfound]

theorem allows_coerceTypeWithin (hle : a ≤ b) (fuel : Nat) (x y : NodeId) :
    Allows (coerceTypeWithin conversions t a fuel x y) (coerceTypeWithin conversions t b fuel x y) := by
  induction fuel generalizing x y with
  | zero => exact .refl _
  | succ fuel ih =>
    unfold coerceTypeWithin
    refine .ite_else ?_
    split
    next s d _ _ =>
      refine .ite_else ?_
      split
      next source target _ _ =>
        refine .ite_else ?_
        cases hanswer : conversions.findSome? fun c ↦ c.type t x y a with
        | some answer =>
          rw [findSome?_type_of_le hlenient hle hanswer]
          exact .of_ok _ _
        | none =>
          cases hanswer' : conversions.findSome? fun c ↦ c.type t x y b with
          | some answer =>
            rw [eq_ok_of_findSome? hlenient hanswer']
            exact .of_ok _ _
          | none =>
            dsimp only
            split
            next hany =>
              simp only [Bool.and_eq_true] at hany
              rw [hany.1.1, hany.1.2, Style.converts_of_le hle hany.2]
              exact .refl _
            · split
              · exact .of_ok _ _
              · exact allows_typeRule hle ih s d source.shape target.shape
      · exact .refl _
    · exact .refl _

end

/-! ## Literals and expressions -/

theorem allows_literalRule (hle : a ≤ b) {recurse recurse' : NodeId → Except NoMatch Unit}
    (hallows : ∀ y, Allows (recurse y) (recurse' y)) (n : NodeId) (l : Literal) (d : NodeId)
    (target : TypeShape) :
    Allows (literalRule t a recurse n l d target) (literalRule t b recurse' n l d target) := by
  unfold literalRule
  split
  any_goals exact Allows.refl _
  · exact .ite_not hle.disallowSignedUnsigned (.refl _) _ _
  · exact .ite_not hle.disallowSignedUnsigned (.refl _) _ _
  · exact .ite hle.contextual (.refl _) _ _
  · exact .ite hle.contextual (.refl _) _ _
  · exact .ite hle.contextual (.refl _) _ _
  · exact .ite hle.contextual (.refl _) _ _
  · split
    · exact .ite_else (hallows _)
    · exact .refl _

theorem allows_coerceLiteralWithin (hlenient : ∀ c ∈ conversions, Lenient c) (hle : a ≤ b) (n : NodeId)
    (fuel : Nat) (y : NodeId) :
    Allows (coerceLiteralWithin conversions t a n fuel y)
      (coerceLiteralWithin conversions t b n fuel y) := by
  have hnone : ∀ y style, (conversions.findSome? fun c ↦ c.literal t n y style) = none :=
    fun y style ↦ findSome?_eq_none_iff.2 fun c hc ↦ (hlenient c hc).literal t n y style
  induction fuel generalizing y with
  | zero => exact .refl _
  | succ fuel ih =>
    unfold coerceLiteralWithin
    rw [hnone, hnone]
    dsimp only
    split
    · exact .refl _
    split
    · exact .refl _
    split
    · exact .refl _
    · exact allows_literalRule hle ih n _ _ _

theorem keepsType_of_le (hle : a ≤ b) {src dst : NodeId} (h : keepsType t src dst a = true) :
    keepsType t src dst b = true := by
  unfold keepsType at h ⊢
  split at h
  · simp only [Bool.and_eq_true, Bool.or_eq_true] at h ⊢
    exact ⟨h.1, h.2.imp_right hle.keepsOwn⟩
  · cases h

theorem allows_coerceExpression (hlenient : ∀ c ∈ conversions, Lenient c) (hle : a ≤ b) (e dst : NodeId) :
    Allows (coerceExpression conversions t e dst a) (coerceExpression conversions t e dst b) := by
  unfold coerceExpression
  split
  · exact .refl _
  next src _ =>
    have htype : Allows (coerceType conversions t src dst a) (coerceType conversions t src dst b) :=
      allows_coerceTypeWithin hlenient hle _ src dst
    refine .ite_else (.ite_else ?_)
    cases hkeeps : keepsType t src dst b with
    | true => exact .of_ok _ _
    | false =>
      rw [if_neg fun ha ↦ Bool.false_ne_true (hkeeps.symm.trans (keepsType_of_le hle ha))]
      dsimp only
      cases (if t.kind e == .expression .literal then t.child e 0 else none) with
      | none => exact htype
      | some l =>
        have hliteral : Allows (coerceLiteral conversions t l dst a) (coerceLiteral conversions t l dst b) :=
          allows_coerceLiteralWithin hlenient hle l _ dst
        simp only [map_some]
        cases hb : coerceLiteral conversions t l dst b with
        | ok => exact .of_ok _ _
        | error refusal =>
          cases ha : coerceLiteral conversions t l dst a with
          | ok =>
            rw [ha, hb] at hliteral
            cases hliteral rfl
          | error refusal' => exact htype.mapError _ _

/-- A coercion that a style allows is allowed by every style above it, between types and from an
expression to a type. -/
theorem coercion_allowed_of_le
    (hfront : ∀ c ∈ conversions, c = FrontEnd.units.conversions ∨ c = FrontEnd.base.conversions)
    (hle : a ≤ b) (t : Tree) (src e dst : NodeId) :
    ((coerceType conversions t src dst a).isOk = true →
        (coerceType conversions t src dst b).isOk = true) ∧
      ((coerceExpression conversions t e dst a).isOk = true →
        (coerceExpression conversions t e dst b).isOk = true) := by
  have hlenient : ∀ c ∈ conversions, Lenient c := by
    intro c hc
    rcases hfront c hc with rfl | rfl
    · exact lenient_units
    · exact lenient_base
  exact ⟨allows_coerceTypeWithin hlenient hle _ src dst, allows_coerceExpression hlenient hle e dst⟩

/-- A reference to a truth value, a truth value, the number 300 and an optional byte. -/
def referenceAndNumber : Tree := .ofRows [
  (.root, []),
  (.shaped .strongRef, [2]),
  (.value, [3]),
  (.shaped .bool, []),
  (.shaped .bool, []),
  (.expression .literal, [6]),
  (.literal (.signed 300 64), [7]),
  (.value .const, [8]),
  (.shaped (.signed 64), []),
  (.shaped .optional, [10]),
  (.value, [11]),
  (.shaped (.signed 8), [])]

/-- The reference is followed in an assignment and converted as a condition. The number does not fit
and is converted as far as that is granted. -/
theorem coercion_allowed_referenceAndNumber :
    let permissive : Style := { assignment := true, tryCoercion := true, contextual := true }
    (coerceType [FrontEnd.units.conversions] referenceAndNumber ⟨1⟩ ⟨4⟩ permissive).isOk = true ∧
      (coerceExpression [FrontEnd.units.conversions] referenceAndNumber ⟨5⟩ ⟨9⟩ permissive).isOk = true := by
  have hfront : ∀ c ∈ [FrontEnd.units.conversions],
      c = FrontEnd.units.conversions ∨ c = FrontEnd.base.conversions :=
    fun c hc ↦ .inl (mem_singleton.1 hc)
  have hle : ({ assignment := true, tryCoercion := true, disallowSignedUnsigned := true } : Style) ≤
      { assignment := true, tryCoercion := true, contextual := true } :=
    ⟨id, id, id, fun _ ↦ rfl, id, fun _ ↦ rfl, id⟩
  exact ⟨(coercion_allowed_of_le hfront hle referenceAndNumber ⟨1⟩ ⟨5⟩ ⟨4⟩).1 (by decide +kernel),
    (coercion_allowed_of_le hfront hle referenceAndNumber ⟨1⟩ ⟨5⟩ ⟨9⟩).2 (by decide +kernel)⟩

end Coercion

end ProtocolIR
