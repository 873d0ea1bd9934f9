import ProtocolIR.Proofs.Padding.Coercion

/-!
# Conditions in a padded tree

How an expression becomes a condition does not depend on which node the type of conditions is,
since types are compared by their texts. The type of conditions is made anew in every sweep, so in
two paddings it is not the same node, and still an expression of the base becomes a condition in
both as it does in the base.
-/

namespace ProtocolIR

open Tree Option List

namespace Tree

variable {m n : NodeId} {t : Tree} {text : String}

/-- With a text on one side, types are compared by their texts. -/
theorem typesEqual_of_serialize (hn : t.serialize n = some text) :
    t.typesEqual m n = (t.serialize m == some text) := by
  rw [Bool.eq_iff_iff, typesEqual_iff, beq_iff_eq]
  constructor
  · rintro (⟨u, hu, hv⟩ | ⟨x, hx, hx'⟩)
    · rw [serialize_congr (hu.trans hv.symm), hn]
    · rw [hx, ← hx', hn]
  · exact fun hm ↦ .inr ⟨text, hm, hn⟩

end Tree

namespace Tree.IsBool

variable {t : Tree} {q : NodeId}

/-- The type under the qualification. -/
theorem exists_inner (h : t.IsBool q) : ∃ u, t.child q 0 = some u ∧ t.unqualified q = some u ∧
    t.unqualified u = some u ∧ t.follow q = some u ∧ t.slots u = [] ∧
      t.typeData? u = some { shape := .bool, unification := some "bool" } := by
  obtain ⟨u, hslots, hnone, hkind⟩ := h.exists_type
  have hchild : t.child q 0 = some u := by
    unfold child
    rw [hslots]
    rfl
  have hq : t.unqualified q = some u := (unqualified_of_qualified h.kind_eq).trans hchild
  have hu := unqualified_of_type hkind
  have hdata := typeData?_eq_some_iff.2 hkind
  refine ⟨u, hchild, hq, hu, ?_, hnone, hdata⟩
  unfold follow followLimit followWithin shape?
  rw [hq, bind_some, hdata]
  rfl

theorem isResolved (h : t.IsBool q) : t.isResolved q = true := by
  obtain ⟨u, hchild, -, -, -, hslots, hdata⟩ := h.exists_inner
  have hkind := typeData?_eq_some_iff.1 hdata
  unfold Tree.isResolved isResolvedWithin
  simp only [h.kind_eq, hchild, not_mem_nil, if_false, any_some]
  cases t.size with
  | zero => rfl
  | succ size =>
    unfold isResolvedWithin children
    rw [hkind, hslots]
    simp

end Tree.IsBool

namespace Coercion

variable {b s : Tree} {q e x u : NodeId} {conversions : List Conversions}

/-- How a value of a type becomes a condition, if it does. -/
def conditionOfType (t : Tree) (src : NodeId) : Option Coercion := do
  let s ← t.follow src
  if t.serialize s == some "bool" then some .unchanged
  else
    let data ← t.typeData? s
    if data.shape = .bool then some .unchanged
    else if isConditional data.shape then some .wrap
    else none

/-- How an expression becomes a condition, if it does. Numbers are made anew. -/
def conditionAnswer (t : Tree) (e : NodeId) : Option Coercion := do
  let src ← t.expressionType e
  if !t.isResolved src then none
  else if t.serialize src == some "bool" then some .unchanged
  else
    let literal := if t.kind e == .expression .literal then t.child e 0 else none
    match literal.bind t.literal? with
    | some (.signed ..) | some (.unsigned ..) => some .retype
    | _ => conditionOfType t src

/-- Conditions are left to the built-in rules. -/
def PlainConditions (conversions : List Conversions) : Prop :=
  ∀ c ∈ conversions, ∀ t x y, c.type t x y .ofCondition = none

/-- What is asked of front ends: they leave literals and conditions alone, and their answers do not
depend on padding. -/
structure Tame (conversions : List Conversions) : Prop where
  literals : PlainLiterals conversions
  steady : Steady conversions
  conditions : PlainConditions conversions

theorem coerceLiteral_bool (hplain : PlainLiterals conversions) (hbool : s.IsBool q) (l : NodeId) :
    (coerceLiteral conversions s l q .ofCondition).toOption =
      match s.literal? l with
      | some (.signed ..) | some (.unsigned ..) => some ()
      | _ => none := by
  obtain ⟨u, -, -, -, hfollow, -, hdata⟩ := hbool.exists_inner
  have hnone : (conversions.findSome? fun c ↦ c.literal s l q .ofCondition) = none :=
    findSome?_eq_none_iff.2 fun c hc ↦ hplain c hc s l q .ofCondition
  have hshape : s.shape? u = some .bool := by unfold shape?; rw [hdata]; rfl
  unfold coerceLiteral coerceLiteralWithin
  simp only [hnone, hfollow, hshape]
  cases s.literal? l with
  | none => rfl
  | some l => cases l <;> rfl

theorem typeRule_bool (t : Tree) (recurse : NodeId → NodeId → Except NoMatch Coercion)
    (source : TypeShape) :
    (typeRule t .ofCondition recurse x u source .bool).toOption =
      if source = .bool then some .unchanged else if isConditional source then some .wrap else none := by
  cases source <;> rfl

theorem coerceType_bool (hplain : PlainConditions conversions) (hbool : s.IsBool q)
    (hresolved : s.isResolved x = true) :
    (coerceType conversions s x q .ofCondition).toOption = conditionOfType s x := by
  obtain ⟨u, -, -, hself, hfollow, -, hdata⟩ := hbool.exists_inner
  have htext : s.serialize u = some "bool" := serialize_of_unification hself (by rw [hdata]; rfl)
  have hnone : (conversions.findSome? fun c ↦ c.type s x q .ofCondition) = none :=
    findSome?_eq_none_iff.2 fun c hc ↦ hplain c hc s x q
  obtain ⟨fuel, hfuel⟩ : ∃ fuel, (s.size + 1) * (s.size + 1) = fuel + 1 :=
    Nat.exists_eq_succ_of_ne_zero (by simp)
  unfold coerceType conditionOfType
  rw [hfuel]
  unfold coerceTypeWithin
  simp only [hresolved, hbool.isResolved, hfollow, hnone, Bool.not_true, Bool.or_false,
    Bool.false_eq_true, if_false]
  cases hm : s.follow x with
  | none => rfl
  | some m =>
    simp only [typesEqual_of_serialize htext, hdata, bind_eq_bind, bind_some]
    split
    · rfl
    cases s.typeData? m with
    | none => rfl
    | some data =>
      have hconverts : Style.ofCondition.converts = false := rfl
      simp only [bind_some, hconverts, Bool.and_false, Bool.false_and, Bool.false_eq_true,
        if_false]
      exact typeRule_bool s _ data.shape

/-- How an expression becomes a condition, whichever node the type of conditions is. -/
theorem coerceExpression_bool (htame : Tame conversions) (hbool : s.IsBool q) :
    (coerceExpression conversions s e q .ofCondition).toOption = conditionAnswer s e := by
  obtain ⟨u, -, hinner, -, hfollow, -, hdata⟩ := hbool.exists_inner
  have htext : s.serialize q = some "bool" := serialize_of_unification hinner (by rw [hdata]; rfl)
  unfold coerceExpression conditionAnswer
  cases hsrc : s.expressionType e with
  | none => rfl
  | some src =>
    have hkeeps : keepsType s src q .ofCondition = false := by
      unfold keepsType
      rw [hfollow, bind_some, hdata]
      cases s.followedShape src with
      | none => rfl
      | some source => simp [Style.ofCondition]
    simp only [hbool.isResolved, typesEqual_of_serialize htext, hkeeps, bind_eq_bind,
      bind_some]
    cases hresolved : s.isResolved src with
    | false => rfl
    | true =>
      have htype := coerceType_bool htame.conditions hbool hresolved
      simp only [Bool.not_true, Bool.or_false, Bool.false_eq_true, if_false]
      split
      · rfl
      cases hl : (if s.kind e == .expression .literal then s.child e 0 else none) with
      | none => exact htype
      | some l =>
        have hliteral := coerceLiteral_bool htame.literals hbool l
        simp only [map_some, bind_some]
        cases hc : coerceLiteral conversions s l q .ofCondition with
        | ok =>
          rw [hc] at hliteral
          split at hliteral
          · rfl
          · rfl
          · cases hliteral
        | error refusal =>
          rw [hc] at hliteral
          simp only [toOption_mapError, htype]
          split at hliteral
          · cases hliteral
          · cases hliteral
          · rfl

theorem conditionOfType_eq (h : Inset b s) (hx : b.Has x) : conditionOfType s x = conditionOfType b x := by
  unfold conditionOfType
  rw [h.follow_eq hx]
  refine bind_congr fun m hm ↦ ?_
  have hm := h.base.has_of_follow hm
  rw [h.serialize_eq hm, h.typeData?_eq hm]

theorem conditionAnswer_eq (h : Inset b s) (he : b.Has e) : conditionAnswer s e = conditionAnswer b e := by
  have hliteral : ∀ l, (if b.kind e == .expression .literal then b.child e 0 else none) = some l →
      s.literal? l = b.literal? l := by
    intro l hl
    split at hl
    · exact h.literal?_eq (h.base.has_of_child hl)
    · cases hl
  unfold conditionAnswer
  rw [h.expressionType_eq he]
  refine bind_congr fun src hsrc ↦ ?_
  have hsrc := h.base.has_of_expressionType hsrc
  simp only [h.isResolved_eq hsrc, h.serialize_eq hsrc, h.kind_eq he, h.child_eq he,
    conditionOfType_eq h hsrc, bind_congr hliteral]

/-- How an expression of the base becomes a condition shows in the base already. -/
theorem coerceExpression_condition (h : Inset b s) (htame : Tame conversions) (hbool : s.IsBool q)
    (he : b.Has e) :
    (coerceExpression conversions s e q .ofCondition).toOption = conditionAnswer b e :=
  (coerceExpression_bool htame hbool).trans (conditionAnswer_eq h he)

end Coercion

end ProtocolIR
