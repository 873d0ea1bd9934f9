import Mathlib.Algebra.Order.Ring.Int
import ProtocolIR.Proofs.Coercion.Assembly
import ProtocolIR.Proofs.Coercion.Permission

/-!
# Integers that fit

An integer literal is made anew with a type that its value fits into. If it does not fit, the rule
for types is asked, which looks at widths alone. Where narrowing is not granted the two agree: an
integer of its own type that is coerced to an integer type, or to one inside of optionals, is an
integer of that type as well.

They do not agree on width 0. It holds any integer, but the rule for types takes it for the
narrowest width.
-/

namespace ProtocolIR

open Tree TypeText List Option

/-- The bits of an integer. -/
def TypeShape.width? : TypeShape → Option Nat
  | .signed width | .unsigned width => some width
  | _ => none

/-- Whether an integer is one of a type. Width 0 is any width. -/
def TypeShape.Admits : TypeShape → Int → Prop
  | .signed width, z => width = 0 ∨ -2 ^ (width - 1) ≤ z ∧ z < 2 ^ (width - 1)
  | .unsigned width, z => width = 0 ∨ 0 ≤ z ∧ z < 2 ^ width
  | _, _ => False

/-- The value of an integer literal. -/
def Literal.integer? : Literal → Option Int
  | .signed value _ => some value.toInt
  | .unsigned value _ => some value.toNat
  | _ => none

/-- The integer type that a literal is stored for. -/
def Literal.shape? : Literal → Option TypeShape
  | .signed _ width => some (.signed width)
  | .unsigned _ width => some (.unsigned width)
  | _ => none

/-- Integers and optionals. -/
def TypeData.IsNumeric (data : TypeData) : Prop := data.shape.width? ≠ none ∨ data.shape = .optional

/-- A text with the category of a type, and with its width if it is an integer. -/
def TypeData.Reads (data : TypeData) (x : String) : Prop :=
  ∃ o : Outline String, x.toList = o.text ∧ o.category = data.shape.category ∧
    ∀ width, data.wildcard = false → data.shape.width? = some width →
      o = ⟨data.shape.category, some .angle, [.width width]⟩

namespace Tree

/-- A type is an integer type, or has one inside of optionals. -/
inductive HasInteger (t : Tree) : NodeId → TypeShape → Prop where
  | integer {n u : NodeId} {data : TypeData} {width : Nat} : t.Stands n u data →
    data.wildcard = false → data.shape.width? = some width → HasInteger t n data.shape
  | optional {n u m : NodeId} {data : TypeData} {shape : TypeShape} : t.Stands n u data →
    data.shape = .optional → t.child u 0 = some m → HasInteger t m shape → HasInteger t n shape

/-- An expression that is a literal of an integer, with its type. -/
structure IntegerLiteral (t : Tree) (e l src : NodeId) (z : Int) : Prop where
  kind : t.kind e = .expression .literal
  child : t.child e 0 = some l
  value : (t.literal? l).bind Literal.integer? = some z
  type : t.child l 0 = some src

/-- Every recorded text is one that the structure of its type allows. -/
def AllWritten (t : Tree) : Prop :=
  ∀ {n data x}, t.kind n = .type data → data.unification = some x → t.Written n x

/-! ## The type that is meant -/

section

variable {t : Tree} {n n' u u' m v : NodeId} {data data' : TypeData} {x : String} {fuel width : Nat}
  {o' : Outline String}

theorem Stands.kind_eq (h : t.Stands n u data) : t.kind u = .type data := by
  induction h with
  | itself _ hdata => exact typeData?_eq_some_iff.1 hdata
  | name _ _ _ _ _ _ ih => exact ih

/-- A type is meant by itself. -/
theorem Stands.self (h : t.Stands n u data) : t.Stands u u data := by
  induction h with
  | itself _ hdata hplain =>
    exact .itself (unqualified_of_type (typeData?_eq_some_iff.1 hdata)) hdata hplain
  | name _ _ _ _ _ _ ih => exact ih

theorem Stands.unique (h : t.Stands n u data) (h' : t.Stands n' u' data')
    (hn : t.unqualified n = t.unqualified n') : u = u' ∧ data = data' := by
  induction h generalizing n' with
  | @itself n u data hu hdata hplain =>
    cases h' with
    | itself hu' hdata' =>
      rw [hu, hu'] at hn
      cases hn
      exact ⟨rfl, some.inj (hdata.symm.trans hdata')⟩
    | name hu' hdata' hwildcard' hshape' =>
      rw [hu, hu'] at hn
      cases hn
      cases hdata.symm.trans hdata'
      rcases hplain with hplain | hplain
      · rw [hwildcard'] at hplain
        cases hplain
      · rw [hshape'] at hplain
        exact absurd rfl hplain
  | @name n u m v data data' id resolved hu hdata hwildcard hshape hlinked hstands ih =>
    cases h' with
    | itself hu' hdata' hplain' =>
      rw [hu, hu'] at hn
      cases hn
      cases hdata.symm.trans hdata'
      rcases hplain' with hplain' | hplain'
      · rw [hwildcard] at hplain'
        cases hplain'
      · rw [hshape] at hplain'
        exact absurd rfl hplain'
    | name hu' hdata' _ hshape' hlinked' hstands' =>
      rw [hu, hu'] at hn
      cases hn
      cases hdata.symm.trans hdata'
      cases hshape.symm.trans hshape'
      cases hlinked.symm.trans hlinked'
      exact ih hstands' rfl

theorem Stands.eq_of_followWithin (h : t.Stands n u data) (hname : data.shape.category ≠ .name)
    (hv : t.unqualified n = some v) (hfollow : t.followWithin fuel v = some u') : u' = u := by
  induction h generalizing v fuel with
  | itself hu hdata =>
    cases hu.symm.trans hv
    cases fuel with
    | zero => cases hfollow
    | succ fuel =>
      unfold followWithin shape? at hfollow
      rw [hdata, map_some] at hfollow
      split at hfollow
      next heq => cases heq
      next heq =>
        rw [some.inj heq] at hname
        exact absurd rfl hname
      · exact (some.inj hfollow).symm
  | name hu hdata _ hshape hlinked _ ih =>
    cases hu.symm.trans hv
    cases fuel with
    | zero => cases hfollow
    | succ fuel =>
      unfold followWithin shape? at hfollow
      rw [hdata, map_some, hshape] at hfollow
      obtain ⟨m, hm, hfollow⟩ := bind_eq_some_iff.1 hfollow
      cases hlinked.symm.trans hm
      obtain ⟨_, hkind⟩ := exists_type_of_followWithin hfollow
      exact ih hname (unqualified_of_type hkind) hfollow

/-- Following names leads to the type that is meant, if it leads anywhere. -/
theorem Stands.eq_of_follow (h : t.Stands n u data) (hname : data.shape.category ≠ .name)
    (hfollow : t.follow n = some u') : u' = u := by
  obtain ⟨v, hv, hfollow⟩ := bind_eq_some_iff.1 hfollow
  exact h.eq_of_followWithin hname hv hfollow

/-! ## Texts of integers -/

theorem eq_of_width {shape : TypeShape} (h : shape.width? = some width) :
    shape = .signed width ∨ shape = .unsigned width := by
  cases shape with
  | signed => exact .inl (by rw [some.inj h])
  | unsigned => exact .inr (by rw [some.inj h])
  | _ => cases h

theorem reads_of_outline {o : Outline NodeId} {r : NodeId → String → Prop}
    (ho : t.outline u data = some o) (halike : o.Alike r o') (hx : x.toList = o'.text) :
    data.Reads x := by
  refine ⟨o', hx, halike.category.symm.trans (outline_cases ho).1, fun width hwildcard hwidth ↦ ?_⟩
  have heq : o = ⟨data.shape.category, some .angle, [.width width]⟩ := by
    obtain ⟨shape, wildcard, unification, typeId⟩ := data
    subst hwildcard
    obtain rfl | rfl := eq_of_width hwidth <;> exact (some.inj ho).symm
  subst heq
  obtain ⟨category, bracket, parts⟩ := o'
  obtain ⟨rfl, rfl, hparts⟩ := halike
  cases hparts with
  | cons hpart hrest =>
    cases hpart
    cases hrest
    rfl

theorem category_ne_name (hnumeric : data.IsNumeric) : data.shape.category ≠ .name := by
  intro heq
  obtain ⟨id, resolved, hshape⟩ := exists_of_category_eq_name heq
  simp [TypeData.IsNumeric, hshape, TypeShape.width?] at hnumeric

theorem reads_of_written (hstands : t.Stands n u data) (hnumeric : data.IsNumeric)
    (hx : t.Written n x) : data.Reads x := by
  induction hstands generalizing x with
  | @itself n u data hu hdata hplain =>
    have hkind := typeData?_eq_some_iff.1 hdata
    cases hx with
    | name hu' hkind' _ hshape | enumeration hu' hkind' _ hshape =>
      cases hu.symm.trans hu'
      cases hkind.symm.trans hkind'
      simp [TypeData.IsNumeric, hshape, TypeShape.width?] at hnumeric
    | outline hu' hkind' houtlined halike _ htext =>
      cases hu.symm.trans hu'
      cases hkind.symm.trans hkind'
      cases houtlined with
      | list _ hshape => simp [TypeData.IsNumeric, hshape, TypeShape.width?] at hnumeric
      | other _ _ ho => exact reads_of_outline ho halike htext
  | @name n u m v data data' id resolved hu hdata hwildcard hshape hlinked _ ih =>
    have hkind := typeData?_eq_some_iff.1 hdata
    cases hx with
    | name hu' hkind' _ hshape' hm hx =>
      cases hu.symm.trans hu'
      cases hkind.symm.trans hkind'
      cases hshape.symm.trans hshape'
      obtain ⟨link, hlink, hm'⟩ := declaredType_of_linkedType hlinked
      cases hlink
      cases hm.symm.trans hm'
      exact ih hnumeric hx
    | enumeration hu' hkind' _ hshape' =>
      cases hu.symm.trans hu'
      cases hkind.symm.trans hkind'
      cases hshape.symm.trans hshape'
    | outline hu' hkind' houtlined =>
      cases hu.symm.trans hu'
      cases hkind.symm.trans hkind'
      cases houtlined with
      | list _ hshape' => cases hshape.symm.trans hshape'
      | other _ _ ho => simp [Tree.outline, hwildcard, hshape] at ho

theorem reads_of_recorded (hwritten : t.AllWritten) (hstands : t.Stands n u data)
    (hnumeric : data.IsNumeric) (hv : t.unqualified n = some v)
    (hx : (t.typeData? v).bind TypeData.unification = some x) : data.Reads x := by
  obtain ⟨data', hdata', hx⟩ := bind_eq_some_iff.1 hx
  have hkind := typeData?_eq_some_iff.1 hdata'
  exact reads_of_written hstands hnumeric ((hwritten hkind hx).of_unqualified hv hkind)

theorem reads_of_serializeWithin (hwritten : t.AllWritten) (hstands : t.Stands n u data)
    (hnumeric : data.IsNumeric) {depth : Nat} (hx : t.serializeWithin depth n = some x) :
    data.Reads x := by
  induction depth generalizing n with
  | zero =>
    obtain ⟨v, hv, hx⟩ := bind_eq_some_iff.1 hx
    exact reads_of_recorded hwritten hstands hnumeric hv hx
  | succ depth ih =>
    obtain ⟨v, hv, hx⟩ := bind_eq_some_iff.1 hx
    obtain ⟨data', hdata', hx⟩ := bind_eq_some_iff.1 hx
    split at hx
    next htext =>
      cases hx
      exact reads_of_recorded hwritten hstands hnumeric hv (bind_eq_some_iff.2 ⟨_, hdata', htext⟩)
    · cases hstands with
      | itself hu hdata hplain =>
        cases hu.symm.trans hv
        cases hdata.symm.trans hdata'
        obtain ⟨o, ho, o', halike, htext⟩ := writesOutline_shape hplain hx
        exact reads_of_outline ho halike htext
      | name hu hdata hwildcard hshape hlinked hstands =>
        cases hu.symm.trans hv
        cases hdata.symm.trans hdata'
        simp only [serializeShape, hwildcard, hshape, Bool.false_eq_true, if_false, hlinked,
          bind_some] at hx
        exact ih hstands hx

theorem eq_of_width_text {c : TypeCategory} {w w' : Nat}
    (h : (⟨c, some .angle, [.width w]⟩ : Outline String).text =
      (⟨c, some .angle, [.width w']⟩ : Outline String).text) : w = w' := by
  have hproper (w : Nat) : (⟨c, some .angle, [.width w]⟩ : Outline String).Proper :=
    ⟨forall_mem_singleton.2 trivial, forall_mem_singleton.2 rfl⟩
  have heq := Outline.eq_of_text_eq (hproper w) (hproper w')
    (forall_mem_singleton.2 fun _ htype ↦ by cases htype)
    (forall_mem_singleton.2 fun _ htype ↦ by cases htype) h
  cases heq
  rfl

theorem category_eq_of_text {o : Outline String} (h : o.text = o'.text) :
    o.category = o'.category := by
  have hend : AtEnd [] := by simp [AtEnd]
  have hmark (o : Outline String) : AtMark o.tail := by simpa using Outline.atMark_tail hend o
  obtain ⟨hword, -⟩ := unmarked_append_inj (Outline.isWord_word _).2 (Outline.isWord_word _).2
    (hmark o) (hmark o') h
  exact Outline.word_inj (String.toList_injective hword)

theorem shape_eq_of_width {shape shape' : TypeShape} (hcategory : shape.category = shape'.category)
    (hwidth : shape.width? = some width) (hwidth' : shape'.width? = some width) : shape = shape' := by
  rcases eq_of_width hwidth with rfl | rfl <;> rcases eq_of_width hwidth' with rfl | rfl <;>
    first | rfl | cases hcategory

/-- An integer type has the text of no other integer type and of no optional. -/
theorem shape_eq_of_reads (hx : data.Reads x) (hwildcard : data.wildcard = false)
    (hwidth : data.shape.width? = some width) (hx' : data'.Reads x) (hnumeric : data'.IsNumeric)
    (hwildcard' : data'.shape ≠ .optional → data'.wildcard = false) : data'.shape = data.shape := by
  obtain ⟨o, htext, hcategory, ho⟩ := hx
  obtain ⟨o', htext', hcategory', ho'⟩ := hx'
  have hsame : o'.text = o.text := htext'.symm.trans htext
  have hcategories : data'.shape.category = data.shape.category := by
    rw [← hcategory, ← hcategory', category_eq_of_text hsame]
  rcases hnumeric with hsome | hoptional
  · obtain ⟨width', hwidth'⟩ := ne_none_iff_exists'.1 hsome
    have hne : data'.shape ≠ .optional := fun heq ↦ by rw [heq] at hwidth'; cases hwidth'
    rw [ho width hwildcard hwidth, ho' width' (hwildcard' hne) hwidth', hcategories] at hsame
    rw [eq_of_width_text hsame] at hwidth'
    exact shape_eq_of_width hcategories hwidth' hwidth
  · rw [hoptional] at hcategories
    rcases eq_of_width hwidth with hshape | hshape <;> rw [hshape] at hcategories <;>
      cases hcategories

theorem shape_eq_of_typesEqual (hwritten : t.AllWritten) (hstands : t.Stands n u data)
    (hwildcard : data.wildcard = false) (hwidth : data.shape.width? = some width)
    (hstands' : t.Stands n' u' data') (hnumeric : data'.IsNumeric)
    (hwildcard' : data'.shape ≠ .optional → data'.wildcard = false) (h : t.typesEqual n n' = true) :
    data'.shape = data.shape := by
  have hread {y : String} (hy : data.Reads y) (hy' : data'.Reads y) : data'.shape = data.shape :=
    shape_eq_of_reads hy hwildcard hwidth hy' hnumeric hwildcard'
  have hnumber : data.IsNumeric := .inl (by rw [hwidth]; simp)
  rcases typesEqual_iff.1 h with ⟨v, hv, hv'⟩ | ⟨y, hy, hy'⟩
  · rw [(hstands.unique hstands' (hv.trans hv'.symm)).2]
  · exact hread (reads_of_serializeWithin hwritten hstands hnumber hy)
      (reads_of_serializeWithin hwritten hstands' hnumeric hy')

end

end Tree

namespace Coercion

variable {t : Tree} {style : Style} {z : Int} {width a b : Nat} {target : TypeShape}

/-! ## Values that fit -/

theorem admits_of_fitsSigned (hz : -2 ^ 63 ≤ z ∧ z < 2 ^ 63) (h : fitsSigned z width = true) :
    (TypeShape.signed width).Admits z := by
  simp only [fitsSigned, Bool.or_eq_true, decide_eq_true_eq, Bool.and_eq_true] at h
  rcases h with (hzero | hwide) | hfits
  · exact .inl hzero
  · have hle : (2 : Int) ^ 63 ≤ 2 ^ (width - 1) := pow_le_pow_right₀ (by decide) (by omega)
    exact .inr ⟨by omega, by omega⟩
  · have hpow : Int.pow 2 (width - 1) = 2 ^ (width - 1) := rfl
    rw [hpow] at hfits
    exact .inr ⟨hfits.1, by omega⟩

theorem admits_of_fitsUnsigned {value : Nat} (hvalue : value < 2 ^ 64)
    (h : fitsUnsigned value width = true) : (TypeShape.unsigned width).Admits value := by
  simp only [fitsUnsigned, Bool.or_eq_true, decide_eq_true_eq] at h
  rcases h with (hzero | hwide) | hfits
  · exact .inl hzero
  · have hle : 2 ^ 64 ≤ 2 ^ width := Nat.pow_le_pow_right (by decide) hwide
    exact .inr ⟨by omega, by exact_mod_cast (by omega : value < 2 ^ width)⟩
  · exact .inr ⟨by omega, by exact_mod_cast hfits⟩

theorem eq_true_of_ensureFits {fits : Bool} (h : ensureFits fits z target = .ok ()) :
    fits = true := by
  unfold ensureFits at h
  split at h
  next hfits => exact hfits
  · cases h

/-- A word that is small enough keeps its value when it gets a sign. -/
theorem toInt_toInt64 {value : UInt64} (h : value.toNat < 2 ^ 63) : value.toInt64.toInt = value.toNat :=
  BitVec.toInt_eq_toNat_of_lt (by rw [UInt64.toBitVec_toInt64, UInt64.toNat_toBitVec]; omega)

/-- A literal that is accepted for an integer type fits into it and keeps its value. -/
theorem admits_of_literalRule {recurse : NodeId → Except NoMatch Unit} {n d : NodeId} {l : Literal}
    (followed : Option NodeId) (hl : l.integer? = some z) (hwidth : target.width? = some width)
    (h : literalRule t style recurse n l d target = .ok ()) :
    target.Admits z ∧ (retypedLiteral t l followed target).integer? = some z ∧
      (retypedLiteral t l followed target).shape? = some target := by
  cases l with
  | signed value _ =>
    obtain rfl := some.inj hl
    have hrange : -2 ^ 63 ≤ value.toInt ∧ value.toInt < 2 ^ 63 := ⟨value.le_toInt, value.toInt_lt⟩
    cases target with
    | signed => exact ⟨admits_of_fitsSigned hrange (eq_true_of_ensureFits h), rfl, rfl⟩
    | unsigned =>
      simp only [literalRule] at h
      split at h
      · cases h
      obtain ⟨hle, hfits⟩ := Bool.and_eq_true_iff.1 (eq_true_of_ensureFits h)
      have hle : 0 ≤ value.toInt := of_decide_eq_true hle
      have hle' : 0 ≤ value := Int64.le_iff_toInt_le.2 hle
      have hadmits := admits_of_fitsUnsigned (by omega) hfits
      rw [Int.toNat_of_nonneg hle] at hadmits
      refine ⟨hadmits, congrArg some ?_, rfl⟩
      rw [Int64.toNat_toUInt64_of_le hle', Int64.cast_toNatClampNeg value hle']
    | _ => cases hwidth
  | unsigned value _ =>
    obtain rfl := some.inj hl
    cases target with
    | unsigned => exact ⟨admits_of_fitsUnsigned value.toNat_lt (eq_true_of_ensureFits h), rfl, rfl⟩
    | signed =>
      simp only [literalRule] at h
      split at h
      · cases h
      obtain ⟨hlt, hfits⟩ := Bool.and_eq_true_iff.1 (eq_true_of_ensureFits h)
      have hlt : value.toNat < 2 ^ 63 := of_decide_eq_true hlt
      exact ⟨admits_of_fitsSigned ⟨by omega, by omega⟩ hfits, congrArg some (toInt_toInt64 hlt), rfl⟩
    | _ => cases hwidth
  | _ => cases hl

/-- A wider type admits more. -/
theorem admits_signed_of_le (hz : (TypeShape.signed a).Admits z) (ha : a ≠ 0) (hab : a ≤ b) :
    (TypeShape.signed b).Admits z := by
  obtain ⟨hlower, hupper⟩ := hz.resolve_left ha
  have hle : (2 : Int) ^ (a - 1) ≤ 2 ^ (b - 1) := pow_le_pow_right₀ (by decide) (by omega)
  exact .inr ⟨by omega, by omega⟩

theorem admits_unsigned_of_le (hz : (TypeShape.unsigned a).Admits z) (ha : a ≠ 0) (hab : a ≤ b) :
    (TypeShape.unsigned b).Admits z := by
  obtain ⟨hlower, hupper⟩ := hz.resolve_left ha
  have hle : (2 : Int) ^ a ≤ 2 ^ b := pow_le_pow_right₀ (by decide) hab
  exact .inr ⟨hlower, by omega⟩

theorem admits_signed_of_lt (hz : (TypeShape.unsigned a).Admits z) (ha : a ≠ 0) (hab : a < b) :
    (TypeShape.signed b).Admits z := by
  obtain ⟨hlower, hupper⟩ := hz.resolve_left ha
  have hle : (2 : Int) ^ a ≤ 2 ^ (b - 1) := pow_le_pow_right₀ (by decide) (by omega)
  exact .inr ⟨by omega, by omega⟩

theorem admits_of_width_zero (h : target.width? = some 0) : target.Admits z := by
  obtain rfl | rfl := eq_of_width h <;> exact .inl rfl

/-- A conversion between integer types that is not granted as narrowing keeps every value, but for
those of width 0. -/
theorem admits_of_typeRule {recurse : NodeId → NodeId → Except NoMatch Coercion} {s d : NodeId}
    {source : TypeShape} {c : Coercion} (htry : style.tryCoercion = false) (hz : source.Admits z)
    (hwidth : target.width? = some width) (hzero : source.width? = some 0 → target.width? = some 0)
    (h : typeRule t style recurse s d source target = .ok c) : target.Admits z := by
  have hnarrow {source target : TypeShape} : narrow style source target ≠ .ok c := by
    unfold narrow
    rw [htry]
    split <;> simp
  by_cases hany : source.width? = some 0
  · exact admits_of_width_zero (hzero hany)
  cases source with
  | signed a =>
    have ha : a ≠ 0 := fun ha ↦ hany (congrArg some ha)
    cases target with
    | signed b =>
      simp only [typeRule, reduceCtorEq, false_and, if_false] at h
      split at h
      · cases h
      split at h
      next hab => exact admits_signed_of_le hz ha hab
      · exact absurd h hnarrow
    | unsigned b =>
      simp only [typeRule, crossSign, reduceCtorEq, false_and, if_false] at h
      split at h
      · cases h
      split at h
      · cases h
      · exact absurd h hnarrow
    | _ => cases hwidth
  | unsigned a =>
    have ha : a ≠ 0 := fun ha ↦ hany (congrArg some ha)
    cases target with
    | signed b =>
      simp only [typeRule, crossSign, reduceCtorEq, false_and, if_false] at h
      split at h
      · cases h
      split at h
      · cases h
      split at h
      next hab => exact admits_signed_of_lt hz ha hab
      · exact absurd h hnarrow
    | unsigned b =>
      simp only [typeRule, reduceCtorEq, false_and, if_false] at h
      split at h
      · cases h
      split at h
      next hab => exact admits_unsigned_of_le hz ha hab
      · exact absurd h hnarrow
    | _ => cases hwidth
  | _ => cases hz

theorem exists_width_of_admits {shape : TypeShape} (h : shape.Admits z) :
    ∃ width, shape.width? = some width := by
  cases shape with
  | signed width | unsigned width => exact ⟨width, rfl⟩
  | _ => cases h

/-! ## Through optionals -/

/-- Front ends answer for units only. -/
def UnitsOnly (conversions : List Conversions) : Prop :=
  ∀ c ∈ conversions, ∀ t x y style, c.literal t x y style = none ∧
    (t.followedShape x ≠ some .unit → c.type t x y style = none)

theorem unitsOnly_of_frontEnds {conversions : List Conversions}
    (hfront : ∀ c ∈ conversions, c = FrontEnd.units.conversions ∨ c = FrontEnd.base.conversions) :
    UnitsOnly conversions := by
  intro c hc t x y style
  rcases hfront c hc with rfl | rfl
  · refine ⟨rfl, fun hshape ↦ ?_⟩
    show Units.convertType t x y style = none
    rw [eq_none_iff_forall_not_mem]
    intro answer hanswer
    unfold Units.convertType at hanswer
    simp only [bind_eq_bind, mem_def, bind_eq_some_iff, guard_eq_some',
      beq_iff_eq] at hanswer
    obtain ⟨_, _, u, hu, _, hunit, _⟩ := hanswer
    exact hshape (bind_eq_some_iff.2 ⟨u, hu, hunit⟩)
  · exact ⟨rfl, fun _ ↦ rfl⟩

section

variable {conversions : List Conversions} {l x y src dst s d : NodeId} {source data : TypeData}
  {shape : TypeShape} {fuel : Nat} {c : Coercion} {literal : Literal}

theorem UnitsOnly.plainLiterals (h : UnitsOnly conversions) : PlainLiterals conversions :=
  fun c hc t x y style ↦ (h c hc t x y style).1

/-- What the rule for literals was asked about a type that is known. -/
theorem literalRule_of_stands (hplain : PlainLiterals conversions) (hl : t.literal? l = some literal)
    (hstands : t.Stands y d data) (hnumeric : data.IsNumeric)
    (h : coerceLiteralWithin conversions t style l fuel y = .ok ()) :
    ∃ fuel', fuel = fuel' + 1 ∧ t.follow y = some d ∧ literalRule t style
      (coerceLiteralWithin conversions t style l fuel') l literal d data.shape = .ok () := by
  obtain ⟨fuel', _, _, target, hfuel, hl', hd, htarget, h⟩ := literalRule_of_coerceLiteralWithin hplain h
  cases hl.symm.trans hl'
  obtain rfl := hstands.eq_of_follow (category_ne_name hnumeric) hd
  cases htarget.symm.trans (shape?_eq_some_iff.2 ⟨data, hstands.kind_eq, rfl⟩)
  exact ⟨fuel', hfuel, hd, h⟩

/-- What the rules for types were asked about an integer type. -/
theorem typeRule_of_coerceTypeWithin (hunits : UnitsOnly conversions) (hstands : t.Stands x s source)
    (hwildcard : source.wildcard = false) (hz : source.shape.Admits z) (hd : t.Stands y d data)
    (hnumeric : data.IsNumeric) (h : coerceTypeWithin conversions t style fuel x y = .ok c) :
    t.typesEqual s d = true ∨
      data.wildcard = true ∧ source.shape.sameCategory data.shape = true ∨
      ∃ fuel', typeRule t style (coerceTypeWithin conversions t style fuel') s d source.shape
        data.shape = .ok c := by
  obtain ⟨width, hwidth⟩ := exists_width_of_admits hz
  have hfollow {s' : NodeId} (hs' : t.follow x = some s') : s' = s :=
    hstands.eq_of_follow (category_ne_name (.inl (by simp [hwidth]))) hs'
  have hs := typeData?_eq_some_iff.2 hstands.kind_eq
  have hunit : t.followedShape x ≠ some .unit := by
    intro hunit
    obtain ⟨s', hs', hunit⟩ := bind_eq_some_iff.1 hunit
    rw [hfollow hs', shape?, hs] at hunit
    rw [some.inj hunit] at hwidth
    cases hwidth
  have hnone : (conversions.findSome? fun c ↦ c.type t x y style) = none :=
    findSome?_eq_none_iff.2 fun c hc ↦ (hunits c hc t x y style).2 hunit
  cases fuel with
  | zero => cases h
  | succ fuel =>
    unfold coerceTypeWithin at h
    rw [hnone] at h
    split at h
    · cases h
    split at h
    next s' d' hs' hd' =>
      obtain rfl := hfollow hs'
      obtain rfl := hd.eq_of_follow (category_ne_name hnumeric) hd'
      split at h
      next hequal => exact .inl hequal
      · refine .inr ?_
        split at h
        next source' target hsource htarget =>
          cases hs.symm.trans hsource
          cases (typeData?_eq_some_iff.2 hd.kind_eq).symm.trans htarget
          dsimp only at h
          split at h
          next hany => exact .inl (Bool.and_eq_true_iff.1 hany)
          · rw [hwildcard] at h
            exact .inr ⟨fuel, h⟩
        · cases h
    · cases h

/-- What equals an integer type, and has an integer type inside, is that integer type. -/
theorem eq_of_typesEqual (hwritten : t.AllWritten) (hstands : t.Stands x s source)
    (hwildcard : source.wildcard = false) (hz : source.shape.Admits z) (hy : t.HasInteger y shape)
    (h : t.typesEqual x y = true) : shape = source.shape := by
  obtain ⟨width, hwidth⟩ := exists_width_of_admits hz
  cases hy with
  | integer hd htarget hwidth' =>
    exact shape_eq_of_typesEqual hwritten hstands hwildcard hwidth hd (.inl (by simp [hwidth']))
      (fun _ ↦ htarget) h
  | optional hd htarget =>
    have heq := shape_eq_of_typesEqual hwritten hstands hwildcard hwidth hd (.inr htarget)
      (fun hne ↦ absurd htarget hne) h
    rw [← heq, htarget] at hwidth
    cases hwidth

theorem needsOptional_of_integer (hl : literal.integer? = some z) :
    needsOptional literal .optional = true := by
  cases literal with
  | signed | unsigned => rfl
  | _ => cases hl

theorem typeRule_optional {recurse : NodeId → NodeId → Except NoMatch Coercion} {source : TypeShape}
    (hz : source.Admits z) (h : typeRule t style recurse s d source .optional = .ok c) :
    ∃ element, t.child d 0 = some element ∧ ∃ c', recurse s element = .ok c' := by
  cases source with
  | signed | unsigned =>
    simp only [typeRule, reduceCtorEq, false_and, if_false] at h
    split at h
    · cases h
    split at h
    · cases h
    next element helement =>
      refine ⟨element, helement, ?_⟩
      cases hrecurse : recurse s element with
      | error e => rw [hrecurse] at h; cases h
      | ok c' => exact ⟨c', rfl⟩
  | _ => cases hz

theorem admits_of_coerceLiteralWithin (hplain : PlainLiterals conversions) (hwritten : t.AllWritten)
    (hl : (t.literal? l).bind Literal.integer? = some z) (hsrc : t.child l 0 = some src)
    (hstands : t.Stands src s source) (hwildcard : source.wildcard = false)
    (hz : source.shape.Admits z) (hdst : t.HasInteger dst shape)
    (h : coerceLiteralWithin conversions t style l fuel dst = .ok ()) : shape.Admits z := by
  obtain ⟨literal, hliteral, hinteger⟩ := bind_eq_some_iff.1 hl
  induction hdst generalizing fuel with
  | integer hd _ hwidth =>
    obtain ⟨_, -, -, h⟩ := literalRule_of_stands hplain hliteral hd (.inl (by simp [hwidth])) h
    exact (admits_of_literalRule none hinteger hwidth h).1
  | optional hd htarget helement hinner ih =>
    obtain ⟨_, -, -, h⟩ := literalRule_of_stands hplain hliteral hd (.inr htarget) h
    rw [htarget] at h
    obtain ⟨element, src', helement', hsrc', h⟩ :=
      exists_element_of_literalRule (needsOptional_of_integer hinteger) h
    cases helement.symm.trans helement'
    cases hsrc.symm.trans hsrc'
    rcases h with hequal | h
    · rw [eq_of_typesEqual hwritten hstands hwildcard hz hinner hequal]
      exact hz
    · exact ih h

theorem admits_of_coerceTypeWithin (hunits : UnitsOnly conversions) (hwritten : t.AllWritten)
    (htry : style.tryCoercion = false) (hstands : t.Stands x s source)
    (hwildcard : source.wildcard = false) (hz : source.shape.Admits z) (hy : t.HasInteger y shape)
    (hzero : source.shape.width? = some 0 → shape.width? = some 0)
    (h : coerceTypeWithin conversions t style fuel x y = .ok c) : shape.Admits z := by
  obtain ⟨width, hwidth⟩ := exists_width_of_admits hz
  induction hy generalizing fuel x c with
  | integer hd htarget hwidth' =>
    obtain hequal | ⟨hany, -⟩ | ⟨fuel, h⟩ := typeRule_of_coerceTypeWithin hunits hstands hwildcard hz
      hd (.inl (by simp [hwidth'])) h
    · have hinteger := HasInteger.integer hd.self htarget hwidth'
      rw [eq_of_typesEqual hwritten hstands.self hwildcard hz hinteger hequal]
      exact hz
    · rw [htarget] at hany
      cases hany
    · exact admits_of_typeRule htry hz hwidth' hzero h
  | optional hd htarget helement hinner ih =>
    have hcases :=
      typeRule_of_coerceTypeWithin hunits hstands hwildcard hz hd (.inr htarget) h
    rw [htarget] at hcases
    obtain hequal | ⟨-, hcategory⟩ | ⟨fuel, h⟩ := hcases
    · have hoptional := HasInteger.optional hd.self htarget helement hinner
      rw [eq_of_typesEqual hwritten hstands.self hwildcard hz hoptional hequal]
      exact hz
    · rcases eq_of_width hwidth with hshape | hshape <;> rw [hshape] at hcategory <;> cases hcategory
    · obtain ⟨element, helement', c', h⟩ := typeRule_optional hz h
      cases helement.symm.trans helement'
      exact ih hstands.self hzero h

/-- An integer literal that is coerced to an integer type, or to one inside of optionals, is an
integer of that type, unless narrowing is granted or its own type has width 0. -/
theorem admits_of_coerceExpression {e : NodeId}
    (hfront : ∀ c ∈ conversions, c = FrontEnd.units.conversions ∨ c = FrontEnd.base.conversions)
    (hwritten : t.AllWritten) (he : t.IntegerLiteral e l src z) (hstands : t.Stands src s source)
    (hwildcard : source.wildcard = false) (hz : source.shape.Admits z) (hdst : t.HasInteger dst shape)
    (hzero : source.shape.width? = some 0 → shape.width? = some 0) (htry : style.tryCoercion = false)
    (h : coerceExpression conversions t e dst style = .ok c) (hc : c ≠ .unchanged) : shape.Admits z := by
  have hunits := unitsOnly_of_frontEnds hfront
  have hsrc : t.expressionType e = some src := by
    unfold expressionType expressionTypeWithin
    rw [he.kind]
    show (t.child e 0).bind _ = _
    rw [he.child, bind_some, he.type]
  unfold coerceExpression at h
  rw [hsrc] at h
  dsimp only at h
  split at h
  · cases h
  split at h
  · exact absurd (Except.ok.inj h).symm hc
  split at h
  · exact absurd (Except.ok.inj h).symm hc
  simp only [he.kind, he.child, beq_self_eq_true, if_true, map_some] at h
  cases hliteral : coerceLiteral conversions t l dst style with
  | ok =>
    exact admits_of_coerceLiteralWithin hunits.plainLiterals hwritten he.value he.type hstands hwildcard hz hdst
      hliteral
  | error refusal =>
    rw [hliteral] at h
    cases htype : coerceType conversions t src dst style with
    | error refusal' => rw [htype] at h; cases h
    | ok c' =>
      exact admits_of_coerceTypeWithin hunits hwritten htry hstands hwildcard hz hdst hzero htype

end

/-- The number 2 ^ 63 of a word, and an optional wide integer by its name. -/
def wideNumber : Tree := .ofRows [
  (.root, [1]),
  (.declares "Wide" .type .external, [2]),
  (.value, [3]),
  (.shaped (.signed 128) "int<128>", []),
  (.expression .literal, [5]),
  (.literal (.unsigned 9223372036854775808 64), [6]),
  (.value .const, [7]),
  (.shaped (.unsigned 64), []),
  (.shaped .optional, [9]),
  (.value, [10]),
  (.shaped (.name (.ofText "Wide") (some ⟨⟨1⟩, none⟩)), [])]

theorem allWritten_wideNumber : wideNumber.AllWritten := by
  have hothers : ∀ i < 11, i ≠ 3 → (wideNumber.typeData? ⟨i⟩).bind TypeData.unification = none := by
    decide
  intro n data x hkind hx
  have hrecorded : (wideNumber.typeData? n).bind TypeData.unification = some x := by
    rw [typeData?_eq_some_iff.2 hkind]
    exact hx
  have hlt : wideNumber.Has n := has_of_kind (by rw [hkind]; simp)
  by_cases hn : n = ⟨3⟩
  · subst hn
    cases hkind
    cases hx
    have houtlined : wideNumber.Outlined ⟨3⟩ { shape := .signed 128, unification := some "int<128>" }
        ⟨.signed, some .angle, [.width 128]⟩ :=
      .other (.inr (by simp)) (fun hmembers ↦ by cases hmembers.2.1) rfl
    have halike : Outline.Alike (fun (_ : NodeId) (_ : String) ↦ False)
        ⟨.signed, some .angle, [.width 128]⟩ ⟨.signed, some .angle, [.width 128]⟩ :=
      ⟨rfl, rfl, .cons (.width 128) .nil⟩
    exact .outline rfl rfl houtlined halike (fun _ _ hfalse ↦ hfalse.elim) (by decide)
  · rw [hothers n.index hlt fun heq ↦ hn (by cases n; cases heq; rfl)] at hrecorded
    cases hrecorded

/-- It is no signed word, so it is not made anew, but it is converted, and fits. -/
theorem admits_wideNumber :
    coerceExpression [FrontEnd.units.conversions] wideNumber ⟨4⟩ ⟨8⟩ .ofAssignment = .ok .wrap ∧
      (TypeShape.signed 128).Admits 9223372036854775808 := by
  have hcoerce : coerceExpression [FrontEnd.units.conversions] wideNumber ⟨4⟩ ⟨8⟩ .ofAssignment =
      .ok .wrap := by decide +kernel
  have hnumber : wideNumber.Stands ⟨6⟩ ⟨7⟩ { shape := .unsigned 64 } :=
    .itself rfl rfl (.inr (by simp [TypeShape.category]))
  have hlinked : wideNumber.linkedType (some ⟨⟨1⟩, none⟩) = some ⟨3⟩ := by decide +kernel
  have hdeclared : wideNumber.Stands ⟨3⟩ ⟨3⟩ { shape := .signed 128, unification := some "int<128>" } :=
    .itself rfl rfl (.inr (by simp [TypeShape.category]))
  have hwide : wideNumber.HasInteger ⟨9⟩ (.signed 128) :=
    .integer (.name rfl rfl rfl rfl hlinked hdeclared) rfl rfl
  have hoptional : wideNumber.HasInteger ⟨8⟩ (.signed 128) :=
    .optional (.itself rfl rfl (.inr (by simp [TypeShape.category]))) rfl rfl hwide
  refine ⟨hcoerce, admits_of_coerceExpression (fun c hc ↦ .inl (mem_singleton.1 hc))
    allWritten_wideNumber ⟨rfl, rfl, by decide +kernel, rfl⟩ hnumber rfl (.inr (by decide)) hoptional
    (fun h ↦ by cases h) rfl hcoerce (by simp)⟩

/-- The number 300 of a width that holds any integer, and a byte. -/
def unboundedNumber : Tree := .ofRows [
  (.root, []),
  (.expression .literal, [2]),
  (.literal (.signed 300 0), [3]),
  (.value .const, [4]),
  (.shaped (.signed 0), []),
  (.shaped (.signed 8), [])]

/-- It is converted to a byte in an assignment, although it is none: not by its value, but since
width 0 is less than width 8. -/
theorem not_admits_unboundedNumber :
    unboundedNumber.IntegerLiteral ⟨1⟩ ⟨2⟩ ⟨3⟩ 300 ∧ (TypeShape.signed 0).Admits 300 ∧
      coerceLiteral [] unboundedNumber ⟨2⟩ ⟨5⟩ .ofAssignment = .error (.doesNotFit 300 (.signed 8)) ∧
      coerceExpression [] unboundedNumber ⟨1⟩ ⟨5⟩ .ofAssignment = .ok .wrap ∧
      ¬(TypeShape.signed 8).Admits 300 := by
  refine ⟨⟨rfl, rfl, by decide +kernel, rfl⟩, .inl rfl, by decide +kernel, by decide +kernel, ?_⟩
  rintro (hzero | ⟨-, hlt⟩)
  · cases hzero
  · exact absurd hlt (by decide)

end Coercion

end ProtocolIR
