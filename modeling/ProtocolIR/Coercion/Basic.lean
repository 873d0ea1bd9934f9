import ProtocolIR.Coercion.Style
import ProtocolIR.Unification

/-!
# Coercion

Whether and how a value of one type reaches another. Types that are the same need nothing, a
literal is made anew with the target type when its value fits, and any other value is wrapped
in a conversion. Front ends may answer before the built-in rules do.
-/

namespace ProtocolIR

/-- How an expression reaches its target type. -/
inductive Coercion where
  | unchanged
  | retype
  | wrap
  deriving DecidableEq, Inhabited

/-- The number of conversions it takes. -/
def Coercion.cost : Coercion → Nat
  | .unchanged => 0
  | .retype | .wrap => 1

/-- Why a coercion does not apply. -/
inductive NoMatch where
  | noRule
  | notResolved
  | untyped
  | lossy
  | narrowing (source target : TypeShape)
  | signedness
  | tupleLengths
  | referents
  | doesNotFit (value : Int) (target : TypeShape)
  /-- The types go on forever. -/
  | endless
  /-- A reason of a front end. -/
  | foreign (reason : Option String)
  deriving DecidableEq, Inhabited

namespace NoMatch

def reason? : NoMatch → Option String
  | noRule | endless => none
  | notResolved => some "type not resolved"
  | untyped => some "expression has no type yet"
  | lossy => some "lossy conversion not allowed"
  | narrowing source target =>
    some ("narrowing conversion from " ++ source.summary ++ " to " ++ target.summary)
  | signedness => some "signed/unsigned conversion not allowed"
  | tupleLengths => some "tuples differ in length"
  | referents => some "references to different types"
  | doesNotFit value target =>
    some ("value " ++ toString value ++ " does not fit into " ++ target.summary)
  | foreign reason => reason

def text (noMatch : NoMatch) : String := noMatch.reason?.getD "no coercion available"

end NoMatch

/-- The answers of a front end; none leaves the question to the next and to the built-in rules. -/
structure Conversions where
  literal : Tree → NodeId → NodeId → Style → Option (Except NoMatch Unit) := fun _ _ _ _ ↦ none
  type : Tree → NodeId → NodeId → Style → Option (Except NoMatch Unit) := fun _ _ _ _ ↦ none

namespace Coercion

/-- The largest magnitude up to which a real holds every integer. -/
def exactRealLimit : Nat := Nat.pow 2 53

/-- Whether an integer is one of the two's complement integers of a width. Width 0 is any
width, and nothing is wider than a word. -/
def fitsSigned (value : Int) (width : Nat) : Bool :=
  width = 0 || width ≥ 64 || (-Int.pow 2 (width - 1) ≤ value && value ≤ Int.pow 2 (width - 1) - 1)

/-- Whether an integer is one of the unsigned integers of a width. -/
def fitsUnsigned (value : Nat) (width : Nat) : Bool :=
  width = 0 || width ≥ 64 || value < Nat.pow 2 width

/-- A conversion that may lose something needs permission. -/
def narrow (style : Style) (source target : TypeShape) : Except NoMatch Coercion :=
  if style.disallowLossy then .error .lossy
  else if style.tryCoercion then .ok .wrap
  else .error (.narrowing source target)

/-- A conversion that changes signedness can be forbidden. -/
def crossSign (style : Style) (inner : Except NoMatch Coercion) : Except NoMatch Coercion :=
  if style.disallowSignedUnsigned then .error .signedness else inner

/-- Whether values of a shape can be conditions. -/
def isConditional : TypeShape → Bool
  | .signed _ | .unsigned _ | .optional | .result | .error | .strongRef | .weakRef | .valueRef
  | .bytes | .string => true
  | _ => false

/-- The rules for two followed types that are not the same, given how the types inside them
are coerced. -/
def typeRule (t : Tree) (style : Style) (recurse : NodeId → NodeId → Except NoMatch Coercion)
    (s d : NodeId) (source target : TypeShape) : Except NoMatch Coercion :=
  match source, target with
  | .bool, .bool => .ok .unchanged
  | _, _ =>
    if target = .bool ∧ style.contextual then
      if isConditional source then .ok .wrap else .error .noRule
    else if !style.converts then .error .noRule
    else
      match source, target with
      | .signed a, .signed b | .unsigned a, .unsigned b =>
        if a ≤ b then .ok .wrap else narrow style source target
      | .unsigned a, .signed b =>
        crossSign style (if a < b then .ok .wrap else narrow style source target)
      | .signed _, .unsigned _ => crossSign style (narrow style source target)
      | .signed width, .real | .unsigned width, .real =>
        if width ≤ 32 then .ok .wrap else narrow style source target
      | .null, .optional | .null, .strongRef | .null, .weakRef | .null, .valueRef => .ok .wrap
      | .error, .result => .ok .wrap
      | _, .optional | _, .result =>
        match t.child d 0 with
        | none => .error .noRule
        | some element => (recurse s element).map fun _ ↦ .wrap
      | .strongRef, .weakRef =>
        if style.assignment then
          match t.child s 0, t.child d 0 with
          | some a, some b => if t.typesEqual a b then .ok .wrap else .error .referents
          | _, _ => .error .noRule
        else .error .noRule
      | .strongRef, _ =>
        if style.assignment then
          match t.child s 0 with
          | some inner => if t.typesEqual inner d then .ok .wrap else .error .noRule
          | none => .error .noRule
        else .error .noRule
      | .tuple, .tuple =>
        if (t.children s).length ≠ (t.children d).length then .error .tupleLengths
        else do
          ((t.children s).zip (t.children d)).forM fun (a, b) ↦ discard (recurse a b)
          return .wrap
      | _, _ => .error .noRule

def coerceTypeWithin (conversions : List Conversions) (t : Tree) (style : Style) :
    Nat → NodeId → NodeId → Except NoMatch Coercion
  | 0, _, _ => .error .endless
  | fuel + 1, src, dst =>
    if !t.isResolved src || !t.isResolved dst then .error .notResolved
    else
      match t.follow src, t.follow dst with
      | some s, some d =>
        if t.typesEqual s d then .ok .unchanged
        else
          match t.typeData? s, t.typeData? d with
          | some source, some target =>
            let sameCategory := source.shape.sameCategory target.shape
            if target.wildcard && sameCategory then .ok .unchanged
            else
              match conversions.findSome? fun c ↦ c.type t src dst style with
              | some answer => answer.map fun _ ↦ .wrap
              | none =>
                if source.wildcard && sameCategory && style.converts then .ok .wrap
                else
                  typeRule t style (coerceTypeWithin conversions t style fuel) s d source.shape
                    target.shape
          | _, _ => .error .noRule
      | _, _ => .error .notResolved

/-- How a value of one type reaches another. A recursion that ends meets no pair of types twice
on its way. -/
def coerceType (conversions : List Conversions) (t : Tree) (src dst : NodeId) (style : Style) :
    Except NoMatch Coercion :=
  coerceTypeWithin conversions t style ((t.size + 1) * (t.size + 1)) src dst

/-! ## Literals -/

def ensureFits (fits : Bool) (value : Int) (target : TypeShape) : Except NoMatch Unit :=
  if fits then .ok () else .error (.doesNotFit value target)

/-- The rules for a literal and a followed type, given how the literal reaches a type inside. -/
def literalRule (t : Tree) (style : Style) (recurse : NodeId → Except NoMatch Unit)
    (n : NodeId) (l : Literal) (d : NodeId) (target : TypeShape) : Except NoMatch Unit :=
  match l, target with
  | .signed value _, .signed width =>
    ensureFits (fitsSigned value.toInt width) value.toInt target
  | .unsigned value _, .unsigned width =>
    ensureFits (fitsUnsigned value.toNat width) value.toNat target
  | .signed value _, .unsigned width =>
    if style.disallowSignedUnsigned then .error .noRule
    else
      ensureFits (0 ≤ value.toInt && fitsUnsigned value.toInt.toNat width) value.toInt target
  | .unsigned value _, .signed width =>
    if style.disallowSignedUnsigned then .error .noRule
    else
      ensureFits (value.toNat < Nat.pow 2 63 && fitsSigned value.toNat width) value.toNat target
  | .signed value _, .real =>
    ensureFits (value.toInt.natAbs ≤ exactRealLimit) value.toInt target
  | .unsigned value _, .real =>
    ensureFits (value.toNat ≤ exactRealLimit) value.toNat target
  | .signed .., .bool | .unsigned .., .bool | .signed .., .enumeration
  | .unsigned .., .enumeration => if style.contextual then .ok () else .error .noRule
  | .null, .optional | .null, .strongRef | .null, .weakRef | .null, .valueRef => .ok ()
  | .optional, .optional | .list, .list =>
    -- Only empty literals, whose type is still open.
    if (t.slots n).length ≤ 1 || (t.child n 1).isNone then .ok () else .error .noRule
  | _, .optional =>
    match t.child d 0, t.child n 0 with
    | some element, some src => if t.typesEqual src element then .ok () else recurse element
    | _, _ => .error .noRule
  | _, _ => .error .noRule

def coerceLiteralWithin (conversions : List Conversions) (t : Tree) (style : Style) (n : NodeId) :
    Nat → NodeId → Except NoMatch Unit
  | 0, _ => .error .endless
  | fuel + 1, dst =>
    match conversions.findSome? fun c ↦ c.literal t n dst style with
    | some answer => answer
    | none =>
      match t.literal? n with
      | none => .error .noRule
      | some l =>
        match t.follow dst with
        | none => .error .notResolved
        | some d =>
          match t.shape? d with
          | none => .error .noRule
          | some target =>
            literalRule t style (coerceLiteralWithin conversions t style n fuel) n l d target

/-- Whether a literal can be made anew with another type. -/
def coerceLiteral (conversions : List Conversions) (t : Tree) (n dst : NodeId) (style : Style) :
    Except NoMatch Unit :=
  coerceLiteralWithin conversions t style n (t.size + 1) dst

/-! ## Expressions -/

/-- Whether a value keeps its own type although the target is another one of its category. -/
def keepsType (t : Tree) (src dst : NodeId) (style : Style) : Bool :=
  match t.followedShape src, (t.follow dst).bind t.typeData? with
  | some source, some target =>
    target.shape.sameCategory source && (target.wildcard || style.keepsOwn)
  | _, _ => false

/-- The refusal that is reported when neither the literal nor its type fits. -/
def clearer (literal type : NoMatch) : NoMatch := if literal.reason?.isSome then literal else type

/-- How an expression reaches a type. -/
def coerceExpression (conversions : List Conversions) (t : Tree) (e dst : NodeId) (style : Style) :
    Except NoMatch Coercion :=
  match t.expressionType e with
  | none => .error .untyped
  | some src =>
    if !t.isResolved src || !t.isResolved dst then .error .notResolved
    else if t.typesEqual src dst then .ok .unchanged
    else if keepsType t src dst style then .ok .unchanged
    else
      let literal := if t.kind e == .expression .literal then t.child e 0 else none
      match literal.map fun l ↦ coerceLiteral conversions t l dst style with
      | none => coerceType conversions t src dst style
      | some (.ok ()) => .ok .retype
      | some (.error refusal) => (coerceType conversions t src dst style).mapError (clearer refusal)

end Coercion

end ProtocolIR
