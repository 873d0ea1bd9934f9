import ProtocolIR.Attribute
import ProtocolIR.Units.Basic
import ProtocolIR.Validation

/-!
# Validation of units
-/

namespace ProtocolIR.Units.Validation

open ProtocolIR.Validation (Errors repeatedIds)

variable (t : Tree)

def fieldAttributes (n : NodeId) : Option NodeId := t.child n 3

/-- Whether a type is a list, as far as that can be told before resolution. -/
def mayBeList (n : NodeId) : Bool :=
  match (t.unqualified n).bind t.shape? with
  | some .list | some (.name ..) => true
  | _ => false

def countErrors (n : NodeId) : Errors :=
  match t.attributeTagged (fieldAttributes t n) "&count" with
  | none => []
  | some count =>
    (if (t.child n 0).any (mayBeList t) then [] else [(count, "&count can only be used with lists")]) ++
      (if t.hasTagged (fieldAttributes t n) "&until" then
        [(count, "&count and &until cannot be combined")]
      else [])

def sizeErrors (n : NodeId) : Errors :=
  match t.attributeTagged (fieldAttributes t n) "&size" with
  | none => []
  | some size =>
    match t.attributeValue size with
    | .error (.missingValue tag) => [(size, (AttributeError.missingValue tag).message)]
    | _ => []

def unitPreErrors (unit : NodeId) : Errors :=
  let items := t.unitItems unit
  repeatedIds [] (items.filterMap fun n ↦ (t.itemId? n).map fun id ↦ (n, id)) ++
    (items.filter t.isUnitField).flatMap fun n ↦ countErrors t n ++ sizeErrors t n

/-- The checks that need no resolution. -/
def validatePre (start : NodeId) : Tree :=
  t.addErrors ((t.units start).flatMap (unitPreErrors t)) .preValidation

/-! ## After resolution -/

def switchErrors (n : NodeId) : Errors :=
  if t.kind n == .item .switch then
    if ((t.child n 0).bind t.expressionType).all t.isResolved then []
    else [(n, "cannot determine type of switch expression")]
  else []

/-- Whether a type mentions a type name that is not resolved. -/
def hasUnknownName (n : NodeId) : Bool :=
  (t.subtree n).any fun m ↦
    match t.shape? m with
    | some (.name _ none) => true
    | _ => false

/-- Unknown type names are reported where they stand. -/
def typeErrors (n : NodeId) : Errors :=
  match (t.child n 0).filter fun type ↦ !t.isResolved type with
  | none => []
  | some type =>
    if hasUnknownName t type then []
    else
      [(n, "cannot determine type of unit item '" ++ (t.itemId? n).getD "<anonymous>" ++ "'")]

/-- The value of an attribute is an integer, as far as its type is known. -/
def integerErrors (n : NodeId) (tag : String) : Errors :=
  match t.attributeTagged (fieldAttributes t n) tag with
  | none => []
  | some a =>
    match t.attributeValue a with
    | .error _ => []
    | .ok value =>
      if ((t.expressionType value).bind t.followedShape).all TypeShape.isInteger then []
      else [(a, "value of attribute '" ++ tag ++ "' must be an integer")]

def itemErrors (n : NodeId) : Errors :=
  typeErrors t n ++
    if t.isUnitField n then integerErrors t n "&size" ++ integerErrors t n "&count" else []

def unitPostErrors (unit : NodeId) : Errors :=
  (t.childrenFrom unit 0 .item).flatMap (switchErrors t) ++ (t.unitItems unit).flatMap (itemErrors t)

/-- The checks of the resolved units. -/
def validatePost (start : NodeId) : Tree :=
  t.addErrors ((t.units start).flatMap (unitPostErrors t)) .postValidation

end ProtocolIR.Units.Validation
