import ProtocolIR.Tree.Typing

/-!
# Attributes

An attribute set holds attributes, each a tag with an optional value. Reading a value fails if
there is none, if it is not an expression, or if it is not a literal of the wanted type.
-/

namespace ProtocolIR

inductive AttributeError where
  | missingValue (tag : String)
  | notExpression (tag : String)
  | wrongType (tag expected : String)
  deriving DecidableEq, Inhabited

def AttributeError.message : AttributeError → String
  | .missingValue tag => "attribute '" ++ tag ++ "' requires an argument"
  | .notExpression tag => "value of attribute '" ++ tag ++ "' must be an expression"
  | .wrongType tag expected => "value of attribute '" ++ tag ++ "' must be " ++ expected

namespace Tree

def tag? (t : Tree) (n : NodeId) : Option String :=
  match t.kind n with
  | .attr tag => some tag
  | _ => none

/-- The attributes of a set that carry a tag. -/
def attributesTagged (t : Tree) (set : Option NodeId) (tag : String) : List NodeId :=
  (set.toList.flatMap t.children).filter fun a ↦ t.tag? a == some tag

def attributeTagged (t : Tree) (set : Option NodeId) (tag : String) : Option NodeId :=
  (t.attributesTagged set tag).head?

def hasTagged (t : Tree) (set : Option NodeId) (tag : String) : Bool :=
  (t.attributeTagged set tag).isSome

/-- Takes every attribute with a tag out of a set. -/
def removeTagged (t : Tree) (set : NodeId) (tag : String) : Tree :=
  let isTagged : Option NodeId → Bool := fun slot ↦ slot.any fun a ↦ t.tag? a == some tag
  let removed := ((t.slots set).filter isTagged).filterMap id
  (t.setSlots set ((t.slots set).filter fun slot ↦ !isTagged slot)).setParents removed none

def tagOrPlaceholder (t : Tree) (n : NodeId) : String := (t.tag? n).getD "<not an attribute>"

def attributeValue (t : Tree) (n : NodeId) : Except AttributeError NodeId :=
  match t.child n 0 with
  | none => .error (.missingValue (t.tagOrPlaceholder n))
  | some value =>
    if (t.kind value).isExpression then .ok value
    else .error (.notExpression (t.tagOrPlaceholder n))

def attributeString (t : Tree) (n : NodeId) : Except AttributeError String := do
  let value ← t.attributeValue n
  match (t.literalOf value).bind t.literal? with
  | some (.string text) => .ok text
  | _ => .error (.wrongType (t.tagOrPlaceholder n) "a string")

def attributeInteger (t : Tree) (n : NodeId) : Except AttributeError Int := do
  let value ← t.attributeValue n
  match (t.literalOf value).bind t.literal? with
  | some (.signed v _) => .ok v.toInt
  | some (.unsigned v _) => .ok v.toNat
  | _ => .error (.wrongType (t.tagOrPlaceholder n) "an integer")

end Tree

end ProtocolIR
