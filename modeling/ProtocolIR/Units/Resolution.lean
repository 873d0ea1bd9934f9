import ProtocolIR.Attribute
import ProtocolIR.Coercion.Sweep
import ProtocolIR.Units.Basic

/-!
# Resolution inside units

Inside a unit `self` is the unit, and `$$` is the value of the field at hand. Conditions of
fields are coerced to `bool`, and defaults of variables to their types.
-/

namespace ProtocolIR

/-- A unit becomes a reference to itself where it is assigned or passed. -/
def Units.convertType (t : Tree) (src dst : NodeId) (style : Style) : Option (Except NoMatch Unit) := do
  guard (style.assignment || style.functionCall)
  let s ← t.follow src
  guard (t.shape? s == some .unit)
  let d ← t.follow dst
  guard (t.shape? d == some .valueRef || t.shape? d == some .strongRef)
  let target ← t.follow (← t.elementType d)
  if t.typesEqual s target then return .ok () else none

namespace Units.Resolution

open Coercion

/-- Gives a keyword its type. -/
def typeKeyword (n : NodeId) (word : Keyword) (type : NodeId) (qualifiers : Qualifiers) : Pass Unit := do
  let inner ← Surgery.typeReference type
  let qualified ← Surgery.create (.qualified qualifiers) [some inner] ((← Pass.tree).location n)
  Surgery.setChild n 0 (some qualified)
  Pass.recordChange .unitResolver n ("typed " ++ word.text)

/-- Whether a node is part of an attribute that ends a repetition. -/
def isInLoopCondition (t : Tree) (n : NodeId) : Bool :=
  (t.ancestors n).any fun a ↦ t.tag? a == some "&until" || t.tag? a == some "&while"

/-- The type of the value of the field around a node; where the end of a repetition is decided,
the type of the element just read. -/
def currentType (t : Tree) (n : NodeId) : Option NodeId := do
  let field ← t.findAncestor n fun kind ↦
    match kind.item? with
    | some (.field ..) => true
    | _ => false
  let type ← t.child field 0
  guard (t.isResolved type)
  if isInLoopCondition t n && t.followedShape type == some .list then t.elementType type
  else return type

/-- The unit type around a node. -/
def enclosingUnit (t : Tree) (n : NodeId) : Option NodeId :=
  (t.ancestors n).find? fun a ↦ t.shape? a == some .unit

/-- The type of a keyword, and what kind of value it is. -/
def keywordType (t : Tree) (n : NodeId) : Keyword → Option (NodeId × Qualifiers)
  | .self => (enclosingUnit t n).map fun unit ↦ (unit, .place .mutable)
  | .current => (currentType t n).map fun type ↦ ((t.unqualified type).getD type, .value .const)

def resolveKeyword (n : NodeId) (word : Keyword) : Pass Bool := do
  let t ← Pass.tree
  match t.child n 0, keywordType t n word with
  | none, some (type, qualifiers) =>
    typeKeyword n word type qualifiers
    return true
  | _, _ => return false

def resolveNode (session : Session) (n : NodeId) : Sweep Unit := do
  match (← Pass.tree).kind n with
  | .expression (.keyword word) =>
    let changed ← resolveKeyword n word
    modify fun s ↦ { s with changed := s.changed || changed }
  | .item (.field ..) => Sweep.condition session .unitResolver n 2
  | .item (.var _) => Sweep.declaredValue session .unitResolver n
  | _ => return

/-- One step of resolution inside the units beneath a node; says whether anything changed. -/
def resolve (session : Session) (start : NodeId) : Pass Bool := do
  let state ← Pass.walk .post start ({} : SweepState) fun state n ↦ do
    return (← (resolveNode session n).run state).2
  return state.changed

end Units.Resolution

end ProtocolIR
