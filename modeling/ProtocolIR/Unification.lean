import ProtocolIR.Workspace

/-!
# Unification

A type is serialized to a text, and two types are the same exactly when their texts are equal.
A declared compound type is written by its type ID, which keeps recursive types finite, and not
at all before it has one; anything not resolved yet cannot be written. A recorded text is used
as it stands. Nesting deeper than `serializationDepth` is given up.
-/

namespace ProtocolIR

def serializationDepth : Nat := 32

namespace Tree

section

variable (t : Tree) (write : NodeId → Option String)

/-- A qualified type with its constness; what is not a qualified type, as a type. -/
def serializeQualifiedWith (n : NodeId) : Option String :=
  match t.qualifiers? n with
  | none => write n
  | some q => do return (if q.isConst then "c:" else "m:") ++ (← write (← t.child n 0))

/-- A category around one part. -/
def serializeAround (word : String) (part : Option NodeId) : Option String := do
  return word ++ "(" ++ (← serializeQualifiedWith t write (← part)) ++ ")"

def serializeMember (n : NodeId) : Option String :=
  match t.declaration? n with
  | none => some ""
  | some d =>
    match d.kind with
    | .label value _ _ => some (d.id ++ "=" ++ toString ((value.map Int64.toInt).getD (-1)))
    | _ => do return d.id ++ ":" ++ (← serializeQualifiedWith t write (← t.child n 0))

/-- Whether a type is what a type declaration declares. -/
def isDeclared (n : NodeId) : Bool :=
  (((t.parent n).bind t.parent).map t.kind).any NodeKind.isTypeDeclaration

def serializeCompound (n : NodeId) (word : String) (typeId : Option String) : Option String :=
  match typeId with
  | some id => some (word ++ "\x7bname:" ++ id ++ "\x7d")
  | none =>
    if isDeclared t n then none
    else do
      let members ← (t.children n).mapM (serializeMember t write)
      return word ++ "\x7b" ++ String.intercalate "," members ++ "\x7d"

/-- A parameter by its type, a result as it is. -/
def serializeSignaturePart (n : NodeId) : Option String :=
  match t.kind n with
  | .declaration _ => (t.child n 0).bind (serializeQualifiedWith t write)
  | _ => serializeQualifiedWith t write n

/-- The first part is set apart by a semicolon, the others by commas. -/
def joinSignature : List String → String
  | [] => ""
  | [result] => result
  | result :: parameters => result ++ ";" ++ String.intercalate "," parameters

/-- A type by its shape, given how the types inside it are written. -/
def serializeShape (n : NodeId) (data : TypeData) : Option String :=
  let word := data.shape.category.word
  if data.wildcard then some (word ++ "<*>")
  else
    match data.shape with
    | .auto | .unknown => none
    | .name _ resolved => (t.linkedType resolved).bind write
    | .signed width | .unsigned width => some (word ++ "<" ++ toString width ++ ">")
    | .list => serializeAround t write "list" (t.elementType n)
    | .iterator | .optional | .result | .strongRef | .weakRef | .valueRef | .typeOf =>
      serializeAround t write word (t.child n 0)
    | .tuple => do
      let parts ← (t.children n).mapM (serializeQualifiedWith t write)
      return "tuple(" ++ String.intercalate "," parts ++ ")"
    | .enumeration | .struct | .union | .unit => serializeCompound t write n word data.typeId
    | .function => do
      let parts ← (t.children n).mapM (serializeSignaturePart t write)
      return "function(" ++ joinSignature parts ++ ")"
    | .library symbol => some ("library(" ++ symbol ++ ")")
    | .member id => some ("member(" ++ id ++ ")")
    | _ => some word

end

/-- A type, with some levels of nesting to go. A recorded text needs none. -/
def serializeWithin (t : Tree) : Nat → NodeId → Option String
  | 0, n => do (← t.typeData? (← t.unqualified n)).unification
  | depth + 1, n => do
    let u ← t.unqualified n
    let data ← t.typeData? u
    match data.unification with
    | some text => some text
    | none => serializeShape t (t.serializeWithin depth) u data

/-- The serialization of a type, if it can be written yet. -/
def serialize (t : Tree) (n : NodeId) : Option String := t.serializeWithin serializationDepth n

/-- The serialization of a qualified type with its constness. -/
def serializeQualified (t : Tree) (n : NodeId) : Option String :=
  serializeQualifiedWith t t.serialize n

/-- Whether two types are the same, by record or by their texts. -/
def typesEqual (t : Tree) (a b : NodeId) : Bool :=
  t.sameType a b ||
    match t.serialize a, t.serialize b with
    | some x, some y => x == y
    | _, _ => false

/-- Records the serialization of a type that has none yet. -/
def unifyType (t : Tree) (n : NodeId) : Bool × Tree :=
  match t.typeData? n with
  | none => (false, t)
  | some data =>
    match data.unification, t.serialize n with
    | none, some text => (true, t.setKind n (.type { data with unification := some text }))
    | _, _ => (false, t)

end Tree

namespace Surgery

def unifyType (n : NodeId) : Surgery Bool := fun t ↦ .ok (t.unifyType n)

/-- A detached, unified type without parts, as a value. -/
def plainValueType (shape : TypeShape) (constness : Constness) : Surgery NodeId := do
  let u ← create (.type { shape }) [] none
  discard (unifyType u)
  create (.qualified (.value constness)) [some u] none

end Surgery

namespace Unification

def unifyNode (n : NodeId) : Pass Bool := do
  if ← Surgery.unifyType n then
    match ((← Pass.tree).typeData? n).bind TypeData.unification with
    | some text =>
      Pass.recordChange .unifier n ("unified as " ++ text)
      return true
    | none => return false
  else return false

/-- Unifies every type beneath a node, parts before wholes. -/
def unify (start : NodeId) : Pass Bool := Pass.sweep .post start unifyNode

end Unification

end ProtocolIR
