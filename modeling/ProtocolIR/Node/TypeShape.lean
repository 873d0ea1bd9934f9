import ProtocolIR.QualifiedId
import ProtocolIR.Node.Id

/-!
# Types

Containers keep their element types as qualified types in child slots. A list holds a
qualified iterator from which its element type is read; the other containers hold the
element type itself. An enum holds its labels, a struct or union its fields, a function its
result followed by its parameters, and a unit its parameters followed by its items.
-/

namespace ProtocolIR

inductive TypeCategory where
  | bool | signed | unsigned | real | string | bytes | port | address | stream | error | void
  | null | unknown | auto | list | iterator | optional | result | tuple | enumeration | struct
  | union | function | strongRef | weakRef | valueRef | name | library | member | typeOf | sink
  | unit
  deriving DecidableEq, Inhabited

namespace TypeCategory

def all : List TypeCategory :=
  [bool, signed, unsigned, real, string, bytes, port, address, stream, error, void, null, unknown,
    auto, list, iterator, optional, result, tuple, enumeration, struct, union, function, strongRef,
    weakRef, valueRef, name, library, member, typeOf, sink, unit]

/-- The word for the category in written types and in serializations. -/
def word : TypeCategory → String
  | bool => "bool"
  | signed => "int"
  | unsigned => "uint"
  | real => "real"
  | string => "string"
  | bytes => "bytes"
  | port => "port"
  | address => "addr"
  | stream => "stream"
  | error => "error"
  | void => "void"
  | null => "null"
  | unknown => "unknown"
  | auto => "auto"
  | list => "list"
  | iterator => "iterator"
  | optional => "optional"
  | result => "result"
  | tuple => "tuple"
  | enumeration => "enum"
  | struct => "struct"
  | union => "union"
  | function => "function"
  | strongRef => "strong_ref"
  | weakRef => "weak_ref"
  | valueRef => "value_ref"
  | name => "name"
  | library => "library"
  | member => "member"
  | typeOf => "type"
  | sink => "sink"
  | unit => "unit"

def ofWord? (text : String) : Option TypeCategory := all.find? fun c ↦ c.word == text

theorem ofWord?_word (c : TypeCategory) : ofWord? c.word = some c := by
  cases c <;> decide

def className : TypeCategory → String
  | bool => "Bool"
  | signed => "SignedInteger"
  | unsigned => "UnsignedInteger"
  | real => "Real"
  | string => "String"
  | bytes => "Bytes"
  | port => "Port"
  | address => "Address"
  | stream => "Stream"
  | error => "Error"
  | void => "Void"
  | null => "Null"
  | unknown => "Unknown"
  | auto => "Auto"
  | list => "List"
  | iterator => "Iterator"
  | optional => "Optional"
  | result => "Result"
  | tuple => "Tuple"
  | enumeration => "Enum"
  | struct => "Struct"
  | union => "Union"
  | function => "Function"
  | strongRef => "StrongReference"
  | weakRef => "WeakReference"
  | valueRef => "ValueReference"
  | name => "Name"
  | library => "Library"
  | member => "Member"
  | typeOf => "Type"
  | sink => "Sink"
  | unit => "Unit"

def isReference : TypeCategory → Bool
  | strongRef | weakRef | valueRef => true
  | _ => false

def isInteger : TypeCategory → Bool
  | signed | unsigned => true
  | _ => false

/-- Types whose members make a scope of their own. -/
def isCompound : TypeCategory → Bool
  | enumeration | struct | union | unit => true
  | _ => false

end TypeCategory

inductive TypeShape where
  | bool
  | signed (width : Nat)
  | unsigned (width : Nat)
  | real
  | string
  | bytes
  | port
  | address
  | stream
  | error
  | void
  | null
  | unknown
  | auto
  | list
  | iterator
  | optional
  | result
  | tuple
  | enumeration
  | struct
  | union
  | function
  | strongRef
  | weakRef
  | valueRef
  | name (id : QualifiedId) (resolved : Option Link)
  | library (symbol : String)
  | member (id : String)
  | typeOf
  | sink
  | unit
  deriving DecidableEq, Inhabited

namespace TypeShape

def category : TypeShape → TypeCategory
  | bool => .bool
  | signed _ => .signed
  | unsigned _ => .unsigned
  | real => .real
  | string => .string
  | bytes => .bytes
  | port => .port
  | address => .address
  | stream => .stream
  | error => .error
  | void => .void
  | null => .null
  | unknown => .unknown
  | auto => .auto
  | list => .list
  | iterator => .iterator
  | optional => .optional
  | result => .result
  | tuple => .tuple
  | enumeration => .enumeration
  | struct => .struct
  | union => .union
  | function => .function
  | strongRef => .strongRef
  | weakRef => .weakRef
  | valueRef => .valueRef
  | name .. => .name
  | library _ => .library
  | member _ => .member
  | typeOf => .typeOf
  | sink => .sink
  | unit => .unit

/-- The shape of a category, with the width of an integer and the ID of a name, a library type
or a member. A name is not resolved yet. -/
def ofCategory (c : TypeCategory) (width : Nat) (id : String) : TypeShape :=
  match c with
  | .bool => bool
  | .signed => signed width
  | .unsigned => unsigned width
  | .real => real
  | .string => string
  | .bytes => bytes
  | .port => port
  | .address => address
  | .stream => stream
  | .error => error
  | .void => void
  | .null => null
  | .unknown => unknown
  | .auto => auto
  | .list => list
  | .iterator => iterator
  | .optional => optional
  | .result => result
  | .tuple => tuple
  | .enumeration => enumeration
  | .struct => struct
  | .union => union
  | .function => function
  | .strongRef => strongRef
  | .weakRef => weakRef
  | .valueRef => valueRef
  | .name => name (.ofText id) none
  | .library => library id
  | .member => member id
  | .typeOf => typeOf
  | .sink => sink
  | .unit => unit

def sameCategory (a b : TypeShape) : Bool := a.category == b.category

def isInteger (shape : TypeShape) : Bool := shape.category.isInteger

def isReference (shape : TypeShape) : Bool := shape.category.isReference

/-- The category with the width of an integer, as diagnostics put it. -/
def summary (shape : TypeShape) : String :=
  match shape with
  | signed width | unsigned width => shape.category.word ++ "<" ++ toString width ++ ">"
  | _ => shape.category.word

end TypeShape

/-- What a type node says. The serialization is recorded once; the type ID is the canonical
ID of the declaration that names a compound type. -/
structure TypeData where
  shape : TypeShape
  wildcard : Bool := false
  unification : Option String := none
  typeId : Option String := none
  deriving DecidableEq, Inhabited

inductive Constness where
  | const
  | mutable
  deriving DecidableEq, Inhabited

/-- Whether a qualified type denotes an assignable place or a value. -/
inductive Side where
  | lhs
  | rhs
  deriving DecidableEq, Inhabited

structure Qualifiers where
  constness : Constness
  side : Side
  deriving DecidableEq, Inhabited

namespace Qualifiers

def value (constness : Constness) : Qualifiers := ⟨constness, .rhs⟩

def place (constness : Constness) : Qualifiers := ⟨constness, .lhs⟩

def isConst (q : Qualifiers) : Bool := q.constness == .const

end Qualifiers

end ProtocolIR
