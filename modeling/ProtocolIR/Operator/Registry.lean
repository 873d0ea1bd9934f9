import ProtocolIR.Node.TypeShape
import ProtocolIR.Operator.Kind

/-!
# Built-in operators

An operator states what its operands must look like and how its result type comes about.
Operators are numbered in the order in which they were added; the overloads of one kind are
told apart by a space such as `integer` or `bytes`.
-/

namespace ProtocolIR

inductive OperandPattern where
  | any
  | ofCategory (category : TypeCategory)
  | anyInteger
  /-- The type of another operand, after coercion. -/
  | sameAs (operand : Nat)
  | memberNamed (id : String)
  deriving DecidableEq, Inhabited

/-- Among candidates of equal cost the more specific patterns win. -/
def OperandPattern.specificity : OperandPattern → Nat
  | .any => 0
  | .anyInteger => 1
  | .ofCategory _ | .sameAs _ => 2
  | .memberNamed _ => 3

inductive ResultRule where
  | type (shape : TypeShape)
  | sameAs (operand : Nat)
  | elementOf (operand : Nat)
  /-- The type of the selected field. -/
  | field
  deriving DecidableEq, Inhabited

structure Operator where
  id : Nat
  kind : OperatorKind
  space : String
  operands : List OperandPattern
  result : ResultRule
  doc : String
  deriving DecidableEq, Inhabited

def Operator.signature (op : Operator) : String := op.space ++ "::" ++ op.kind.name

structure Registry where
  operators : Array Operator := #[]
  deriving Inhabited

namespace Registry

def empty : Registry := {}

def size (r : Registry) : Nat := r.operators.size

def get? (r : Registry) (id : Nat) : Option Operator := r.operators[id]?

/-- Adds an operator and numbers it. -/
def add (r : Registry) (kind : OperatorKind) (space : String) (operands : List OperandPattern)
    (result : ResultRule) (doc : String) : Nat × Registry :=
  (r.size, { operators := r.operators.push { id := r.size, kind, space, operands, result, doc } })

/-- The operators of a kind in the order of their numbers. -/
def candidates (r : Registry) (kind : OperatorKind) : List Operator :=
  r.operators.toList.filter fun op ↦ op.kind == kind

/-- The operator of a kind in a space, if there is just one. -/
def find? (r : Registry) (kind : OperatorKind) (space : String) : Option Operator :=
  match (r.candidates kind).filter fun op ↦ op.space == space with
  | [op] => some op
  | _ => none

/-! ## The operators every compilation knows -/

structure Entry where
  kind : OperatorKind
  space : String
  operands : List OperandPattern
  result : ResultRule
  doc : String

section

open OperandPattern

def comparisons : List Entry :=
  [OperatorKind.equal, .unequal].map (fun kind ↦
    ⟨kind, "generic", [any, sameAs 0], .type .bool, "Compares two values of the same type."⟩) ++
  [OperatorKind.lower, .lowerEqual, .greater, .greaterEqual].flatMap fun kind ↦
    [⟨kind, "integer", [anyInteger, sameAs 0], .type .bool, "Compares two integers."⟩,
      ⟨kind, "real", [ofCategory .real, sameAs 0], .type .bool, "Compares two reals."⟩,
      ⟨kind, "bytes", [ofCategory .bytes, sameAs 0], .type .bool,
        "Compares two byte strings lexicographically."⟩]

def arithmetic : List Entry :=
  ([OperatorKind.sum, .difference, .multiple, .division, .modulo].flatMap fun kind ↦
    [⟨kind, "signed_integer", [ofCategory .signed, sameAs 0], .sameAs 0, "Integer arithmetic."⟩,
      ⟨kind, "unsigned_integer", [ofCategory .unsigned, sameAs 0], .sameAs 0,
        "Unsigned integer arithmetic."⟩]) ++
  [OperatorKind.sum, .difference, .multiple, .division].map (fun kind ↦
    ⟨kind, "real", [ofCategory .real, sameAs 0], .sameAs 0, "Real arithmetic."⟩) ++
  [⟨.negate, "signed_integer", [ofCategory .signed], .sameAs 0, "Negates an integer."⟩,
    ⟨.negate, "real", [ofCategory .real], .sameAs 0, "Negates a real."⟩] ++
  [OperatorKind.bitAnd, .bitOr, .bitXor].map (fun kind ↦
    ⟨kind, "unsigned_integer", [ofCategory .unsigned, sameAs 0], .sameAs 0, "Bitwise operation."⟩) ++
  [OperatorKind.shiftLeft, .shiftRight].map (fun kind ↦
    ⟨kind, "unsigned_integer", [ofCategory .unsigned, anyInteger], .sameAs 0, "Bit shift."⟩) ++
  [⟨.sum, "string", [ofCategory .string, sameAs 0], .sameAs 0, "Concatenates two strings."⟩,
    ⟨.sum, "bytes", [ofCategory .bytes, sameAs 0], .sameAs 0, "Concatenates two byte strings."⟩]

def sizeResult : ResultRule := .type (.unsigned 64)

def containers : List Entry :=
  [("list", TypeCategory.list), ("string", .string), ("bytes", .bytes), ("stream", .stream)].map
    (fun (space, category) ↦ ⟨.size, space, [ofCategory category], sizeResult, "Number of elements."⟩) ++
  [⟨.index, "list", [ofCategory .list, anyInteger], .elementOf 0, "Element at an index."⟩,
    ⟨.index, "bytes", [ofCategory .bytes, anyInteger], .type (.unsigned 8), "Byte at an index."⟩] ++
  [("optional", TypeCategory.optional), ("result", .result), ("strong_reference", .strongRef),
      ("weak_reference", .weakRef), ("value_reference", .valueRef)].map
    fun (space, category) ↦ ⟨.deref, space, [ofCategory category], .elementOf 0, "Dereferences a value."⟩

def members : List Entry :=
  [⟨.memberCall, "port", [ofCategory .port, memberNamed "protocol"], .type .string,
      "The port's transport protocol."⟩,
    ⟨.memberCall, "error", [ofCategory .error, memberNamed "description"], .type .string,
      "The error's message."⟩,
    ⟨.memberCall, "stream", [ofCategory .stream, memberNamed "size"], sizeResult,
      "Bytes currently in the stream."⟩,
    ⟨.memberCall, "unit", [ofCategory .unit, memberNamed "offset"], sizeResult,
      "Offset of the unit's data in its input."⟩,
    ⟨.memberCall, "unit", [ofCategory .unit, memberNamed "input"], .type .stream,
      "The unit's input stream."⟩] ++
  [("struct", TypeCategory.struct), ("union", .union), ("unit", .unit)].map
    fun (space, category) ↦ ⟨.member, space, [ofCategory category, any], .field, "Accesses a field."⟩

end

def addEntry (r : Registry) (e : Entry) : Registry :=
  (r.add e.kind e.space e.operands e.result e.doc).2

def builtin : Registry :=
  (comparisons ++ arithmetic ++ containers ++ members).foldl addEntry empty

end Registry

end ProtocolIR
