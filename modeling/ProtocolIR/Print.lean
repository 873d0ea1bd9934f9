import ProtocolIR.Real.Decimal
import ProtocolIR.Scope.Lookup
import ProtocolIR.Text.Quoted

/-!
# One-line text of nodes

Diagnostics and logs name nodes by a short text that reads like source. Each function below
writes one kind of node, given a function `r` that writes the nodes beneath it; `short` ties
the knot. A compound literal or a switch case that lacks even its first slot has no text, and
asking for it is out of range.
-/

namespace ProtocolIR.Tree

/-- What writes the text of a node beneath. -/
abbrev Writer := NodeId → Except Fault String

section

variable (t : Tree) (r : Writer)

def writeOption : Option NodeId → Except Fault String
  | none => .ok "<null>"
  | some n => r n

def writeSlot (n : NodeId) (i : Nat) : Except Fault String := writeOption r (t.child n i)

def writeAll (ns : List NodeId) (separator : String) : Except Fault String := do
  return String.intercalate separator (← ns.mapM r)

/-- The nodes after slot 0, which has to be there. -/
def tail (n : NodeId) : Except Fault (List NodeId) :=
  match t.slots n with
  | [] => .error .outOfRange
  | _ :: rest => .ok (rest.filterMap id)

def isImplicitLabel (n : NodeId) : Bool :=
  match (t.declaration? n).map Declaration.kind with
  | some (.label _ isImplicit _) => isImplicit
  | _ => false

/-- Types are written without their qualifiers; declared types by their ID. -/
def writeType (n : NodeId) : Except Fault String :=
  match (t.unqualified n).bind fun u ↦ (t.typeData? u).map fun data ↦ (u, data) with
  | none => .ok "<null>"
  | some (u, data) =>
    let word := data.shape.category.word
    if data.wildcard then .ok (word ++ "<*>")
    else
      match data.shape with
      | .signed width | .unsigned width => .ok (word ++ "<" ++ toString width ++ ">")
      | .list => do return "list<" ++ (← writeOption r (t.elementType u)) ++ ">"
      | .iterator | .optional | .result | .strongRef | .weakRef | .valueRef => do
        return word ++ "<" ++ (← writeSlot t r u 0) ++ ">"
      | .typeOf => do return "type(" ++ (← writeSlot t r u 0) ++ ")"
      | .tuple => do return "tuple<" ++ (← writeAll r (t.children u) ", ") ++ ">"
      | .name id _ => .ok id.text
      | .library symbol => .ok ("library(" ++ symbol ++ ")")
      | .member id => .ok ("member(" ++ id ++ ")")
      | .enumeration | .struct | .union | .unit =>
        match data.typeId with
        | some id => .ok id
        | none => do
          let members := (t.children u).filter fun c ↦ !isImplicitLabel t c
          return word ++ " \x7b " ++ (← writeAll r members ", ") ++ " \x7d"
      | .function => do
        let parameters ← writeAll r (t.childrenFrom u 1 .declaration) ", "
        return "function(" ++ parameters ++ ") -> " ++ (← writeSlot t r u 0)
      | _ => .ok word

def writeDeclaration (n : NodeId) (d : Declaration) : Except Fault String :=
  match d.kind with
  | .module => .ok ("module " ++ d.id)
  | .importedModule module => .ok ("import " ++ module)
  | .type => do return "type " ++ d.id ++ " = " ++ (← writeSlot t r n 0)
  | .constant => do return "const " ++ d.id ++ ": " ++ (← writeSlot t r n 0)
  | .globalVariable => do return "global " ++ d.id ++ ": " ++ (← writeSlot t r n 0)
  | .localVariable => do return "local " ++ d.id ++ ": " ++ (← writeSlot t r n 0)
  | .parameter _ | .field => do return d.id ++ ": " ++ (← writeSlot t r n 0)
  | .function .. =>
    match (t.child n 0).bind t.unqualified with
    | some f => do
      let parameters ← writeAll r (t.childrenFrom f 1 .declaration) ", "
      return "function " ++ d.id ++ "(" ++ parameters ++ ") -> " ++ (← writeSlot t r f 0)
    | none => .ok ("function " ++ d.id)
  | .label (some value) _ _ => .ok (d.id ++ " = " ++ toString value.toInt)
  | .label none _ _ => .ok d.id

/-- The text of an operator over the texts of its operands. -/
def operatorText (kind : OperatorKind) (operands : List String) : String :=
  let operand (i : Nat) := operands[i]?.getD "<null>"
  let arguments (i : Nat) := String.intercalate ", " (operands.drop i)
  match kind with
  | .negate => "-" ++ operand 0
  | .size => "|" ++ operand 0 ++ "|"
  | .deref => "*" ++ operand 0
  | .index => operand 0 ++ "[" ++ operand 1 ++ "]"
  | .member => operand 0 ++ "." ++ operand 1
  | .memberCall => operand 0 ++ "." ++ operand 1 ++ "(" ++ arguments 2 ++ ")"
  | .call => operand 0 ++ "(" ++ arguments 1 ++ ")"
  | _ => operand 0 ++ " " ++ kind.sign ++ " " ++ operand 1

/-- An operator whose operands start at a slot. -/
def writeOperator (n : NodeId) (kind : OperatorKind) (start : Nat) : Except Fault String := do
  return operatorText kind (← ((t.slots n).drop start).mapM (writeOption r))

def writeExpression (n : NodeId) : Expression → Except Fault String
  | .name id _ => .ok id.text
  | .literal | .coerced => writeSlot t r n 0
  | .unresolved kind => writeOperator t r n kind 0
  | .resolved kind _ => writeOperator t r n kind 1
  | .assign => do return (← writeSlot t r n 0) ++ " = " ++ (← writeSlot t r n 1)
  | .logicalAnd => do return (← writeSlot t r n 1) ++ " && " ++ (← writeSlot t r n 2)
  | .logicalOr => do return (← writeSlot t r n 1) ++ " || " ++ (← writeSlot t r n 2)
  | .logicalNot => do return "!" ++ (← writeSlot t r n 1)
  | .ternary => do
    return (← writeSlot t r n 0) ++ " ? " ++ (← writeSlot t r n 1) ++ " : " ++ (← writeSlot t r n 2)
  | .member id => .ok id
  | .type => writeOption r ((t.child n 0).bind t.elementType)
  | .keyword word => .ok word.text

def writeLiteral (n : NodeId) : Literal → Except Fault String
  | .bool value => .ok (if value then "true" else "false")
  | .signed value _ => .ok (toString value.toInt)
  | .unsigned value _ => .ok (toString value.toNat)
  | .real value => .ok value.text
  | .string value => .ok (Text.quote value)
  | .bytes value => .ok (Text.quoteBytes value)
  | .null => .ok "Null"
  | .optional =>
    match t.child n 1 with
    | some value => do return "optional(" ++ (← r value) ++ ")"
    | none => .ok "optional()"
  | .result => do return "result(" ++ (← writeAll r (← tail t n) ", ") ++ ")"
  | .error message => .ok ("error(" ++ Text.quote message ++ ")")
  | .tuple => do return "(" ++ (← writeAll r (← tail t n) ", ") ++ ")"
  | .list => do return "[" ++ (← writeAll r (← tail t n) ", ") ++ "]"
  | .enumeration label => do return (← writeSlot t r n 0) ++ "::" ++ label

def writeStatement (n : NodeId) : Statement → Except Fault String
  | .block => .ok "\x7b ... \x7d"
  | .expression | .declaration => do return (← writeSlot t r n 0) ++ ";"
  | .ret =>
    match t.child n 0 with
    | some value => do return "return " ++ (← r value) ++ ";"
    | none => .ok "return;"
  | .conditional => do return "if (" ++ (← writeSlot t r n 0) ++ ") ..."
  | .loop => do return "while (" ++ (← writeSlot t r n 0) ++ ") ..."

def writeItem (n : NodeId) : UnitItem → Except Fault String
  | .field id _ => do
    let value ←
      match t.child n 1 with
      | some value => r value
      | none => writeSlot t r n 0
    return id.getD "" ++ ": " ++ value
  | .var id => do return "var " ++ id ++ ": " ++ (← writeSlot t r n 0)
  | .switch =>
    match t.child n 0 with
    | some e => do return "switch (" ++ (← r e) ++ ")"
    | none => .ok "switch"
  | .alternative true => .ok "* -> ..."
  | .alternative false => do return (← writeAll r (← tail t n) ", ") ++ " -> ..."
  | .property id =>
    match t.child n 0 with
    | some value => do return id ++ " = " ++ (← r value)
    | none => .ok id
  | .sink id => .ok ("sink " ++ id)

def writeNode (n : NodeId) : Except Fault String :=
  match t.kind n with
  | .root => .ok "<root>"
  | .declaration d => writeDeclaration t r n d
  | .type _ | .qualified _ => writeType t r n
  | .expression e => writeExpression t r n e
  | .literal l => writeLiteral t r n l
  | .statement s => writeStatement t r n s
  | .attr tag =>
    match t.child n 0 with
    | some value => do return tag ++ "=" ++ (← r value)
    | none => .ok tag
  | .attrSet => writeAll r (t.children n) " "
  | .item i => writeItem t r n i

end

def shortWithin (t : Tree) : Nat → NodeId → Except Fault String
  | 0, _ => .error .endless
  | fuel + 1, n => writeNode t (t.shortWithin fuel) n

/-- The one-line text of a node. -/
def short (t : Tree) (n : NodeId) : Except Fault String := t.shortWithin (t.size + 1) n

/-- The text of a type; anything else has none. -/
def typeText (t : Tree) (n : NodeId) : Except Fault String := writeType t t.short n

end ProtocolIR.Tree
