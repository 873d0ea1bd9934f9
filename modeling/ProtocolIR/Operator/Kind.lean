/-!
# Operator kinds
-/

namespace ProtocolIR

inductive OperatorKind where
  | equal | unequal | lower | lowerEqual | greater | greaterEqual | sum | difference | multiple
  | division | modulo | negate | bitAnd | bitOr | bitXor | shiftLeft | shiftRight | size | index
  | deref | member | memberCall | call
  deriving DecidableEq, Inhabited

namespace OperatorKind

def all : List OperatorKind :=
  [equal, unequal, lower, lowerEqual, greater, greaterEqual, sum, difference, multiple, division,
    modulo, negate, bitAnd, bitOr, bitXor, shiftLeft, shiftRight, size, index, deref, member,
    memberCall, call]

/-- The sign of the operator in written expressions. -/
def sign : OperatorKind → String
  | equal => "=="
  | unequal => "!="
  | lower => "<"
  | lowerEqual => "<="
  | greater => ">"
  | greaterEqual => ">="
  | sum => "+"
  | difference => "-"
  | multiple => "*"
  | division => "/"
  | modulo => "%"
  | negate => "-"
  | bitAnd => "&"
  | bitOr => "|"
  | bitXor => "^"
  | shiftLeft => "<<"
  | shiftRight => ">>"
  | size => "|..|"
  | index => "[]"
  | deref => "*"
  | member => "."
  | memberCall => ".()"
  | call => "()"

def name : OperatorKind → String
  | equal => "Equal"
  | unequal => "Unequal"
  | lower => "Lower"
  | lowerEqual => "LowerEqual"
  | greater => "Greater"
  | greaterEqual => "GreaterEqual"
  | sum => "Sum"
  | difference => "Difference"
  | multiple => "Multiple"
  | division => "Division"
  | modulo => "Modulo"
  | negate => "Negate"
  | bitAnd => "BitAnd"
  | bitOr => "BitOr"
  | bitXor => "BitXor"
  | shiftLeft => "ShiftLeft"
  | shiftRight => "ShiftRight"
  | size => "Size"
  | index => "Index"
  | deref => "Deref"
  | member => "Member"
  | memberCall => "MemberCall"
  | call => "Call"

def ofName? (text : String) : Option OperatorKind := all.find? fun kind ↦ kind.name == text

end OperatorKind

end ProtocolIR
