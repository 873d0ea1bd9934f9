import ProtocolIR.Real.Binary64

/-!
# Literals

Integer literals are 64-bit words; the width says which type they are written for.
-/

namespace ProtocolIR

inductive Literal where
  | bool (value : Bool)
  | signed (value : Int64) (width : Nat)
  | unsigned (value : UInt64) (width : Nat)
  | real (value : Binary64)
  | string (value : String)
  | bytes (value : List UInt8)
  | null
  | optional
  | result
  | error (message : String)
  | tuple
  | list
  | enumeration (label : String)
  deriving DecidableEq, Inhabited

namespace Literal

def className : Literal → String
  | bool _ => "Bool"
  | signed .. => "SignedInteger"
  | unsigned .. => "UnsignedInteger"
  | real _ => "Real"
  | string _ => "String"
  | bytes _ => "Bytes"
  | null => "Null"
  | optional => "Optional"
  | result => "Result"
  | error _ => "Error"
  | tuple => "Tuple"
  | list => "List"
  | enumeration _ => "Enum"

/-- Whether the literal is one token, so that a look-ahead can tell it. -/
def isToken : Literal → Bool
  | bytes _ | signed .. | unsigned .. | bool _ | string _ => true
  | _ => false

end Literal

end ProtocolIR
