import ProtocolIR.Coercion.Basic
import ProtocolIR.Operator.Registry

/-!
# Sessions

What the passes of one compilation share: the known operators and the conversions of the front
ends, in the order in which they are asked.
-/

namespace ProtocolIR

structure Session where
  registry : Registry := .builtin
  conversions : List Conversions := []
  deriving Inhabited

end ProtocolIR
