import ProtocolIR.FrontEnd
import ProtocolIR.Validation

/-!
# The base language

The language that all others build on: modules, functions, variables and types.
-/

namespace ProtocolIR.FrontEnd

/-- Resolution, then the numbering of enums. -/
def resolveBase (session : Session) (start : NodeId) : Pass Bool := do
  let resolved ← Resolution.resolve session start
  let normalized ← Enumeration.normalize start
  return resolved || normalized

def base : FrontEnd where
  component := "GPIL"
  order := 10
  extension := ".gpil"
  buildScopes := Tree.buildScopes
  resolve := resolveBase
  validatePre := Validation.validatePre
  validatePost := Validation.validatePost

end ProtocolIR.FrontEnd
