/-!
# Unit items

Child slots: a field has its type, an optional literal, an optional condition and optional
attributes; a variable its type, an optional default and optional attributes; a switch an
optional expression and then its cases; a case its item and then its labels; a property an
optional value; a sink optional attributes.
-/

namespace ProtocolIR

inductive UnitItem where
  | field (id : Option String) (skip : Bool)
  | var (id : String)
  | switch
  | alternative (isDefault : Bool)
  | property (id : String)
  | sink (id : String)
  deriving DecidableEq, Inhabited

namespace UnitItem

def className : UnitItem → String
  | field .. => "Field"
  | var _ => "Variable"
  | switch => "Switch"
  | alternative _ => "SwitchCase"
  | property _ => "Property"
  | sink _ => "Sink"

/-- The ID an item declares in the scope of its unit. -/
def id? : UnitItem → Option String
  | field id _ => id
  | var id | sink id => some id
  | switch | alternative _ | property _ => none

end UnitItem

end ProtocolIR
