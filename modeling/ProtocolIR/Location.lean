/-!
# Source locations

A location is a half-open range of byte offsets in a named source.
-/

namespace ProtocolIR

structure Span where
  start : Nat
  stop : Nat
  deriving DecidableEq, Inhabited

structure Location where
  path : String
  span : Span
  deriving DecidableEq, Inhabited

def Location.text (location : Location) : String :=
  location.path ++ ":" ++ toString location.span.start ++ "-" ++ toString location.span.stop

/-- The written form of a location that may be missing. -/
def Location.textOrNone (location : Option Location) : String :=
  (location.map Location.text).getD "<no location>"

end ProtocolIR
