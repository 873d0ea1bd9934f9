/-!
# Coercion styles

A style is the set of conversions that a place permits: assignments and calls convert values,
`tryCoercion` also narrows them, `contextual` turns values into conditions, `keepsOwn`
leaves a value whose category fits as it is. Two flags forbid conversions instead.
-/

namespace ProtocolIR

structure Style where
  assignment : Bool := false
  functionCall : Bool := false
  tryCoercion : Bool := false
  contextual : Bool := false
  keepsOwn : Bool := false
  disallowSignedUnsigned : Bool := false
  disallowLossy : Bool := false
  deriving DecidableEq, Inhabited

namespace Style

def none : Style := {}

def ofAssignment : Style := { assignment := true }

def ofCall : Style := { functionCall := true }

def ofCondition : Style := { contextual := true }

/-- The flags in their fixed order, with their names. -/
def flags (s : Style) : List (String × Bool) :=
  [("Assignment", s.assignment), ("FunctionCall", s.functionCall), ("TryCoercion", s.tryCoercion),
    ("ContextualConversion", s.contextual), ("PreferOriginal", s.keepsOwn),
    ("DisallowSignedUnsigned", s.disallowSignedUnsigned), ("DisallowLossy", s.disallowLossy)]

def ofNames (names : List String) : Style where
  assignment := names.contains "Assignment"
  functionCall := names.contains "FunctionCall"
  tryCoercion := names.contains "TryCoercion"
  contextual := names.contains "ContextualConversion"
  keepsOwn := names.contains "PreferOriginal"
  disallowSignedUnsigned := names.contains "DisallowSignedUnsigned"
  disallowLossy := names.contains "DisallowLossy"

def union (a b : Style) : Style where
  assignment := a.assignment || b.assignment
  functionCall := a.functionCall || b.functionCall
  tryCoercion := a.tryCoercion || b.tryCoercion
  contextual := a.contextual || b.contextual
  keepsOwn := a.keepsOwn || b.keepsOwn
  disallowSignedUnsigned := a.disallowSignedUnsigned || b.disallowSignedUnsigned
  disallowLossy := a.disallowLossy || b.disallowLossy

def contains (a b : Style) : Bool :=
  (a.flags.zip b.flags).all fun (x, y) ↦ !y.2 || x.2

def intersects (a b : Style) : Bool :=
  (a.flags.zip b.flags).any fun (x, y) ↦ x.2 && y.2

def text (s : Style) : String :=
  match (s.flags.filter Prod.snd).map Prod.fst with
  | [] => "None"
  | names => String.intercalate "|" names

/-- Whether any conversion of a value is permitted. -/
def converts (s : Style) : Bool := s.assignment || s.functionCall || s.tryCoercion

end Style

end ProtocolIR
