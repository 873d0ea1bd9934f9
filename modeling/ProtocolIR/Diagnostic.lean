import ProtocolIR.Location

/-!
# Diagnostics

A diagnostic is a message with a severity, the phase that raised it and the place
it is about.
-/

namespace ProtocolIR

inductive Severity where
  | error
  | warning
  | info
  deriving DecidableEq, Inhabited

namespace Severity

def all : List Severity := [error, warning, info]

def text : Severity → String
  | error => "error"
  | warning => "warning"
  | info => "info"

def ofText? (text : String) : Option Severity := all.find? fun severity ↦ severity.text == text

end Severity

inductive Phase where
  | parsing
  | preValidation
  | scopeBuilding
  | nameResolution
  | coercion
  | postValidation
  | grammar
  | transform
  deriving DecidableEq, Inhabited

namespace Phase

def all : List Phase :=
  [parsing, preValidation, scopeBuilding, nameResolution, coercion, postValidation, grammar, transform]

def name : Phase → String
  | parsing => "Parsing"
  | preValidation => "PreValidation"
  | scopeBuilding => "ScopeBuilding"
  | nameResolution => "NameResolution"
  | coercion => "Coercion"
  | postValidation => "PostValidation"
  | grammar => "Grammar"
  | transform => "Transform"

def ofName? (text : String) : Option Phase := all.find? fun phase ↦ phase.name == text

end Phase

structure Diagnostic where
  message : String
  location : Option Location
  severity : Severity
  phase : Phase
  deriving DecidableEq, Inhabited

namespace Diagnostic

def isError (d : Diagnostic) : Bool := d.severity == .error

def text (d : Diagnostic) : String :=
  "[" ++ d.severity.text ++ "] " ++ Location.textOrNone d.location ++ ": " ++ d.message

/-- One diagnostic a line. -/
def listing (ds : List Diagnostic) : String := String.intercalate "\n" (ds.map text)

end Diagnostic

end ProtocolIR
