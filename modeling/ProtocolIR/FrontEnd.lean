import ProtocolIR.Grammar.Construction
import ProtocolIR.Resolution

/-!
# Front ends

A front end contributes one language to a compilation. All of its parts may be left out. Front
ends run in ascending order; every step must be repeatable, since it runs once per round and sees
what earlier rounds made.
-/

namespace ProtocolIR

inductive ParseError where
  | rejected (path message : String)
  | unsupported (component : String)
  | unreadable (message : String)
  deriving DecidableEq, Inhabited

def ParseError.message : ParseError → String
  | .rejected path message => path ++ ": " ++ message
  | .unsupported component => "plugin '" ++ component ++ "' has no parser"
  | .unreadable message => "I/O error: " ++ message

/-- What the last step of a front end made. -/
structure Product where
  /-- Whether anything was produced or changed. -/
  isProduced : Bool := false
  /-- The grammars, from a front end that makes any. -/
  grammars : Option (List Grammar) := none
  deriving Inhabited

structure FrontEnd where
  component : String
  /-- Front ends with a lower order run first. -/
  order : Int
  /-- The extension of its source files, with the dot. -/
  extension : String
  includes : List String := []
  libraryPaths : List String := []
  /-- Makes a detached module of a source, given its path and its bytes. -/
  parse : String → ByteArray → Surgery (Except ParseError NodeId) :=
    fun _ _ ↦ return .error (.unsupported component)
  buildScopes : Tree → NodeId → Tree := fun t _ ↦ t
  conversions : Conversions := {}
  /-- One step of resolution; says whether anything changed. -/
  resolve : Session → NodeId → Pass Bool := fun _ _ ↦ return false
  /-- The checks before resolution. -/
  validatePre : Tree → NodeId → Tree := fun t _ ↦ t
  /-- The checks after resolution. -/
  validatePost : Tree → Session → NodeId → Except Fault Tree := fun t _ _ ↦ .ok t
  /-- The text of a node, if the language has its own. -/
  print : Tree → NodeId → Option String := fun _ _ ↦ none
  transform : NodeId → Pass Product := fun _ ↦ return {}

end ProtocolIR
