import ProtocolIR.Node.Id

/-!
# Declarations

Child slots by kind: a module holds its declarations; a type declaration its qualified type;
constants, variables and parameters a qualified type and a value; a function its qualified
function type and an optional body; a field its qualified type and optional attributes.
Imports and labels hold nothing.
-/

namespace ProtocolIR

/-- External declarations are exported from their module, internal ones stay inside it,
imported ones are declared elsewhere, and structural ones belong to a struct type. -/
inductive Linkage where
  | external
  | internal
  | imported
  | structural
  deriving DecidableEq

/-- A declaration is internal unless something else is said. -/
instance : Inhabited Linkage := ⟨.internal⟩

namespace Linkage

def all : List Linkage := [external, internal, imported, structural]

def name : Linkage → String
  | external => "public"
  | internal => "private"
  | imported => "imported"
  | structural => "struct"

def ofName? (text : String) : Option Linkage := all.find? fun linkage ↦ linkage.name == text

/-- Whether a lookup that arrives through an import may see the declaration. -/
def isExported : Linkage → Bool
  | external | structural => true
  | internal | imported => false

end Linkage

inductive PassingMode where
  | input
  | inputOutput
  | copied
  deriving DecidableEq, Inhabited

namespace PassingMode

def all : List PassingMode := [input, inputOutput, copied]

def name : PassingMode → String
  | input => "in"
  | inputOutput => "inout"
  | copied => "copy"

def ofName? (text : String) : Option PassingMode := all.find? fun mode ↦ mode.name == text

end PassingMode

inductive DeclarationKind where
  | module
  | importedModule (module : String)
  | type
  | constant
  | globalVariable
  | localVariable
  | parameter (mode : PassingMode)
  /-- A method knows the declaration of its owner's type, a definition its prototype. -/
  | function (owner prototype : Option Link)
  | field
  /-- A label knows the declaration of its enum once that has a canonical ID. -/
  | label (value : Option Int64) (isImplicit : Bool) (owner : Option Link)
  deriving DecidableEq, Inhabited

namespace DeclarationKind

def className : DeclarationKind → String
  | module => "Module"
  | importedModule _ => "ImportedModule"
  | type => "Type"
  | constant => "Constant"
  | globalVariable => "GlobalVariable"
  | localVariable => "LocalVariable"
  | parameter _ => "Parameter"
  | function .. => "Function"
  | field => "Field"
  | label .. => "EnumLabel"

/-- Whether slot 0 holds the type of the declared value. -/
def hasValueType : DeclarationKind → Bool
  | constant | globalVariable | localVariable | parameter _ | field | function .. => true
  | module | importedModule _ | type | label .. => false

def isFunction : DeclarationKind → Bool
  | function .. => true
  | _ => false

def isImport : DeclarationKind → Bool
  | importedModule _ => true
  | _ => false

/-- Declarations whose ID is part of the canonical ID of what they enclose. -/
def isNamespace : DeclarationKind → Bool
  | module | type | function .. => true
  | _ => false

end DeclarationKind

structure Declaration where
  id : String
  linkage : Linkage
  canonicalId : Option String
  kind : DeclarationKind
  deriving DecidableEq, Inhabited

end ProtocolIR
