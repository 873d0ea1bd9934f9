import ProtocolIR.Node.Id

/-!
# Scopes

A scope lists declarations under IDs, in the order in which the IDs first appeared, and the
modules whose exported declarations it also offers.
-/

namespace ProtocolIR

structure Scope where
  items : List (String × List NodeId) := []
  imports : List NodeId := []
  deriving DecidableEq, Inhabited

namespace Scope

/-- Lists a declaration under an ID; listing it twice changes nothing. -/
def insertItem (id : String) (decl : NodeId) : List (String × List NodeId) → List (String × List NodeId)
  | [] => [(id, [decl])]
  | (key, decls) :: rest =>
    if key = id then (key, if decl ∈ decls then decls else decls ++ [decl]) :: rest
    else (key, decls) :: insertItem id decl rest

def insert (scope : Scope) (id : String) (decl : NodeId) : Scope :=
  { scope with items := insertItem id decl scope.items }

def addImport (scope : Scope) (module : NodeId) : Scope :=
  if module ∈ scope.imports then scope else { scope with imports := scope.imports ++ [module] }

def get (scope : Scope) (id : String) : List NodeId := (scope.items.lookup id).getD []

def isEmpty (scope : Scope) : Bool := scope.items.isEmpty && scope.imports.isEmpty

end Scope

end ProtocolIR
