import ProtocolIR.Scope.Lookup

/-!
# Building scopes

A module lists its declarations and itself, and imports the modules its imports name; a function
lists its parameters, a block the variables its statements declare, and an enum, struct or union
its members. A function declared as `S::m` is also listed as `m` in the struct `S`.
-/

namespace ProtocolIR.Tree

/-- The entries a list of declarations makes. -/
def entries (t : Tree) (ns : List NodeId) : List (String × NodeId) :=
  ns.filterMap fun n ↦ (t.declaration? n).map fun d ↦ (d.id, n)

/-- The declarations that the statements of a block make. -/
def blockLocals (t : Tree) (n : NodeId) : List NodeId :=
  ((t.children n).filter fun s ↦ t.kind s == .statement .declaration).filterMap fun s ↦ t.child s 0

/-- The modules that the import declarations among some declarations name. -/
def importedModules (t : Tree) (ns : List NodeId) : List NodeId :=
  ns.filterMap fun n ↦
    match (t.declaration? n).map Declaration.kind with
    | some (.importedModule module) => t.findModule module
    | _ => none

def buildModuleScope (t : Tree) (n : NodeId) : Tree :=
  let declarations := t.childrenFrom n 0 .declaration
  let imports := t.importedModules declarations
  let t := t.listInScope n (t.entries declarations ++ t.entries [n])
  let (s, t) := t.openScope n
  t.modifyScope s fun scope ↦ imports.foldl Scope.addImport scope

/-- The scope of one node, if it has one. -/
def buildScope (t : Tree) (n : NodeId) : Tree :=
  match t.kind n with
  | .declaration d =>
    match d.kind with
    | .module => t.buildModuleScope n
    | .function .. => t.listInScope n (t.entries (t.parameters n))
    | _ => t
  | .statement .block => t.listInScope n (t.entries (t.blockLocals n))
  | .type data =>
    match data.shape with
    | .enumeration | .struct | .union =>
      t.listInScope n (t.entries (t.childrenFrom n 0 .declaration))
    | _ => t
  | _ => t

/-- The ID of the owner that the ID of a method names, and its own name there. -/
def methodId? (id : String) : Option (QualifiedId × String) :=
  if isPath id then
    let path := QualifiedId.ofText id
    (QualifiedId.ofSegments? path.outer).map fun owner ↦ (owner, path.name)
  else none

/-- Lists a method in a struct type it belongs to. -/
def listMethod (name : String) (method : NodeId) (t : Tree) (owner : NodeId) : Tree :=
  match t.declaredType owner with
  | some u => if t.shape? u == some .struct then t.listInScope u [(name, method)] else t
  | none => t

def registerMethod (t : Tree) (n : NodeId) : Tree :=
  match (t.declaration? n).filter fun d ↦ d.kind.isFunction with
  | none => t
  | some d =>
    match methodId? d.id, t.parent n with
    | some (owner, name), some start => (t.lookup start owner).foldl (listMethod name n) t
    | _, _ => t

/-- Builds the scopes beneath a node. Methods come last, since they are found through scopes. -/
def buildScopes (t : Tree) (n : NodeId) : Tree :=
  let nodes := t.subtree n
  nodes.foldl registerMethod (nodes.foldl buildScope t)

end ProtocolIR.Tree
