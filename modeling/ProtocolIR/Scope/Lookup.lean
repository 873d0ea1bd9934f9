import ProtocolIR.Tree.Typing

/-!
# Looking up identifiers

A lookup starts at a node and walks outward; the innermost scope with a match answers. A scope
answers a path first verbatim, since a method may be listed as `S::m`, and then by its first
segment, continuing in what that segment names. A single identifier that a scope does not list
is looked for among the exported declarations of the modules it imports; what those import
themselves is not seen.
-/

namespace ProtocolIR

/-- Imports are not followed from this depth on. -/
def importDepthLimit : Nat := 8

namespace Tree

/-- The module of that ID directly under the root. -/
def findModule (t : Tree) (id : String) : Option NodeId :=
  (t.children root).find? fun m ↦ (t.declaration? m).any fun d ↦ d.kind == .module && d.id == id

/-- The scope in which a path continues after a declaration: that of a module, of the module that
an import stands for, or of a declared compound type. -/
def namespaceScope (t : Tree) (n : NodeId) : Option ScopeId :=
  match (t.declaration? n).map Declaration.kind with
  | some .module => t.scopeOf n
  | some (.importedModule module) => (t.findModule module).bind t.scopeOf
  | some .type =>
    (t.declaredType n).bind fun u ↦
      if (t.shape? u).any fun shape ↦ shape.category.isCompound then t.scopeOf u else none
  | _ => none

def isExported (t : Tree) (n : NodeId) : Bool :=
  (t.declaration? n).any fun d ↦ d.linkage.isExported

/-- What the imported modules export under an identifier. -/
def lookupImports (t : Tree) (s : ScopeId) (id : String) : List NodeId :=
  (t.scope s).imports.flatMap fun module ↦
    match t.scopeOf module with
    | none => []
    | some inner => ((t.scope inner).get id).filter t.isExported

/-- A single identifier in one scope. -/
def lookupSimple (t : Tree) (s : ScopeId) (id : String) (imports : Bool) (depth : Nat) : List NodeId :=
  match (t.scope s).get id with
  | [] => if imports && depth < importDepthLimit then t.lookupImports s id else []
  | found => found

/-- A path, given by its segments, in one scope. -/
def lookupSegments (t : Tree) : List String → ScopeId → Bool → Nat → List NodeId
  | [], _, _, _ => []
  | [id], s, imports, depth => t.lookupSimple s id imports depth
  | first :: rest, s, imports, depth =>
    match (t.scope s).get (String.intercalate "::" (first :: rest)) with
    | [] =>
      (t.lookupSimple s first imports depth).flatMap fun head ↦
        match t.namespaceScope head with
        | none => []
        | some inner => t.lookupSegments rest inner false (depth + 1)
    | found => found

def lookupIn (t : Tree) (s : ScopeId) (id : QualifiedId) (imports : Bool) (depth : Nat) : List NodeId :=
  t.lookupSegments id.segments s imports depth

/-- The answer of the first node in a list whose scope has one. -/
def lookupAlong (t : Tree) (id : QualifiedId) : List NodeId → List NodeId
  | [] => []
  | n :: rest =>
    match (t.scopeOf n).map fun s ↦ t.lookupIn s id true 0 with
    | none | some [] => t.lookupAlong id rest
    | some found => found

/-- The declarations an identifier denotes as seen from a node. -/
def lookup (t : Tree) (n : NodeId) (id : QualifiedId) : List NodeId :=
  t.lookupAlong id (n :: t.ancestors n)

end Tree

end ProtocolIR
