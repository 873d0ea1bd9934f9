import ProtocolIR.Scope.Building
import ProtocolIR.Workspace

/-!
# Canonical IDs

A declaration without a canonical ID gets the path of the modules, types and functions around
it, or that path with the first suffix `_1`, `_2`, … that is free. A declared compound type
takes the canonical ID of its declaration as its type ID. Neither changes once it is set.
-/

namespace ProtocolIR

namespace Tree

/-- The IDs of the modules, types and functions around a declaration, outermost first, and its
own. -/
def canonicalPath (t : Tree) (n : NodeId) : String :=
  let around := (t.ancestors n).filterMap fun a ↦
    ((t.declaration? a).filter fun d ↦ d.kind.isNamespace).map Declaration.id
  String.intercalate "::" (around.reverse ++ ((t.declaration? n).map Declaration.id).toList)

/-- The `k`-th ID to try for a path. -/
def candidateId (path : String) (k : Nat) : String :=
  if k = 0 then path else path ++ "_" ++ toString k

/-- The first candidate that is not taken. Among one more candidate than there are taken IDs
one is free. -/
def freeId (path : String) (taken : List String) : String :=
  candidateId path
    (((List.range (taken.length + 1)).find? fun k ↦ !taken.contains (candidateId path k)).getD 0)

/-- The compound type a type declaration declares, while it has no type ID. -/
def typeToStamp (t : Tree) (n : NodeId) : Option NodeId :=
  (t.declaredType n).filter fun u ↦
    (t.typeData? u).any fun data ↦ data.shape.category.isCompound && data.typeId.isNone

end Tree

namespace CanonicalId

/-- Gives a declaration its canonical ID if it has none. The IDs in use are carried along. -/
def assignOne (taken : List String) (n : NodeId) : Pass (List String × Bool) := do
  let t ← Pass.tree
  if (t.declaration? n).any fun d ↦ d.canonicalId.isNone then
    let id := Tree.freeId (t.canonicalPath n) taken
    Pass.modifyTree fun t ↦ t.modifyDeclaration n fun d ↦ { d with canonicalId := some id }
    Pass.recordChange .scopes n ("canonical ID " ++ id)
    return (id :: taken, true)
  else return (taken, false)

/-- Gives a declared compound type the canonical ID of its declaration. -/
def stamp (n : NodeId) : Pass Bool := do
  let t ← Pass.tree
  match (t.declaration? n).bind Declaration.canonicalId, t.typeToStamp n with
  | some id, some u =>
    Pass.modifyTree fun t ↦ t.modifyType u fun data ↦ { data with typeId := some id }
    Pass.recordChange .scopes u ("type ID " ++ id)
    return true
  | _, _ => return false

def assignStep (state : List String × Bool) (n : NodeId) : Pass (List String × Bool) := do
  let (taken, assigned) ← assignOne state.1 n
  let stamped ← stamp n
  return (taken, state.2 || assigned || stamped)

/-- Assigns the missing IDs beneath a node and says whether any was missing. -/
def assign (start : NodeId) : Pass Bool := do
  let t ← Pass.tree
  let nodes := t.subtree start
  let taken := nodes.filterMap fun n ↦ (t.declaration? n).bind Declaration.canonicalId
  return (← nodes.foldlM assignStep (taken, false)).2

end CanonicalId

end ProtocolIR
