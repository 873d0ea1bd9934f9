/-!
# Identities

Nodes and scopes are numbered in creation order. A link names a declaration without owning
it, together with the canonical ID the declaration had when the link was made; a later
reader can tell from it that the declaration has been replaced.
-/

namespace ProtocolIR

structure NodeId where
  index : Nat
  deriving DecidableEq, Inhabited

def NodeId.text (n : NodeId) : String := "n" ++ toString n.index

structure ScopeId where
  index : Nat
  deriving DecidableEq, Inhabited

def ScopeId.text (s : ScopeId) : String := "scope" ++ toString s.index

structure Link where
  node : NodeId
  canonicalId : Option String
  deriving DecidableEq, Inhabited

end ProtocolIR
