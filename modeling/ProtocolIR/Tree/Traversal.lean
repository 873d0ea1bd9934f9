import ProtocolIR.Tree.Surgery

/-!
# Traversal

Paths up and down a tree are no longer than the tree has nodes, which bounds the recursions
here. Orders list every node with its distance from the start.
-/

namespace ProtocolIR

inductive Order where
  | pre
  | post
  deriving DecidableEq, Inhabited

namespace Tree

/-- The chain of parents from a node on, the node included. -/
def chain (t : Tree) : Nat → Option NodeId → List NodeId
  | _, none => []
  | 0, some _ => []
  | fuel + 1, some n => n :: t.chain fuel (t.parent n)

/-- The nodes above a node, closest first. -/
def ancestors (t : Tree) (n : NodeId) : List NodeId := t.chain t.size (t.parent n)

def findAncestor (t : Tree) (n : NodeId) (p : NodeKind → Bool) : Option NodeId :=
  (t.ancestors n).find? fun a ↦ p (t.kind a)

/-- Whether a node is `a` or lies beneath it. -/
def isWithin (t : Tree) (n a : NodeId) : Bool := n == a || (t.ancestors n).contains a

/-- Whether a node is reachable from the root. -/
def isAttached (t : Tree) (n : NodeId) : Bool := t.isWithin n root

/-- The location of a node, or of the closest node above that has one. -/
def nearestLocation (t : Tree) (n : NodeId) : Option Location :=
  (n :: t.ancestors n).findSome? t.location

def preOrderWithin (t : Tree) : Nat → Nat → NodeId → List (NodeId × Nat)
  | 0, _, _ => []
  | fuel + 1, depth, n => (n, depth) :: (t.children n).flatMap (t.preOrderWithin fuel (depth + 1))

/-- A node, then the orders of its children from left to right. -/
def preOrder (t : Tree) (n : NodeId) : List (NodeId × Nat) := t.preOrderWithin t.size 0 n

def postOrderWithin (t : Tree) : Nat → Nat → NodeId → List (NodeId × Nat)
  | 0, _, _ => []
  | fuel + 1, depth, n => (t.children n).flatMap (t.postOrderWithin fuel (depth + 1)) ++ [(n, depth)]

/-- The orders of the children from left to right, then the node. -/
def postOrder (t : Tree) (n : NodeId) : List (NodeId × Nat) := t.postOrderWithin t.size 0 n

/-- The nodes beneath a node, itself included. -/
def subtree (t : Tree) (n : NodeId) : List NodeId := (t.preOrder n).map Prod.fst

def ordered (t : Tree) (order : Order) (n : NodeId) : List NodeId :=
  match order with
  | .pre => (t.preOrder n).map Prod.fst
  | .post => (t.postOrder n).map Prod.fst

/-- The nodes that a walk from a node visits while the tree stays as it is. -/
def visited (t : Tree) (order : Order) (n : NodeId) : List NodeId :=
  (t.ordered order n).filter fun m ↦ t.isWithin m n

/-! ## Findings beneath a node -/

def hasErrors (t : Tree) (n : NodeId) : Bool :=
  (t.subtree n).any fun m ↦ (t.node m).findings.any fun f ↦ f.severity == .error

/-- All findings beneath a node in pre-order, each with the nearest location. -/
def diagnostics (t : Tree) (n : NodeId) : List Diagnostic :=
  (t.subtree n).flatMap fun m ↦ (t.node m).findings.map fun f ↦
    { message := f.message, location := t.nearestLocation m, severity := f.severity, phase := f.phase }

end Tree

end ProtocolIR
