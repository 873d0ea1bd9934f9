import ProtocolIR.Tree.Basic

/-!
# Tree surgery

Placing a node in a slot requires that no slot holds it yet, taking it out of a slot detaches
it. The slot lists and the parent fields are updated together.
-/

namespace ProtocolIR

/-- Operations that edit a tree and may fail with a fault. -/
abbrev Surgery := StateT Tree (Except Fault)

namespace Tree

def requireFree (t : Tree) (placement : Placement) (n : NodeId) : Except Fault Unit :=
  match t.parent n with
  | none => .ok ()
  | some p => .error (.held placement n p)

def requireAllFree (t : Tree) (placement : Placement) : List NodeId → Except Fault Unit
  | [] => .ok ()
  | n :: rest => do
    t.requireFree placement n
    t.requireAllFree placement rest

/-- Writes a slot, with empty slots up to it as needed. -/
def putSlot (slots : List (Option NodeId)) (i : Nat) (child : Option NodeId) : List (Option NodeId) :=
  if i < slots.length then slots.set i child
  else slots ++ List.replicate (i - slots.length) none ++ [child]

def setParents (t : Tree) (ns : List NodeId) (p : Option NodeId) : Tree :=
  ns.foldl (fun t n ↦ t.setParent n p) t

/-- A new detached node that holds the given children. -/
def create (t : Tree) (kind : NodeKind) (slots : List (Option NodeId)) (location : Option Location) :
    Except Fault (NodeId × Tree) := do
  t.requireAllFree .create (slots.filterMap id)
  let n : NodeId := ⟨t.size⟩
  let t := { t with nodes := t.nodes.push { kind, location, slots } }
  return (n, t.setParents (slots.filterMap id) (some n))

/-- Puts a node, or nothing, into a slot; what was there becomes detached. -/
def setChild (t : Tree) (n : NodeId) (i : Nat) (child : Option NodeId) : Except Fault Tree := do
  t.requireAllFree .set child.toList
  let old := t.child n i
  let t := t.setSlots n (putSlot (t.slots n) i child)
  return (t.setParents old.toList none).setParents child.toList (some n)

/-- Adds a slot after the others. -/
def addChild (t : Tree) (n : NodeId) (child : Option NodeId) : Except Fault Tree := do
  t.requireAllFree .add child.toList
  let t := t.setParents child.toList (some n)
  return t.setSlots n (t.slots n ++ [child])

/-- Takes a slot out; those after it move up. -/
def removeChild (t : Tree) (n : NodeId) (i : Nat) : Except Fault (Option NodeId × Tree) :=
  match (t.slots n)[i]? with
  | none => .error .outOfRange
  | some old =>
    let t := t.setSlots n ((t.slots n).eraseIdx i)
    .ok (old, t.setParents old.toList none)

/-- Takes a range of slots out. -/
def removeChildren (t : Tree) (n : NodeId) (start stop : Nat) : Except Fault Tree :=
  let slots := t.slots n
  if start ≤ stop ∧ stop ≤ slots.length then
    let removed := ((slots.take stop).drop start).filterMap id
    .ok ((t.setSlots n (slots.take start ++ slots.drop stop)).setParents removed none)
  else .error .outOfRange

/-- Puts a node where `n` holds `old`. -/
def replaceChild (t : Tree) (n old new : NodeId) : Except Fault Tree :=
  match (t.slots n).findIdx? (· == some old) with
  | none => .error (.notHeldBy old n)
  | some i => t.setChild n i (some new)

/-- Puts a node where another is held. -/
def replaceNode (t : Tree) (old new : NodeId) : Except Fault Tree :=
  match t.parent old with
  | none => .error (.noParent old)
  | some p => t.replaceChild p old new

/-- Empties the slot that holds a node, if there is one. -/
def detach (t : Tree) (n : NodeId) : Except Fault Tree :=
  match t.parent n, t.slotIndex n with
  | some p, some i => t.setChild p i none
  | _, _ => .ok t

end Tree

namespace Surgery

def create (kind : NodeKind) (slots : List (Option NodeId)) (location : Option Location) :
    Surgery NodeId := fun t ↦ t.create kind slots location

def setChild (n : NodeId) (i : Nat) (child : Option NodeId) : Surgery Unit := fun t ↦ do
  return ((), ← t.setChild n i child)

def addChild (n : NodeId) (child : Option NodeId) : Surgery Unit := fun t ↦ do
  return ((), ← t.addChild n child)

def removeChild (n : NodeId) (i : Nat) : Surgery (Option NodeId) := fun t ↦ t.removeChild n i

def removeChildren (n : NodeId) (start stop : Nat) : Surgery Unit := fun t ↦ do
  return ((), ← t.removeChildren n start stop)

def replaceChild (n old new : NodeId) : Surgery Unit := fun t ↦ do
  return ((), ← t.replaceChild n old new)

def replaceNode (old new : NodeId) : Surgery Unit := fun t ↦ do
  return ((), ← t.replaceNode old new)

def detach (n : NodeId) : Surgery Unit := fun t ↦ do
  return ((), ← t.detach n)

/-- Copies a subtree, children before the node that holds them. -/
def copyWithin : Nat → NodeId → Surgery NodeId
  | 0, _ => throw .endless
  | fuel + 1, n => do
    let slots ← ((← get).slots n).mapM fun
      | none => pure none
      | some c => some <$> copyWithin fuel c
    let source := (← get).node n
    let copy ← create source.kind slots source.location
    modify fun t ↦ t.setComments copy source.comments
    return copy

/-- A detached copy of a subtree with its kinds, locations and comments, without scopes and
findings. A path down the tree is no longer than the tree has nodes. -/
def copy (n : NodeId) : Surgery NodeId := do
  copyWithin (← get).size n

end Surgery

end ProtocolIR
