import ProtocolIR.Scope.Building

/-!
# Unit types

A unit lists its parameters and its items. The items inside the cases of a switch count as items
of the unit, so their IDs are in the scope of the unit too.
-/

namespace ProtocolIR.Tree

/-- The unit types beneath a node. -/
def units (t : Tree) (start : NodeId) : List NodeId :=
  (t.subtree start).filter fun n ↦ t.shape? n == some .unit

def itemsWithin (t : Tree) : Nat → NodeId → List NodeId
  | 0, _ => []
  | fuel + 1, n =>
    match (t.kind n).item? with
    | some .switch => (t.childrenFrom n 1 .item).flatMap (t.itemsWithin fuel)
    | some (.alternative _) => (t.child n 0).toList.flatMap (t.itemsWithin fuel)
    | some _ => [n]
    | none => []

/-- The items of a unit in order, with those in the cases of switches in place of these. -/
def unitItems (t : Tree) (unit : NodeId) : List NodeId :=
  (t.childrenFrom unit 0 .item).flatMap (t.itemsWithin (t.size + 1))

def itemId? (t : Tree) (n : NodeId) : Option String := (t.kind n).item?.bind UnitItem.id?

def isUnitField (t : Tree) (n : NodeId) : Bool :=
  match (t.kind n).item? with
  | some (.field ..) => true
  | _ => false

/-- The entries that a unit makes: its parameters, then its items with an ID. -/
def unitEntries (t : Tree) (unit : NodeId) : List (String × NodeId) :=
  t.entries (t.childrenFrom unit 0 .declaration) ++
    (t.unitItems unit).filterMap fun n ↦ (t.itemId? n).map fun id ↦ (id, n)

/-- Builds the scopes of the unit types beneath a node. -/
def buildUnitScopes (t : Tree) (start : NodeId) : Tree :=
  (t.units start).foldl (fun t unit ↦ t.listInScope unit (t.unitEntries unit)) t

end ProtocolIR.Tree
