import ProtocolIR.Build
import ProtocolIR.Log
import ProtocolIR.Print

/-!
# Passes

A pass edits the tree of a workspace and reports every change on its stream, as
`<location> <class> "<old>" -> <class> "<new>" (<message>)`. Steps of a pass say whether they
changed something.
-/

namespace ProtocolIR

structure Workspace where
  tree : Tree := {}
  log : Array Event := #[]
  deriving Inhabited

abbrev Pass := StateT Workspace (Except Fault)

namespace Pass

/-- Runs an edit of the tree; the log stays as it is. -/
def edit {α : Type} (surgery : Surgery α) : Pass α := fun ⟨tree, log⟩ ↦ do
  let (a, tree) ← surgery tree
  return (a, ⟨tree, log⟩)

instance : MonadLift Surgery Pass := ⟨edit⟩

def tree : Pass Tree := return (← get).tree

def modifyTree (f : Tree → Tree) : Pass Unit := modify fun ⟨tree, log⟩ ↦ ⟨f tree, log⟩

def emit (event : Event) : Pass Unit := modify fun ⟨tree, log⟩ ↦ ⟨tree, log.push event⟩

def debug (stream : Stream) (message : String) : Pass Unit := emit (.debug stream message)

end Pass

/-- What a change line says about a node. -/
def Tree.changePart (t : Tree) (n : NodeId) : Except Fault String := do
  return (t.kind n).className ++ " \"" ++ (← t.short n) ++ "\""

def Tree.changeLine (t : Tree) (old : NodeId) (new : Option NodeId) (message : String) :
    Except Fault String := do
  let before := Location.textOrNone (t.nearestLocation old) ++ " " ++ (← t.changePart old)
  let after ←
    match new with
    | some new => do pure (" -> " ++ (← t.changePart new))
    | none => pure ""
  return before ++ after ++ " (" ++ message ++ ")"

namespace Pass

/-- Reports a change of a node in place. -/
def recordChange (stream : Stream) (n : NodeId) (message : String) : Pass Unit := do
  debug stream (← (← tree).changeLine n none message)

/-- Reports that a node became another. -/
def recordChangeTo (stream : Stream) (old new : NodeId) (message : String) : Pass Unit := do
  debug stream (← (← tree).changeLine old (some new) message)

/-- Puts a node where another is held, and reports it. -/
def replaceNode (stream : Stream) (old new : NodeId) (message : String) : Pass Unit := do
  let line ← (← tree).changeLine old (some new) message
  Surgery.replaceNode old new
  debug stream line

/-- Visits the nodes beneath a node. The order is fixed at the start; nodes that are no longer
beneath the start when their turn comes are left out. -/
def walk {σ : Type} (order : Order) (start : NodeId) (init : σ) (visit : σ → NodeId → Pass σ) :
    Pass σ := do
  ((← tree).ordered order start).foldlM
    (fun state n ↦ do if (← tree).isWithin n start then visit state n else return state) init

/-- Visits the nodes beneath a node and says whether any visit changed something. -/
def sweep (order : Order) (start : NodeId) (visit : NodeId → Pass Bool) : Pass Bool :=
  walk order start false fun changed n ↦ return (← visit n) || changed

end Pass

end ProtocolIR
