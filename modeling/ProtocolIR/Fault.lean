import ProtocolIR.Node.Basic

/-!
# Faults

A fault ends an operation that was asked for something impossible: to put a node into a second
slot, to take a node out of a place it is not in, to reach past the end of a sequence. The
structural faults have a written form; the others only say that they happened.
-/

namespace ProtocolIR

/-- The operations that put a node into a slot. -/
inductive Placement where
  | create
  | set
  | add
  deriving DecidableEq, Inhabited

def Placement.word : Placement → String
  | .create => "create_node"
  | .set => "set_child"
  | .add => "add_child"

inductive Fault where
  /-- The node to be placed is already held by another. -/
  | held (placement : Placement) (node parent : NodeId)
  | notHeldBy (node parent : NodeId)
  | noParent (node : NodeId)
  | typeNotName (node : NodeId) (category : TypeCategory)
  | notName (node : NodeId) (className : String)
  /-- A name that refers to one declaration was told to refer to another. -/
  | retarget (node present wanted : NodeId)
  | wrapDetached (node : NodeId)
  | notLiteral (node : NodeId)
  | outOfRange
  | overflow
  /-- A recursion through the tree or through type names that never ends. -/
  | endless
  deriving DecidableEq, Inhabited

def Fault.message? : Fault → Option String
  | .held placement node parent =>
    some (placement.word ++ ": node " ++ node.text ++ " already has parent Some(" ++ parent.text ++ ")")
  | .notHeldBy node parent =>
    some ("replace_child: " ++ node.text ++ " is not a child of " ++ parent.text)
  | .noParent node => some ("replace_node: " ++ node.text ++ " has no parent")
  | .typeNotName node category =>
    some ("set_resolved: " ++ node.text ++ " is a " ++ category.word ++ " type, not a name")
  | .notName node className =>
    some ("set_resolved: " ++ node.text ++ " is " ++ className ++ ", not a name")
  | .retarget node present wanted =>
    some ("set_resolved: " ++ node.text ++ " already refers to " ++ present.text ++
      ", cannot re-target to " ++ wanted.text)
  | .wrapDetached node => some ("apply: cannot wrap detached expression " ++ node.text)
  | .notLiteral node => some ("retype_ctor: " ++ node.text ++ " is not a ctor")
  | .outOfRange | .overflow | .endless => none

end ProtocolIR
