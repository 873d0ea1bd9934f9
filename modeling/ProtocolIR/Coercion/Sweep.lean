import ProtocolIR.Coercion.Application

/-!
# The coercion sweep

Every value that has a place to fit into is coerced to it: initial values and defaults to the
declared type, returned values to the result, assigned values to their target, conditions to
`bool`, operands and arguments to what the chosen operator or function takes.
-/

namespace ProtocolIR.Coercion

/-- Whether anything was changed, and the type of conditions once one was needed. -/
structure SweepState where
  changed : Bool := false
  boolType : Option NodeId := none
  deriving Inhabited

abbrev Sweep := StateT SweepState Pass

namespace Sweep

variable (session : Session) (stream : Stream)

def slot (parent : NodeId) (index : Nat) (dst : NodeId) (style : Style) : Sweep Unit := do
  let changed ← coerceSlot session.conversions stream parent index dst style
  modify fun s ↦ { s with changed := s.changed || changed }

/-- The one type that all conditions of a sweep are coerced to. -/
def boolType : Sweep NodeId := do
  match (← get).boolType with
  | some type => return type
  | none =>
    let type ← Surgery.plainValueType .bool .const
    modify fun s ↦ { s with boolType := some type }
    return type

/-- A condition in a slot. -/
def condition (parent : NodeId) (index : Nat) : Sweep Unit := do
  let t ← Pass.tree
  match t.child parent index with
  | none => return
  | some e =>
    if (t.expressionType e).bind t.followedShape == some .bool then return
    else slot session stream parent index (← boolType) .ofCondition

/-- The value in slot 1 of a declaration, for the type in slot 0. -/
def declaredValue (n : NodeId) : Sweep Unit := do
  match (← Pass.tree).child n 0 with
  | none => return
  | some type => slot session stream n 1 type .ofAssignment

/-- The operands that take the type of another operand. -/
def builtinOperands (n : NodeId) (op : Operator) : Sweep Unit := do
  op.operands.zipIdx.forM fun (pattern, i) ↦ do
    match pattern with
    | .sameAs j =>
      let t ← Pass.tree
      match (t.child n (1 + j)).bind t.expressionType with
      | some dst => slot session stream n (1 + i) dst .ofCall
      | none => return
    | _ => return

/-- The arguments of a call, from a slot on. -/
def arguments (n function : NodeId) (first : Nat) : Sweep Unit := do
  ((← Pass.tree).parameters function).zipIdx.forM fun (parameter, k) ↦ do
    match (← Pass.tree).child parameter 0 with
    | some type => slot session stream n (first + k) type .ofCall
    | none => return

def resolvedOperator (n : NodeId) (kind : OperatorKind) : OperatorTarget → Sweep Unit
  | .builtin id =>
    match session.registry.get? id with
    | none => throw .outOfRange
    | some op => builtinOperands session stream n op
  | .function link => arguments session stream n link.node (if kind == .memberCall then 3 else 2)

def expression (n : NodeId) : Expression → Sweep Unit
  | .ternary => condition session stream n 0
  | .logicalAnd | .logicalOr | .logicalNot => do
    (List.range' 1 (((← Pass.tree).slots n).length - 1)).forM (condition session stream n)
  | .assign => do
    let t ← Pass.tree
    match (t.child n 0).bind t.expressionType with
    | some type => slot session stream n 1 type .ofAssignment
    | none => return
  | .resolved kind target => resolvedOperator session stream n kind target
  | _ => return

def node (n : NodeId) : Sweep Unit := do
  let t ← Pass.tree
  match t.kind n with
  | .declaration d =>
    match d.kind with
    | .constant | .globalVariable | .localVariable | .parameter _ => declaredValue session stream n
    | _ => return
  | .statement .ret =>
    match t.enclosingResultType n with
    | some result => slot session stream n 0 result .ofAssignment
    | none => return
  | .statement .conditional | .statement .loop => condition session stream n 0
  | .expression e => expression session stream n e
  | _ => return

end Sweep

/-- Coerces everything beneath a node, parts before wholes, and says whether it changed. -/
def sweep (session : Session) (start : NodeId) : Pass Bool := do
  let state ← Pass.walk .post start ({} : SweepState) fun state n ↦ do
    return (← (Sweep.node session .coercer n).run state).2
  return state.changed

end ProtocolIR.Coercion
