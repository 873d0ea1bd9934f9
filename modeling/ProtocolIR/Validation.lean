import ProtocolIR.Enumeration
import ProtocolIR.Resolution

/-!
# Validation

Before resolution it is checked that no scope declares an ID twice and that reserved IDs are not
used. After resolution, whatever is still unresolved becomes an error, and values are checked
against the types they are meant for.
-/

namespace ProtocolIR.Validation

/-- An error at a node. -/
abbrev Errors := List (NodeId × String)

/-- An error for each ID that occurred before. -/
def repeatedIds : List String → List (NodeId × String) → Errors
  | _, [] => []
  | seen, (n, id) :: rest =>
    if id ∈ seen then (n, "ID '" ++ id ++ "' redefined") :: repeatedIds seen rest
    else repeatedIds (id :: seen) rest

/-! ## Before resolution -/

/-- Functions may be overloaded and imports may be repeated; other IDs stand for one thing. -/
def duplicates (t : Tree) (ns : List NodeId) : Errors :=
  repeatedIds [] (ns.filterMap fun n ↦
    ((t.declaration? n).filter fun d ↦ !(d.kind.isFunction || d.kind.isImport)).map fun d ↦ (n, d.id))

def isExplicitUndef (d : Declaration) : Bool :=
  match d.kind with
  | .label _ isImplicit _ => !isImplicit && d.id == undefLabel
  | _ => false

def reservedIds (n : NodeId) (d : Declaration) : Errors :=
  (if d.id == "self" then [(n, "'self' is a reserved ID")] else []) ++
    (if isExplicitUndef d then [(n, "enum label 'Undef' is reserved")] else [])

def preErrors (t : Tree) (n : NodeId) : Errors :=
  match t.kind n with
  | .declaration d =>
    reservedIds n d ++
      if d.kind == .module then duplicates t (t.childrenFrom n 0 .declaration) else []
  | .statement .block => duplicates t (t.blockLocals n)
  | .type data =>
    match data.shape with
    | .enumeration | .struct | .union => duplicates t (t.childrenFrom n 0 .declaration)
    | .function => duplicates t (t.childrenFrom n 1 .declaration)
    | _ => []
  | _ => []

/-- The checks that need no resolution. -/
def validatePre (t : Tree) (start : NodeId) : Tree :=
  t.addErrors ((t.subtree start).flatMap (preErrors t)) .preValidation

/-! ## After resolution -/

variable (t : Tree) (session : Session)

/-- The expression in a slot must reach a type, as far as both types are known. -/
def checkCoercion (n : NodeId) (index : Nat) (dst : NodeId) (style : Style) : Except Fault Errors :=
  match t.child n index with
  | none => .ok []
  | some e =>
    match (t.expressionType e).filter fun src ↦ t.isResolved src && t.isResolved dst with
    | none => .ok []
    | some src =>
      match Coercion.coerceExpression session.conversions t e dst style with
      | .ok _ => .ok []
      | .error refusal => do
        let reason := (refusal.reason?.map fun reason ↦ " (" ++ reason ++ ")").getD ""
        return [(e, "cannot coerce expression '" ++ (← t.short e) ++ "' of type '" ++
          (← t.typeText src) ++ "' to type '" ++ (← t.typeText dst) ++ "'" ++ reason)]

def checkVariable (n : NodeId) (d : Declaration) : Except Fault Errors :=
  match t.child n 0 with
  | none => .ok []
  | some type =>
    if t.isAuto type then .ok [(n, "cannot infer type of '" ++ d.id ++ "'")]
    else checkCoercion t session n 1 type .ofAssignment

/-- A method belongs to a struct. -/
def checkFunction (n : NodeId) (d : Declaration) (owner : Option Link) : Errors :=
  match owner with
  | none => []
  | some link =>
    if (t.linkedType (some link)).bind t.shape? == some .struct then []
    else [(n, "method '" ++ d.id ++ "' is not declared on a struct type")]

def checkName (n : NodeId) (id : QualifiedId) : Errors :=
  if t.isCallee n then []
  else if (t.lookup n id).isEmpty then [(n, "unknown ID '" ++ id.text ++ "'")]
  else [(n, "ID '" ++ id.text ++ "' does not refer to a value")]

/-- Whether the name in a call is known, whatever it stands for. -/
def isKnownCallee (n : NodeId) : Bool :=
  match (t.child n 0).map t.kind with
  | some (.expression (.name id _)) => !(t.lookup n id).isEmpty
  | _ => false

/-- Why an operator is not resolved; the operands explain it if they are not typed. -/
def unresolvedMessage (n : NodeId) (kind : OperatorKind) (text : String) :
    Selection → Except Fault (Option String)
  | .notReady => .ok none
  | .selected _ => .ok (some ("operator '" ++ text ++ "' could not be resolved"))
  | .ambiguous candidates =>
    .ok (some ("operator usage is ambiguous: " ++ text ++ " (candidates: " ++
      String.intercalate ", " candidates ++ ")"))
  | .noMatch =>
    if kind = .call then
      if isKnownCallee t n then .ok (some ("call does not match any function: " ++ text))
      else do
        let callee ← ((t.child n 0).map t.short).getD (.ok "")
        return some ("unknown function '" ++ callee ++ "'")
    else .ok (some ("unsupported operator usage: " ++ text))

def checkUnresolved (n : NodeId) (kind : OperatorKind) : Except Fault Errors := do
  let selection ← t.select session n
  let message ← unresolvedMessage t n kind (← t.short n) selection
  return message.toList.map fun message ↦ (n, message)

def checkResolved (n : NodeId) (kind : OperatorKind) : OperatorTarget → Except Fault Errors
  | .builtin _ => .ok []
  | .function link =>
    match t.linkTarget link with
    | none => .ok [(n, "call target no longer exists")]
    | some function => do
      let first := if kind = .memberCall then 3 else 2
      let errors ← (t.parameters function).zipIdx.mapM fun (parameter, k) ↦
        match t.child parameter 0 with
        | some type => checkCoercion t session n (first + k) type .ofCall
        | none => .ok []
      return errors.flatten

def checkAssignment (n : NodeId) : Except Fault Errors :=
  match t.child n 0 with
  | none => .ok []
  | some target =>
    match t.expressionType target with
    | none => .ok []
    | some type =>
      if (t.qualifiers? type).any Qualifiers.isConst then do
        return [(n, "cannot assign to constant '" ++ (← t.short target) ++ "'")]
      else checkCoercion t session n 1 type .ofAssignment

def checkReturn (n : NodeId) : Except Fault Errors :=
  match t.enclosingResultType n with
  | none => .ok []
  | some result =>
    match t.child n 0, t.followedShape result == some .void with
    | some _, true => .ok [(n, "void function cannot return a value")]
    | none, false => .ok [(n, "function must return a value")]
    | some _, false => checkCoercion t session n 0 result .ofAssignment
    | none, true => .ok []

def postErrors (n : NodeId) : Except Fault Errors :=
  match t.kind n with
  | .expression e =>
    match e with
    | .name id none => .ok (checkName t n id)
    | .unresolved kind => checkUnresolved t session n kind
    | .resolved kind target => checkResolved t session n kind target
    | .assign => checkAssignment t session n
    | _ => .ok []
  | .type data =>
    match data.shape with
    | .name id none => .ok [(n, "unknown type '" ++ id.text ++ "'")]
    | _ => .ok []
  | .declaration d =>
    match d.kind with
    | .constant | .globalVariable | .localVariable => checkVariable t session n d
    | .function owner _ => .ok (checkFunction t n d owner)
    | _ => .ok []
  | .statement .ret => checkReturn t session n
  | _ => .ok []

/-- The checks of the resolved tree. -/
def validatePost (start : NodeId) : Except Fault Tree := do
  let errors ← (t.visited .pre start).mapM (postErrors t session)
  return t.addErrors errors.flatten .postValidation

end ProtocolIR.Validation
