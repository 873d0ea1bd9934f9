import ProtocolIR.Session

/-!
# Choosing what an operator stands for

All built-ins and functions whose operands fit are candidates. The candidates with the fewest
conversions are kept, of those the most specific, of those the ones with the narrowest operands;
the choice is made if one is left.
-/

namespace ProtocolIR

inductive Choice where
  | builtin (id : Nat)
  | function (declaration : NodeId)
  /-- A field of a struct, union or unit, through a built-in member operator. -/
  | field (id : Nat) (declaration : NodeId)
  deriving DecidableEq, Inhabited

def Choice.target (t : Tree) : Choice → OperatorTarget
  | .builtin id | .field id _ => .builtin id
  | .function declaration => .function (t.linkTo declaration)

structure Candidate where
  choice : Choice
  cost : Nat
  specificity : Nat
  /-- The summed width of the operand types. -/
  breadth : Nat
  description : String
  deriving DecidableEq, Inhabited

inductive Selection where
  /-- The type of some operand is not known yet. -/
  | notReady
  | noMatch
  | ambiguous (descriptions : List String)
  | selected (candidate : Candidate)
  deriving DecidableEq, Inhabited

namespace Selection

/-! ## Ranking -/

/-- The elements with the least key. -/
def least (key : Candidate → Nat) (cs : List Candidate) : List Candidate :=
  cs.filter fun c ↦ cs.all fun d ↦ key c ≤ key d

/-- The elements with the greatest key. -/
def greatest (key : Candidate → Nat) (cs : List Candidate) : List Candidate :=
  cs.filter fun c ↦ cs.all fun d ↦ key d ≤ key c

def best (cs : List Candidate) : List Candidate :=
  least Candidate.breadth (greatest Candidate.specificity (least Candidate.cost cs))

def pick (cs : List Candidate) : Selection :=
  match best cs with
  | [] => .noMatch
  | [c] => .selected c
  | tied => .ambiguous (tied.map Candidate.description)

/-- The width of a parameter type; reals are wider than every integer, and other types have none. -/
def typeBreadth (t : Tree) (n : NodeId) : Nat :=
  match t.followedShape n with
  | some (.signed width) | some (.unsigned width) => width
  | some .real => 128
  | _ => 0

/-! ## Matching -/

def isTyped (t : Tree) (e : NodeId) : Bool := (t.expressionType e).any t.isResolved

/-- The followed type of an expression, or of what it refers to. -/
def receiverType (t : Tree) (e : NodeId) : Option NodeId := do
  let u ← t.follow (← t.expressionType e)
  if (← t.shape? u).isReference then t.follow (← t.child u 0) else return u

/-- The cost of operand `i` for a pattern, if it fits. -/
def matchOperand (t : Tree) (session : Session) (operands : List NodeId) (e : NodeId) (i : Nat) :
    OperandPattern → Option Nat
  | .any => some 0
  | .memberNamed id => if t.kind e == .expression (.member id) then some 0 else none
  | .ofCategory category => do
    let u ← if i = 0 then receiverType t e else (t.expressionType e).bind t.follow
    if (← t.shape? u).category = category then some 0 else none
  | .anyInteger => do
    if (← t.followedShape (← t.expressionType e)).isInteger then some 0 else none
  | .sameAs j => do
    let dst ← t.expressionType (← operands[j]?)
    match Coercion.coerceExpression session.conversions t e dst .ofCall with
    | .ok coercion => some coercion.cost
    | .error _ => none

def matchBuiltin (t : Tree) (session : Session) (operands : List NodeId) (op : Operator) :
    Option Candidate := do
  guard (op.operands.length = operands.length)
  let costs ← ((op.operands.zip operands).zipIdx).mapM fun ((pattern, e), i) ↦
    matchOperand t session operands e i pattern
  return {
    choice := .builtin op.id
    cost := costs.foldr (· + ·) 0
    specificity := (op.operands.map OperandPattern.specificity).foldr (· + ·) 0
    breadth := 0
    description := op.signature }

/-- The cost of the arguments for the parameters of a function, and the summed width of these.
Parameters without an argument need a default. -/
def matchArguments (t : Tree) (session : Session) (parameters arguments : List NodeId) :
    Option (Nat × Nat) := do
  guard (arguments.length ≤ parameters.length)
  guard ((parameters.drop arguments.length).all fun p ↦ (t.child p 1).isSome)
  let fits ← (arguments.zip parameters).mapM fun (e, p) ↦ do
    let type ← t.child p 0
    match Coercion.coerceExpression session.conversions t e type .ofCall with
    | .ok coercion => some (coercion.cost, typeBreadth t type)
    | .error _ => none
  return ((fits.map Prod.fst).foldr (· + ·) 0, (fits.map Prod.snd).foldr (· + ·) 0)

def matchFunction (t : Tree) (session : Session) (arguments : List NodeId) (function : NodeId) :
    Except Fault (Option Candidate) :=
  match matchArguments t session (t.parameters function) arguments with
  | none => .ok none
  | some (cost, breadth) => do
    return some {
      choice := .function function
      cost
      specificity := 2 * arguments.length
      breadth
      description := ← t.short function }

/-- The prototype that a function definition is linked to. -/
def prototypeOf (t : Tree) (function : NodeId) : Option NodeId :=
  match (t.declaration? function).map Declaration.kind with
  | some (.function _ prototype) => prototype.map Link.node
  | _ => none

/-- The functions among some declarations; a definition stands for its prototype too. -/
def functionsOf (t : Tree) (declarations : List NodeId) : List NodeId :=
  let functions := declarations.filter fun d ↦ (t.kind d).isFunction
  let superseded := functions.filterMap (prototypeOf t)
  functions.filter fun f ↦ !superseded.contains f

def functionCandidates (t : Tree) (session : Session) (declarations arguments : List NodeId) :
    Except Fault (List Candidate) := do
  return (← (functionsOf t declarations).mapM (matchFunction t session arguments)).filterMap id

def builtinCandidates (t : Tree) (session : Session) (kind : OperatorKind) (operands : List NodeId) :
    List Candidate :=
  (session.registry.candidates kind).filterMap (matchBuiltin t session operands)

/-! ## The kinds of operators -/

def selectBuiltin (t : Tree) (session : Session) (kind : OperatorKind) (operands : List NodeId) :
    Selection :=
  if operands.all (isTyped t) then pick (builtinCandidates t session kind operands) else .notReady

def selectCall (t : Tree) (session : Session) (n : NodeId) : List NodeId → Except Fault Selection
  | [] => .ok .noMatch
  | callee :: arguments =>
    match t.kind callee with
    | .expression (.name id _) =>
      let declarations := t.lookup n id
      if !declarations.any fun d ↦ (t.kind d).isFunction then .ok .noMatch
      else if !arguments.all (isTyped t) then .ok .notReady
      else do return pick (← functionCandidates t session declarations arguments)
    | _ => .ok .noMatch

/-- What the scope of a type lists under an ID. -/
def membersNamed (t : Tree) (type : NodeId) (id : String) : List NodeId :=
  match t.scopeOf type with
  | some s => (t.scope s).get id
  | none => []

def selectMemberCall (t : Tree) (session : Session) :
    List NodeId → Except Fault Selection
  | receiver :: member :: arguments =>
    if !(isTyped t receiver && arguments.all (isTyped t)) then .ok .notReady
    else
      match t.kind member with
      | .expression (.member id) => do
        let methods := (receiverType t receiver).toList.flatMap fun type ↦ membersNamed t type id
        let builtins := builtinCandidates t session .memberCall (receiver :: member :: arguments)
        return pick (builtins ++ (← functionCandidates t session methods arguments))
      | _ => .ok .noMatch
  | _ => .ok .noMatch

/-- The space of the member operator for a type. -/
def memberSpace : TypeShape → Option String
  | .struct => some "struct"
  | .union => some "union"
  | .unit => some "unit"
  | _ => none

/-- The member operator for a type and the field it finds under an ID. -/
def memberField (t : Tree) (session : Session) (type : NodeId) (id : String) :
    Option (Operator × NodeId) := do
  let op ← session.registry.find? .member (← memberSpace (← t.shape? type))
  let field ← (membersNamed t type id).find? fun d ↦
    (t.declarationType d).isSome && !(t.kind d).isFunction
  return (op, field)

def selectMember (t : Tree) (session : Session) : List NodeId → Except Fault Selection
  | [receiver, member] =>
    if !isTyped t receiver then .ok .notReady
    else
      match t.kind member, receiverType t receiver with
      | .expression (.member id), some type =>
        match memberField t session type id with
        | none => .ok .noMatch
        | some (op, field) => do
          return .selected {
            choice := .field op.id field
            cost := 0
            specificity := 0
            breadth := 0
            description := (← t.typeText type) ++ "." ++ id }
      | _, _ => .ok .noMatch
  | _ => .ok .noMatch

end Selection

/-- What an unresolved operator stands for. -/
def Tree.select (t : Tree) (session : Session) (n : NodeId) : Except Fault Selection :=
  match t.kind n with
  | .expression (.unresolved kind) =>
    match (t.slots n).mapM id with
    | none => .ok .noMatch
    | some operands =>
      match kind with
      | .call => Selection.selectCall t session n operands
      | .memberCall => Selection.selectMemberCall t session operands
      | .member => Selection.selectMember t session operands
      | kind => .ok (Selection.selectBuiltin t session kind operands)
  | _ => .ok .noMatch

end ProtocolIR
