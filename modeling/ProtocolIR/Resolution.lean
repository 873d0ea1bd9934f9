import ProtocolIR.Operator.Selection
import ProtocolIR.Scope.Building

/-!
# Resolution

One pass binds whatever can be bound with what is known so far: names to declarations, operators
to built-ins and functions, methods to their types, definitions to their prototypes. Types still
to be inferred are taken from initial values and from the values in a literal. Anything else is
left for a later pass.
-/

namespace ProtocolIR

/-- Whether a name expression can refer to a node. -/
def Tree.isValue (t : Tree) (n : NodeId) : Bool :=
  match t.kind n with
  | .declaration d =>
    match d.kind with
    | .constant | .globalVariable | .localVariable | .parameter _ | .label .. | .field => true
    | _ => false
  | .item (.field (some _) _) | .item (.var _) => true
  | _ => false

/-- Whether a node names the function in a call that is not resolved yet. -/
def Tree.isCallee (t : Tree) (n : NodeId) : Bool :=
  ((t.parent n).map t.kind == some (.expression (.unresolved .call))) && t.slotIndex n == some 0

namespace Resolution

/-- The first type declaration in a list. -/
def findType (t : Tree) (ns : List NodeId) : Option NodeId :=
  ns.find? fun n ↦ (t.kind n).isTypeDeclaration

/-- A detached reference to a type as the type of a value. -/
def valueCopy (n : NodeId) : Surgery (Option NodeId) := do
  match (← get).unqualified n with
  | none => return none
  | some u =>
    let inner ← Surgery.typeReference u
    some <$> Surgery.create (.qualified (.value .mutable)) [some inner] ((← get).location n)

/-! ## Names -/

/-- A name that denotes a type becomes a type expression. -/
def nameToType (n : NodeId) (id : QualifiedId) (declaration : NodeId) : Pass Unit := do
  let t ← Pass.tree
  let build : Build NodeId := do
    let type ← Build.nameType id
    Surgery.setResolved type (t.linkTo declaration)
    let type ← Build.valueType type .const
    Build.typeExpression type
  let e ← build.runAt (t.location n)
  Pass.replaceNode .resolver n e "name denotes a type"

/-- A name takes the type of what it refers to, so a hint is dropped. -/
def bindName (n : NodeId) (id : QualifiedId) (declaration : NodeId) : Pass Unit := do
  let link := (← Pass.tree).linkTo declaration
  Surgery.setResolved n link
  if ((← Pass.tree).child n 0).isSome then Surgery.setChild n 0 none
  Pass.recordChange .resolver n ("resolved to " ++ link.canonicalId.getD id.text)

def resolveName (n : NodeId) (id : QualifiedId) : Pass Bool := do
  let t ← Pass.tree
  if t.isCallee n then return false
  let declarations := t.lookup n id
  match declarations.find? t.isValue, findType t declarations with
  | some value, _ =>
    bindName n id value
    return true
  | none, some type =>
    nameToType n id type
    return true
  | none, none => return false

def resolveTypeName (n : NodeId) (id : QualifiedId) : Pass Bool := do
  let t ← Pass.tree
  match findType t (t.lookup n id) with
  | none => return false
  | some declaration =>
    Surgery.setResolved n (t.linkTo declaration)
    Pass.recordChange .resolver n ("resolved type " ++ id.text)
    return true

/-! ## Operators -/

/-- The result type of a built-in operator. -/
def builtinResult (operands : List NodeId) : ResultRule → Surgery (Option NodeId)
  | .type shape => some <$> Surgery.plainValueType shape .mutable
  | .sameAs j => do
    match operands[j]?.bind (← get).expressionType with
    | some type => valueCopy type
    | none => return none
  | .elementOf j => do
    let t ← get
    match (operands[j]?.bind t.expressionType).bind t.elementType with
    | some element => some <$> Surgery.typeReference element
    | none => return none
  | .field => return none

/-- The result type of an operator that stands for a choice. -/
def resultType (session : Session) (operands : List NodeId) : Choice → Surgery (Option NodeId)
  | .builtin id =>
    match session.registry.get? id with
    | none => throw .outOfRange
    | some op => builtinResult operands op.result
  | .field _ field => do
    match (← get).declarationType field with
    | some type => some <$> Surgery.typeReference type
    | none => return none
  | .function f => do
    match (← get).resultType f with
    | some type => valueCopy type
    | none => return none

/-- The name in a call is bound together with the call. -/
def bindCallee (kind : OperatorKind) (choice : Choice) (operands : List NodeId) : Surgery Unit := do
  match kind, choice, operands with
  | .call, .function f, callee :: _ =>
    let t ← get
    match t.kind callee with
    | .expression (.name _ none) => Surgery.setResolved callee (t.linkTo f)
    | _ => return
  | _, _, _ => return

/-- Puts the resolved operator with its operands where the unresolved one was. -/
def bindOperator (n : NodeId) (kind : OperatorKind) (candidate : Candidate) (operands : List NodeId)
    (result : NodeId) : Pass Unit := do
  bindCallee kind candidate.choice operands
  Surgery.removeChildren n 0 ((← Pass.tree).slots n).length
  let t ← Pass.tree
  let resolved ← Surgery.create (.expression (.resolved kind (candidate.choice.target t)))
    (some result :: operands.map some) (t.location n)
  Pass.replaceNode .resolver n resolved ("resolved to " ++ candidate.description)

def resolveOperator (session : Session) (n : NodeId) (kind : OperatorKind) : Pass Bool := do
  let t ← Pass.tree
  match ← t.select session n with
  | .selected candidate =>
    let operands := t.children n
    match ← resultType session operands candidate.choice with
    | none => return false
    | some result =>
      bindOperator n kind candidate operands result
      return true
  | _ => return false

/-! ## Types to be inferred -/

/-- A variable without a type takes that of its initial value. -/
def inferVariable (n : NodeId) : Pass Bool := do
  let t ← Pass.tree
  match (t.child n 0).filter t.isAuto,
      ((t.child n 1).bind t.expressionType).filter t.isResolved |>.bind t.unqualified with
  | some type, some u =>
    let qualifiers := (t.qualifiers? type).getD (.place .mutable)
    let inner ← Surgery.typeReference u
    let new ← Surgery.create (.qualified qualifiers) [some inner] (t.location type)
    Pass.replaceNode .resolver type new "inferred type"
    return true
  | _, _ => return false

/-- The type of a literal from the types of its values. -/
def literalType (l : Literal) (elements : List NodeId) : Build NodeId := do
  match l, elements with
  | .tuple, elements => Build.compoundType .tuple elements
  | .list, element :: _ => Build.listType element
  | .optional, element :: _ => Build.containerType .optional element
  | .result, element :: _ => Build.containerType .result element
  | _, _ => throw .outOfRange

/-- Detached references to the types of some values. -/
def elementTypes (types : List NodeId) : Surgery (List NodeId) := do
  (types.filterMap (← get).unqualified).mapM fun u ↦ do
    let inner ← Surgery.typeReference u
    Surgery.create (.qualified (.value .mutable)) [some inner] none

/-- A literal of values takes its type from them once they are typed. -/
def inferLiteral (n : NodeId) (l : Literal) : Pass Bool := do
  let t ← Pass.tree
  match (t.child n 0).filter t.isAuto with
  | none => return false
  | some type =>
    let values := ((t.slots n).drop 1).filterMap id
    match values.mapM fun v ↦ (t.expressionType v).filter t.isResolved with
    | none | some [] => return false
    | some types =>
      let elements ← elementTypes types
      let build : Build NodeId := do
        let new ← literalType l elements
        Build.valueType new .const
      let new ← build.runAt (t.location type)
      Pass.replaceNode .resolver type new "inferred literal type"
      return true

/-- The type that the method around a node belongs to. -/
def selfType (t : Tree) (n : NodeId) : Option NodeId :=
  let owners := (t.ancestors n).filterMap fun a ↦
    match (t.declaration? a).map Declaration.kind with
    | some (.function owner _) => owner
    | _ => none
  (owners.head?.bind t.linkTarget).bind t.declaredType

def resolveSelf (n : NodeId) : Pass Bool := do
  let t ← Pass.tree
  match t.child n 0, selfType t n with
  | none, some owner =>
    let inner ← Surgery.typeReference owner
    let type ← Surgery.create (.qualified (.place .mutable)) [some inner] (t.location n)
    Surgery.setChild n 0 (some type)
    Pass.recordChange .resolver n "typed self"
    return true
  | _, _ => return false

/-! ## Functions -/

/-- A method records the declaration of the type it belongs to. -/
def bindMethod (n : NodeId) : Pass Bool := do
  let t ← Pass.tree
  match t.declaration? n with
  | some d =>
    match d.kind, Tree.methodId? d.id, t.parent n with
    | .function none prototype, some (ownerId, _), some start =>
      match findType t (t.lookup start ownerId) with
      | none => return false
      | some owner =>
        let kind := DeclarationKind.function (some (t.linkTo owner)) prototype
        Pass.modifyTree fun t ↦ t.setKind n (.declaration { d with kind })
        Pass.recordChange .resolver n ("bound to type " ++ ownerId.text)
        return true
    | _, _, _ => return false
  | none => return false

/-- The prototype of a definition: a function of the same ID without a body and with the same
signature. -/
def findPrototype (t : Tree) (n : NodeId) (id : String) : Option NodeId := do
  let _ ← t.child n 1
  let start ← t.parent n
  let signature ← t.child n 0
  (t.lookup start (.ofText id)).find? fun p ↦
    p != n && (t.child p 1).isNone && (t.kind p).isFunction &&
      (t.child p 0).any fun s ↦ t.typesEqual s signature

def linkPrototype (n : NodeId) : Pass Bool := do
  let t ← Pass.tree
  match t.declaration? n with
  | some d =>
    match d.kind, findPrototype t n d.id with
    | .function owner none, some prototype =>
      let kind := DeclarationKind.function owner (some (t.linkTo prototype))
      Pass.modifyTree fun t ↦ t.setKind n (.declaration { d with kind })
      Pass.recordChange .resolver n "linked to prototype"
      return true
    | _, _ => return false
  | none => return false

/-! ## The pass -/

def resolveNode (session : Session) (n : NodeId) : Pass Bool := do
  match (← Pass.tree).kind n with
  | .expression (.name id none) => resolveName n id
  | .expression (.unresolved kind) => resolveOperator session n kind
  | .expression (.keyword .self) => resolveSelf n
  | .type data =>
    match data.shape with
    | .name id none => resolveTypeName n id
    | _ => return false
  | .literal l =>
    match l with
    | .tuple | .list | .optional | .result => inferLiteral n l
    | _ => return false
  | .declaration d =>
    match d.kind with
    | .constant | .globalVariable | .localVariable => inferVariable n
    | .function .. =>
      let bound ← bindMethod n
      let linked ← linkPrototype n
      return bound || linked
    | _ => return false
  | _ => return false

/-- One step of resolution beneath a node, parts before wholes; says whether anything changed. -/
def resolve (session : Session) (start : NodeId) : Pass Bool :=
  Pass.sweep .post start (resolveNode session)

end Resolution

end ProtocolIR
