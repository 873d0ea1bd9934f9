import ProtocolIR.Tree.Typing

/-!
# Building nodes

A build is an edit of a tree that stamps every node it creates with one location. The pieces
given to a build must be detached; children are created before the node that holds them.
-/

namespace ProtocolIR

abbrev Build := ReaderT (Option Location) Surgery

namespace Surgery

def setSide (n : NodeId) (side : Side) : Surgery Unit :=
  modify fun t ↦
    match t.kind n with
    | .qualified q => t.setKind n (.qualified { q with side })
    | _ => t

/-- A copy of a qualified type that denotes a place. -/
def copyAsPlace (n : NodeId) : Surgery NodeId := do
  let c ← copy n
  setSide c .lhs
  return c

/-- The declaration whose declared type a node is. -/
def declarationOf (t : Tree) (u : NodeId) : Option NodeId :=
  ((t.parent u).bind t.parent).filter fun d ↦ t.declaredType d == some u

/-- A detached type for use in another slot. A declared type is referred to by its name, so that
recursive types stay finite; any other type is copied. -/
def typeReference (n : NodeId) : Surgery NodeId := do
  let t ← get
  match (t.unqualified n).bind fun u ↦ (declarationOf t u).map fun d ↦ (u, d) with
  | none => copy n
  | some (u, decl) =>
    match t.declaration? decl with
    | none => copy n
    | some d =>
      let id := QualifiedId.ofText (d.canonicalId.getD d.id)
      let name ← create (.type { shape := .name id (some (t.linkTo decl)) }) [] (t.location u)
      match t.qualifiers? n with
      | some q => create (.qualified q) [some name] (t.location n)
      | none => return name

end Surgery

namespace Build

def runAt {α : Type} (location : Option Location) (build : Build α) : Surgery α := build.run location

def node (kind : NodeKind) (slots : List (Option NodeId)) : Build NodeId :=
  fun location ↦ Surgery.create kind slots location

/-! ## Types -/

def type (shape : TypeShape) (slots : List (Option NodeId)) : Build NodeId :=
  node (.type { shape }) slots

/-- A type without parts. -/
def plainType (shape : TypeShape) : Build NodeId := type shape []

/-- The type of all types of a category. -/
def wildcardType (shape : TypeShape) : Build NodeId := node (.type { shape, wildcard := true }) []

/-- A type with one part. -/
def containerType (shape : TypeShape) (element : NodeId) : Build NodeId := type shape [some element]

def valueType (n : NodeId) (constness : Constness) : Build NodeId :=
  node (.qualified (.value constness)) [some n]

def placeType (n : NodeId) (constness : Constness) : Build NodeId :=
  node (.qualified (.place constness)) [some n]

/-- A list holds an iterator over its elements. -/
def listType (element : NodeId) : Build NodeId := do
  let iterator ← containerType .iterator element
  let iterator ← valueType iterator .mutable
  type .list [some iterator]

def compoundType (shape : TypeShape) (members : List NodeId) : Build NodeId :=
  type shape (members.map some)

def functionType (result : NodeId) (parameters : List NodeId) : Build NodeId :=
  type .function (some result :: parameters.map some)

def nameType (id : QualifiedId) : Build NodeId := plainType (.name id none)

/-- The qualified type as a place: in place if it is detached, a copy otherwise. -/
def asPlace (n : NodeId) : Build NodeId := do
  let n ← if ((← get).parent n).isSome then Surgery.copy n else pure n
  Surgery.setSide n .lhs
  return n

/-! ## Declarations -/

def declaration (id : String) (linkage : Linkage) (kind : DeclarationKind)
    (slots : List (Option NodeId)) : Build NodeId :=
  node (.declaration { id, linkage, canonicalId := none, kind }) slots

def module (id : String) (declarations : List NodeId) : Build NodeId :=
  declaration id .external .module (declarations.map some)

def importModule (id : String) : Build NodeId := declaration id .internal (.importedModule id) []

def typeDeclaration (id : String) (type : NodeId) (linkage : Linkage) : Build NodeId :=
  declaration id linkage .type [some type]

def constant (id : String) (type value : NodeId) : Build NodeId :=
  declaration id .internal .constant [some type, some value]

def globalVariable (id : String) (type : NodeId) (init : Option NodeId) (linkage : Linkage) :
    Build NodeId := do
  let type ← asPlace type
  declaration id linkage .globalVariable [some type, init]

def localVariable (id : String) (type : NodeId) (init : Option NodeId) : Build NodeId := do
  let type ← asPlace type
  declaration id .internal .localVariable [some type, init]

def parameter (id : String) (type : NodeId) (mode : PassingMode) (default : Option NodeId) :
    Build NodeId := do
  let type ← asPlace type
  declaration id .internal (.parameter mode) [some type, default]

/-- A function without a body is a prototype. -/
def function (id : String) (result : NodeId) (parameters : List NodeId) (body : Option NodeId)
    (linkage : Linkage) : Build NodeId := do
  let type ← functionType result parameters
  let type ← valueType type .const
  declaration id linkage (.function none none) [some type, body]

def field (id : String) (type : NodeId) (attributes : Option NodeId) : Build NodeId := do
  let type ← asPlace type
  declaration id .structural .field [some type, attributes]

def label (id : String) (value : Option Int64) (isImplicit : Bool) : Build NodeId :=
  declaration id .external (.label value isImplicit none) []

def enumType (labels : List (String × Option Int64)) : Build NodeId := do
  let labels ← labels.mapM fun (id, value) ↦ label id value false
  type .enumeration (labels.map some)

/-! ## Literals -/

/-- A literal of a type, which is taken as constant. -/
def literal (l : Literal) (type : NodeId) (values : List (Option NodeId)) : Build NodeId := do
  let type ← valueType type .const
  node (.literal l) (some type :: values)

/-- A literal of a type without parts. -/
def plainLiteral (l : Literal) (shape : TypeShape) : Build NodeId := do
  let type ← plainType shape
  literal l type []

/-- A mutable copy of the type of an expression, if it is resolved. -/
def elementTypeOf (e : NodeId) : Build (Option NodeId) := do
  let t ← get
  match (t.expressionType e).filter t.isResolved |>.bind t.unqualified with
  | none => return none
  | some u => some <$> valueType (← Surgery.copy u) .mutable

/-- Copies of the types of expressions, up to the first that is not resolved. -/
def elementTypesOf : List NodeId → Build (Option (List NodeId))
  | [] => return some []
  | e :: rest => do
    match ← elementTypeOf e with
    | none => return none
    | some type => return (← elementTypesOf rest).map (type :: ·)

/-- Optional values and results are typed by their value, or `auto` while that is untyped. -/
def containerOf (shape : TypeShape) (value : NodeId) : Build NodeId := do
  match ← elementTypeOf value with
  | some element => containerType shape element
  | none => plainType .auto

/-- An unset optional is an optional of anything. -/
def optionalLiteral (value : Option NodeId) : Build NodeId := do
  let type ←
    match value with
    | some value => containerOf .optional value
    | none => wildcardType .optional
  literal .optional type [value]

def resultLiteral (value : NodeId) : Build NodeId := do
  literal .result (← containerOf .result value) [some value]

def tupleLiteral (values : List NodeId) : Build NodeId := do
  let type ←
    match ← elementTypesOf values with
    | some elements => compoundType .tuple elements
    | none => plainType .auto
  literal .tuple type (values.map some)

/-- A list is typed by its first value; an empty list is a list of anything. -/
def listLiteral (values : List NodeId) : Build NodeId := do
  let type ←
    match values with
    | [] => wildcardType .list
    | first :: _ =>
      match ← elementTypeOf first with
      | some element => listType element
      | none => plainType .auto
  literal .list type (values.map some)

/-! ## Expressions -/

def expression (e : Expression) (slots : List (Option NodeId)) : Build NodeId :=
  node (.expression e) slots

def name (id : QualifiedId) : Build NodeId := expression (.name id none) [none]

def literalExpression (l : NodeId) : Build NodeId := expression .literal [some l]

def operator (kind : OperatorKind) (operands : List NodeId) : Build NodeId :=
  expression (.unresolved kind) (operands.map some)

def member (id : String) : Build NodeId := do
  let type ← plainType (.member id)
  let type ← valueType type .const
  expression (.member id) [some type]

def call (callee : QualifiedId) (arguments : List NodeId) : Build NodeId := do
  let callee ← name callee
  operator .call (callee :: arguments)

def memberCall (receiver : NodeId) (method : String) (arguments : List NodeId) : Build NodeId := do
  let method ← member method
  operator .memberCall (receiver :: method :: arguments)

def fieldAccess (receiver : NodeId) (id : String) : Build NodeId := do
  let id ← member id
  operator .member [receiver, id]

/-- The logical connectives are of type `bool`. -/
def logical (e : Expression) (operands : List NodeId) : Build NodeId := do
  let type ← plainType .bool
  let type ← valueType type .const
  expression e (some type :: operands.map some)

def typeExpression (type : NodeId) : Build NodeId := do
  let type ← containerType .typeOf type
  let type ← valueType type .const
  expression .type [some type]

def keyword (word : Keyword) : Build NodeId := expression (.keyword word) [none]

/-! ## Statements and attributes -/

def statement (s : Statement) (slots : List (Option NodeId)) : Build NodeId :=
  node (.statement s) slots

def attr (tag : String) (value : Option NodeId) : Build NodeId := node (.attr tag) [value]

def attrSet (attributes : List NodeId) : Build NodeId := node .attrSet (attributes.map some)

/-! ## Unit items -/

def unitField (id : Option String) (type : NodeId) (condition attributes : Option NodeId) : Build NodeId :=
  node (.item (.field id false)) [some type, none, condition, attributes]

/-- A field that parses exactly one literal and has its type. -/
def unitLiteral (id : Option String) (value : NodeId) (condition attributes : Option NodeId) :
    Build NodeId := do
  let type ←
    match (← get).expressionType value with
    | some type => Surgery.copy type
    | none => do
      let type ← plainType .auto
      valueType type .const
  node (.item (.field id false)) [some type, some value, condition, attributes]

def unitVariable (id : String) (type : NodeId) (default attributes : Option NodeId) : Build NodeId := do
  let type ← asPlace type
  node (.item (.var id)) [some type, default, attributes]

def unitSwitch (on : Option NodeId) (cases : List NodeId) : Build NodeId :=
  node (.item .switch) (on :: cases.map some)

def unitCase (item : NodeId) (labels : List NodeId) : Build NodeId :=
  node (.item (.alternative false)) (some item :: labels.map some)

def unitDefault (item : NodeId) : Build NodeId := node (.item (.alternative true)) [some item]

def unitProperty (id : String) (value : Option NodeId) : Build NodeId :=
  node (.item (.property id)) [value]

def unitSink (id : String) (attributes : Option NodeId) : Build NodeId :=
  node (.item (.sink id)) [attributes]

end Build

end ProtocolIR
