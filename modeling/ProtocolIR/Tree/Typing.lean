import ProtocolIR.Tree.Link

/-!
# Reading types

Views of the types in a tree: what a qualified type qualifies, what a type name stands for,
what a container contains, whether all names inside a type are resolved, and which type an
expression or a declaration has.

A chain of type names longer than `followLimit` counts as a cycle. The other recursions pass
through each node at most once on a path that ends, so the number of nodes bounds them.
-/

namespace ProtocolIR

def followLimit : Nat := 64

namespace Tree

def typeData? (t : Tree) (n : NodeId) : Option TypeData :=
  match t.kind n with
  | .type data => some data
  | _ => none

def shape? (t : Tree) (n : NodeId) : Option TypeShape := (t.typeData? n).map TypeData.shape

def qualifiers? (t : Tree) (n : NodeId) : Option Qualifiers :=
  match t.kind n with
  | .qualified q => some q
  | _ => none

/-- The type under a qualified type; an unqualified type itself. -/
def unqualified (t : Tree) (n : NodeId) : Option NodeId :=
  match t.kind n with
  | .qualified _ => t.child n 0
  | .type _ => some n
  | _ => none

/-- The type a type declaration declares. -/
def declaredType (t : Tree) (n : NodeId) : Option NodeId :=
  if (t.kind n).isTypeDeclaration then (t.child n 0).bind t.unqualified else none

/-- The declared type a resolved link stands for. -/
def linkedType (t : Tree) (resolved : Option Link) : Option NodeId :=
  (resolved.bind t.linkTarget).bind t.declaredType

def followWithin (t : Tree) : Nat → NodeId → Option NodeId
  | 0, _ => none
  | fuel + 1, n =>
    match t.shape? n with
    | none => none
    | some (.name _ resolved) => (t.linkedType resolved).bind (t.followWithin fuel)
    | some _ => some n

/-- The type that is meant: without qualification, and with names replaced by what they
stand for. Unresolved names and cycles of names mean nothing. -/
def follow (t : Tree) (n : NodeId) : Option NodeId :=
  (t.unqualified n).bind (t.followWithin followLimit)

def followedShape (t : Tree) (n : NodeId) : Option TypeShape := (t.follow n).bind t.shape?

def elementTypeWithin (t : Tree) : Nat → NodeId → Option NodeId
  | 0, _ => none
  | fuel + 1, n =>
    (t.follow n).bind fun u ↦
      match t.shape? u with
      | some .list => (t.child u 0).bind (t.elementTypeWithin fuel)
      | some .iterator | some .optional | some .result | some .strongRef | some .weakRef
      | some .valueRef | some .typeOf => t.child u 0
      | _ => none

/-- The qualified type of what a container contains, a reference refers to or a type
expression denotes. -/
def elementType (t : Tree) (n : NodeId) : Option NodeId := t.elementTypeWithin (t.size + 1) n

/-- Whether variables can hold values of the type. -/
def isAllocable (t : Tree) (n : NodeId) : Bool :=
  match t.followedShape n with
  | none => false
  | some .void | some .null | some .unknown | some .auto | some (.member _) | some .typeOf
  | some .function => false
  | some _ => true

/-- Whether values of the type change in place. -/
def isMutable (t : Tree) (n : NodeId) : Bool :=
  match t.followedShape n with
  | some .bytes | some .stream | some .list | some .struct | some .union | some .unit
  | some .sink => true
  | _ => false

def isSortableWithin (t : Tree) : Nat → NodeId → Bool
  | 0, _ => false
  | fuel + 1, n =>
    match t.follow n with
    | none => false
    | some u =>
      match t.shape? u with
      | some .bool | some (.signed _) | some (.unsigned _) | some .real | some .string
      | some .bytes | some .address | some .port | some .enumeration => true
      | some .tuple => (t.children u).all (t.isSortableWithin fuel)
      | some .optional => (t.child u 0).any (t.isSortableWithin fuel)
      | _ => false

/-- Whether values of the type have a total order. -/
def isSortable (t : Tree) (n : NodeId) : Bool := t.isSortableWithin (t.size + 1) n

def isResolvedWithin (t : Tree) : Nat → List NodeId → NodeId → Bool
  | 0, _, _ => true
  | fuel + 1, path, n =>
    if n ∈ path then true
    else
      let check := t.isResolvedWithin fuel (n :: path)
      match t.kind n with
      | .qualified _ => (t.child n 0).any check
      | .type data =>
        match data.shape with
        | .auto | .unknown => false
        | .name _ resolved =>
          match resolved.bind t.linkTarget with
          | some decl => (t.declaredType decl).any check
          | none => false
        | _ => data.wildcard || (t.children n).all check
      | .declaration d =>
        match d.kind with
        | .label .. => true
        | _ => (t.child n 0).all check
      | .item _ => (t.child n 0).all check
      | _ => true

/-- Whether a type mentions no `auto`, no unknown type and no unresolved name. A type met
again on the way down counts as resolved, and so does a wildcard. -/
def isResolved (t : Tree) (n : NodeId) : Bool := t.isResolvedWithin (t.size + 1) [] n

/-- Whether two types are one node or have recorded the same serialization. -/
def sameType (t : Tree) (a b : NodeId) : Bool :=
  match t.unqualified a, t.unqualified b with
  | some a, some b =>
    a == b ||
      match (t.typeData? a).bind TypeData.unification, (t.typeData? b).bind TypeData.unification with
      | some x, some y => x == y
      | _, _ => false
  | _, _ => false

/-! ## Types of expressions and declarations -/

/-- The qualified type of the value that a declaration or a unit item introduces. A label has
the type of its enum. -/
def declarationType (t : Tree) (n : NodeId) : Option NodeId :=
  match t.kind n with
  | .declaration d =>
    match d.kind with
    | .label .. => (t.parent n).bind t.parent
    | kind => if kind.hasValueType then t.child n 0 else none
  | .item (.field ..) | .item (.var _) => t.child n 0
  | _ => none

def expressionTypeWithin (t : Tree) : Nat → NodeId → Option NodeId
  | 0, _ => none
  | fuel + 1, n =>
    match t.kind n with
    | .expression e =>
      match e with
      | .name _ (some link) => (t.linkTarget link).bind t.declarationType
      | .name _ none => t.child n 0
      | .literal => (t.child n 0).bind fun c ↦ t.child c 0
      | .unresolved _ => none
      | .resolved .. | .logicalAnd | .logicalOr | .logicalNot | .member _ | .type | .keyword _ =>
        t.child n 0
      | .coerced => t.child n 1
      | .assign => (t.child n 0).bind (t.expressionTypeWithin fuel)
      | .ternary => (t.child n 1).bind (t.expressionTypeWithin fuel)
    | _ => none

/-- The qualified type of an expression, as far as it is known. -/
def expressionType (t : Tree) (n : NodeId) : Option NodeId := t.expressionTypeWithin (t.size + 1) n

def literalWithin (t : Tree) : Nat → NodeId → Option NodeId
  | 0, _ => none
  | fuel + 1, n =>
    match t.kind n with
    | .expression .literal => t.child n 0
    | .expression .coerced => (t.child n 0).bind (t.literalWithin fuel)
    | .literal _ => some n
    | _ => none

/-- The literal behind an expression, through coercions. -/
def literalOf (t : Tree) (n : NodeId) : Option NodeId := t.literalWithin (t.size + 1) n

def literal? (t : Tree) (n : NodeId) : Option Literal :=
  match t.kind n with
  | .literal l => some l
  | _ => none

/-- The parameters of a function declaration. -/
def parameters (t : Tree) (n : NodeId) : List NodeId :=
  match (t.child n 0).bind t.unqualified with
  | some f => t.childrenFrom f 1 .declaration
  | none => []

/-- The result type of a function declaration. -/
def resultType (t : Tree) (n : NodeId) : Option NodeId :=
  ((t.child n 0).bind t.unqualified).bind fun f ↦ t.child f 0

/-- The result type of the function that a node is in. -/
def enclosingResultType (t : Tree) (n : NodeId) : Option NodeId :=
  (t.findAncestor n NodeKind.isFunction).bind t.resultType

/-- Whether a qualified type still waits for its type. -/
def isAuto (t : Tree) (n : NodeId) : Bool := (t.unqualified n).bind t.shape? == some .auto

end Tree

end ProtocolIR
