import ProtocolIR.Diagnostic
import ProtocolIR.Node.Declaration
import ProtocolIR.Node.Expression
import ProtocolIR.Node.Literal
import ProtocolIR.Node.TypeShape
import ProtocolIR.Node.UnitItem

/-!
# Nodes

A node says what it is, where it comes from, which nodes its child slots hold and which node
holds it. Slots may be empty.
-/

namespace ProtocolIR

inductive NodeKind where
  | root
  | declaration (d : Declaration)
  | type (t : TypeData)
  | qualified (q : Qualifiers)
  | expression (e : Expression)
  | literal (l : Literal)
  | statement (s : Statement)
  | attr (tag : String)
  | attrSet
  | item (i : UnitItem)
  deriving DecidableEq, Inhabited

inductive NodeCategory where
  | root | declaration | type | qualified | expression | literal | statement | attr
  | attrSet | item
  deriving DecidableEq, Inhabited

namespace NodeCategory

def all : List NodeCategory :=
  [root, declaration, type, qualified, expression, literal, statement, attr, attrSet, item]

def name : NodeCategory → String
  | root => "Root"
  | declaration => "Declaration"
  | type => "Type"
  | qualified => "QualifiedType"
  | expression => "Expression"
  | literal => "Ctor"
  | statement => "Statement"
  | attr => "Attribute"
  | attrSet => "AttributeSet"
  | item => "UnitItem"

def ofName? (text : String) : Option NodeCategory := all.find? fun c ↦ c.name == text

end NodeCategory

namespace NodeKind

def category : NodeKind → NodeCategory
  | root => .root
  | declaration _ => .declaration
  | type _ => .type
  | qualified _ => .qualified
  | expression _ => .expression
  | literal _ => .literal
  | statement _ => .statement
  | attr _ => .attr
  | attrSet => .attrSet
  | item _ => .item

def className : NodeKind → String
  | root => "Root"
  | declaration d => "declaration::" ++ d.kind.className
  | type t =>
    match t.shape with
    | .unit | .sink => "pdl::type::" ++ t.shape.category.className
    | _ => "type::" ++ t.shape.category.className
  | qualified _ => "QualifiedType"
  | expression e => "expression::" ++ e.className
  | literal l => "ctor::" ++ l.className
  | statement s => "statement::" ++ s.className
  | attr _ => "Attribute"
  | attrSet => "AttributeSet"
  | item i => "pdl::unit::" ++ i.className

def declaration? : NodeKind → Option Declaration
  | declaration d => some d
  | _ => none

def item? : NodeKind → Option UnitItem
  | item i => some i
  | _ => none

def isExpression : NodeKind → Bool
  | expression _ => true
  | _ => false

def isFunction (kind : NodeKind) : Bool := kind.declaration?.any fun d ↦ d.kind.isFunction

def isTypeDeclaration (kind : NodeKind) : Bool := kind.declaration?.any fun d ↦ d.kind == .type

end NodeKind

/-- A finding attached to a node. -/
structure Finding where
  message : String
  severity : Severity
  phase : Phase
  deriving DecidableEq, Inhabited

structure Node where
  kind : NodeKind
  location : Option Location := none
  comments : List String := []
  slots : List (Option NodeId) := []
  parent : Option NodeId := none
  scope : Option ScopeId := none
  findings : List Finding := []
  deriving DecidableEq, Inhabited

end ProtocolIR
