import ProtocolIR.Node.Class
import ProtocolIR.Workspace

/-!
# Visitors

A visitor handles some classes of nodes. A class has a handler of its own and falls back on the
handler of its category; a node is given to the first of the two that the visitor has. The
unit dialect adds handlers for its own classes; without it unit items are passed over and unit
types count as types without a class of their own.
-/

namespace ProtocolIR

inductive Handler where
  | ofClass (c : NodeClass)
  | ofCategory (c : NodeCategory)
  deriving DecidableEq, Inhabited

namespace Handler

def categoryName : NodeCategory → String
  | .root => "root"
  | .declaration => "declaration"
  | .type => "unqualified_type"
  | .qualified => "qualified_type"
  | .expression => "expression"
  | .literal => "ctor"
  | .statement => "statement"
  | .attr => "attribute"
  | .attrSet => "attribute_set"
  | .item => "unit_item"

/-- The three logical connectives share a handler. -/
def className : NodeClass → String
  | .root => "root"
  | .module => "module"
  | .importedModule => "imported_module"
  | .typeDeclaration => "type_declaration"
  | .constant => "constant"
  | .globalVariable => "global_variable"
  | .localVariable => "local_variable"
  | .parameter => "parameter"
  | .function => "function"
  | .field => "field"
  | .label => "enum_label"
  | .qualified => "qualified_type"
  | .typeName => "type_name"
  | .typeEnum => "type_enum"
  | .typeStruct => "type_struct"
  | .typeUnion => "type_union"
  | .typeFunction => "type_function"
  | .typeList => "type_list"
  | .typeTuple => "type_tuple"
  | .typeUnit => "type_unit"
  | .typeSink => "type_sink"
  | .typeOther => "unqualified_type"
  | .exprName => "expr_name"
  | .exprLiteral => "expr_ctor"
  | .exprUnresolved => "expr_unresolved_operator"
  | .exprResolved => "expr_resolved_operator"
  | .exprCoerced => "expr_coerced"
  | .exprAssign => "expr_assign"
  | .exprAnd | .exprOr | .exprNot => "expr_logical"
  | .exprTernary => "expr_ternary"
  | .exprMember => "expr_member"
  | .exprType => "expr_type"
  | .exprKeyword => "expr_keyword"
  | .literalTuple => "ctor_tuple"
  | .literalList => "ctor_list"
  | .literalEnum => "ctor_enum"
  | .literalOther => "ctor"
  | .stmtBlock => "stmt_block"
  | .stmtExpression => "stmt_expression"
  | .stmtDeclaration => "stmt_declaration"
  | .stmtReturn => "stmt_return"
  | .stmtIf => "stmt_if"
  | .stmtWhile => "stmt_while"
  | .attr => "attribute"
  | .attrSet => "attribute_set"
  | .unitField => "unit_field"
  | .unitVariable => "unit_variable"
  | .unitSwitch => "unit_switch"
  | .unitCase => "unit_switch_case"
  | .unitProperty => "unit_property"
  | .unitSink => "unit_sink"

def name : Handler → String
  | ofClass c => className c
  | ofCategory c => categoryName c

end Handler

/-- The handlers for a kind of node, the one of its own class first. -/
def NodeKind.handlers (dialect : Dialect) (kind : NodeKind) : List Handler :=
  let general := Handler.ofCategory kind.category
  match kind.nodeClass, dialect with
  | .root, _ | .qualified, _ | .attr, _ | .attrSet, _ | .typeOther, _ | .literalOther, _ => [general]
  | .typeUnit, .base | .typeSink, .base => [general]
  | .unitField, .base | .unitVariable, .base | .unitSwitch, .base | .unitCase, .base
  | .unitProperty, .base | .unitSink, .base => []
  | c, _ => [.ofClass c, general]

/-- What a visitor does, with a state it carries along. -/
abbrev Visitor (σ : Type) := Handler → Option (σ → NodeId → Pass σ)

namespace Visitor

variable {σ : Type}

/-- Gives a node to the first handler the visitor has for it. -/
def dispatch (visitor : Visitor σ) (dialect : Dialect) (state : σ) (n : NodeId) : Pass σ := do
  match (((← Pass.tree).kind n).handlers dialect).findSome? visitor with
  | some handle => handle state n
  | none => return state

def visit (visitor : Visitor σ) (dialect : Dialect) (order : Order) (start : NodeId) (init : σ) :
    Pass σ :=
  Pass.walk order start init (visitor.dispatch dialect)

end Visitor

end ProtocolIR
