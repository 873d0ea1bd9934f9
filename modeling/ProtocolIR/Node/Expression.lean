import ProtocolIR.QualifiedId
import ProtocolIR.Node.Id
import ProtocolIR.Operator.Kind

/-!
# Expressions, statements and literals

Child slots of expressions: a name has an optional type hint; a literal expression its
literal; an operator its operands, preceded by the result type once it is resolved; a coerced
expression the inner expression and the target type; an assignment target and source; the
logical connectives their type and then their operands; a conditional its condition and both
branches; a member, a type expression and a keyword their type. A call's first operand is the
name of the callee; a member call's first two are the receiver and the member.

Slot 0 of a literal is its qualified type; the values of a compound literal follow.
-/

namespace ProtocolIR

/-- What a resolved operator stands for: a built-in by its number, or a function. -/
inductive OperatorTarget where
  | builtin (id : Nat)
  | function (link : Link)
  deriving DecidableEq, Inhabited

inductive Keyword where
  /-- The unit or struct a body belongs to. -/
  | self
  /-- The value just parsed. -/
  | current
  deriving DecidableEq, Inhabited

namespace Keyword

def all : List Keyword := [self, current]

def text : Keyword → String
  | self => "self"
  | current => "$$"

def ofText? (text : String) : Option Keyword := all.find? fun word ↦ word.text == text

end Keyword

inductive Expression where
  | name (id : QualifiedId) (resolved : Option Link)
  | literal
  | unresolved (kind : OperatorKind)
  | resolved (kind : OperatorKind) (target : OperatorTarget)
  | coerced
  | assign
  | logicalAnd
  | logicalOr
  | logicalNot
  | ternary
  | member (id : String)
  | type
  | keyword (word : Keyword)
  deriving DecidableEq, Inhabited

def Expression.className : Expression → String
  | .name .. => "Name"
  | .literal => "Ctor"
  | .unresolved _ => "UnresolvedOperator"
  | .resolved .. => "ResolvedOperator"
  | .coerced => "Coerced"
  | .assign => "Assign"
  | .logicalAnd => "LogicalAnd"
  | .logicalOr => "LogicalOr"
  | .logicalNot => "LogicalNot"
  | .ternary => "Ternary"
  | .member _ => "Member"
  | .type => "Type"
  | .keyword _ => "Keyword"

/-- A block holds statements; the others hold their parts in reading order. -/
inductive Statement where
  | block
  | expression
  | declaration
  | ret
  | conditional
  | loop
  deriving DecidableEq, Inhabited

namespace Statement

def all : List Statement := [block, expression, declaration, ret, conditional, loop]

def className : Statement → String
  | block => "Block"
  | expression => "Expression"
  | declaration => "Declaration"
  | ret => "Return"
  | conditional => "If"
  | loop => "While"

end Statement

end ProtocolIR
