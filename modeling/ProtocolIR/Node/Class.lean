import ProtocolIR.Node.Basic

/-!
# Node classes

The classes a visitor tells apart. Types and literals without a class of their own fall under
`typeOther` and `literalOther`. A class belongs to the base language or to the unit dialect.
-/

namespace ProtocolIR

inductive NodeClass where
  | root | module | importedModule | typeDeclaration | constant | globalVariable | localVariable
  | parameter | function | field | label | qualified | typeName | typeEnum | typeStruct | typeUnion
  | typeFunction | typeList | typeTuple | typeUnit | typeSink | typeOther | exprName | exprLiteral
  | exprUnresolved | exprResolved | exprCoerced | exprAssign | exprAnd | exprOr | exprNot
  | exprTernary | exprMember | exprType | exprKeyword | literalTuple | literalList | literalEnum
  | literalOther | stmtBlock | stmtExpression | stmtDeclaration | stmtReturn | stmtIf | stmtWhile
  | attr | attrSet | unitField | unitVariable | unitSwitch | unitCase | unitProperty
  | unitSink
  deriving DecidableEq, Inhabited

inductive Dialect where
  | base
  | units
  deriving DecidableEq, Inhabited

namespace NodeClass

def dialect : NodeClass → Dialect
  | typeUnit | typeSink | unitField | unitVariable | unitSwitch | unitCase | unitProperty
  | unitSink => .units
  | _ => .base

def name : NodeClass → String
  | root => "Root"
  | module => "Module"
  | importedModule => "ImportedModule"
  | typeDeclaration => "TypeDeclaration"
  | constant => "Constant"
  | globalVariable => "GlobalVariable"
  | localVariable => "LocalVariable"
  | parameter => "Parameter"
  | function => "Function"
  | field => "Field"
  | label => "EnumLabel"
  | qualified => "QualifiedType"
  | typeName => "TypeName"
  | typeEnum => "TypeEnum"
  | typeStruct => "TypeStruct"
  | typeUnion => "TypeUnion"
  | typeFunction => "TypeFunction"
  | typeList => "TypeList"
  | typeTuple => "TypeTuple"
  | typeUnit => "TypeUnit"
  | typeSink => "TypeSink"
  | typeOther => "TypeOther"
  | exprName => "ExprName"
  | exprLiteral => "ExprCtor"
  | exprUnresolved => "ExprUnresolvedOperator"
  | exprResolved => "ExprResolvedOperator"
  | exprCoerced => "ExprCoerced"
  | exprAssign => "ExprAssign"
  | exprAnd => "ExprLogicalAnd"
  | exprOr => "ExprLogicalOr"
  | exprNot => "ExprLogicalNot"
  | exprTernary => "ExprTernary"
  | exprMember => "ExprMember"
  | exprType => "ExprType"
  | exprKeyword => "ExprKeyword"
  | literalTuple => "CtorTuple"
  | literalList => "CtorList"
  | literalEnum => "CtorEnum"
  | literalOther => "CtorOther"
  | stmtBlock => "StmtBlock"
  | stmtExpression => "StmtExpression"
  | stmtDeclaration => "StmtDeclaration"
  | stmtReturn => "StmtReturn"
  | stmtIf => "StmtIf"
  | stmtWhile => "StmtWhile"
  | attr => "Attribute"
  | attrSet => "AttributeSet"
  | unitField => "UnitField"
  | unitVariable => "UnitVariable"
  | unitSwitch => "UnitSwitch"
  | unitCase => "UnitSwitchCase"
  | unitProperty => "UnitProperty"
  | unitSink => "UnitSink"

end NodeClass

namespace NodeKind

def nodeClass : NodeKind → NodeClass
  | root => .root
  | declaration d =>
    match d.kind with
    | .module => .module
    | .importedModule _ => .importedModule
    | .type => .typeDeclaration
    | .constant => .constant
    | .globalVariable => .globalVariable
    | .localVariable => .localVariable
    | .parameter _ => .parameter
    | .function .. => .function
    | .field => .field
    | .label .. => .label
  | type t =>
    match t.shape with
    | .name .. => .typeName
    | .enumeration => .typeEnum
    | .struct => .typeStruct
    | .union => .typeUnion
    | .function => .typeFunction
    | .list => .typeList
    | .tuple => .typeTuple
    | .unit => .typeUnit
    | .sink => .typeSink
    | _ => .typeOther
  | qualified _ => .qualified
  | expression e =>
    match e with
    | .name .. => .exprName
    | .literal => .exprLiteral
    | .unresolved _ => .exprUnresolved
    | .resolved .. => .exprResolved
    | .coerced => .exprCoerced
    | .assign => .exprAssign
    | .logicalAnd => .exprAnd
    | .logicalOr => .exprOr
    | .logicalNot => .exprNot
    | .ternary => .exprTernary
    | .member _ => .exprMember
    | .type => .exprType
    | .keyword _ => .exprKeyword
  | literal l =>
    match l with
    | .tuple => .literalTuple
    | .list => .literalList
    | .enumeration _ => .literalEnum
    | _ => .literalOther
  | statement s =>
    match s with
    | .block => .stmtBlock
    | .expression => .stmtExpression
    | .declaration => .stmtDeclaration
    | .ret => .stmtReturn
    | .conditional => .stmtIf
    | .loop => .stmtWhile
  | attr _ => .attr
  | attrSet => .attrSet
  | item i =>
    match i with
    | .field .. => .unitField
    | .var _ => .unitVariable
    | .switch => .unitSwitch
    | .alternative _ => .unitCase
    | .property _ => .unitProperty
    | .sink _ => .unitSink

end NodeKind

end ProtocolIR
