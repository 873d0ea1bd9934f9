import ProtocolIR.FrontEnd
import ProtocolIR.Units.Resolution
import ProtocolIR.Units.Validation

/-!
# The protocol language

The language of units, which describe the format of data; each unit type gets a grammar. It runs
before the base language, so that the scopes of units are there when names inside them are
resolved.
-/

namespace ProtocolIR.FrontEnd

/-- The declarations of unit types beneath a node. -/
def unitDeclarations (t : Tree) (start : NodeId) : List NodeId :=
  (t.subtree start).filter fun n ↦ (t.declaredType n).any fun u ↦ t.shape? u == some .unit

/-- The grammar of one unit; its errors are attached to the items they are about. -/
def buildGrammar (declaration : NodeId) : Pass (Option Grammar) := do
  match ← Grammar.ofDeclaration? (← Pass.tree) declaration with
  | none => return none
  | some (g, lines) =>
    lines.forM (Pass.debug .grammar)
    return some g

def reportGrammar (declaration : NodeId) (g : Grammar) : Pass Unit := do
  Pass.debug .grammar (g.name ++ ": " ++ toString g.size ++ " productions")
  Pass.modifyTree fun t ↦
    t.addErrors (g.errors.map fun e ↦ (e.field.getD declaration, e.message)) .grammar

def buildGrammars (start : NodeId) : Pass (List Grammar) := do
  let grammars ← (unitDeclarations (← Pass.tree) start).mapM fun declaration ↦ do
    let grammar ← buildGrammar declaration
    grammar.forM (reportGrammar declaration)
    return grammar
  return grammars.filterMap id

def units : FrontEnd where
  component := "PDL"
  order := 5
  extension := ".pdl"
  buildScopes := Tree.buildUnitScopes
  conversions := { type := Units.convertType }
  resolve := Units.Resolution.resolve
  validatePre := Units.Validation.validatePre
  validatePost := fun t _ start ↦ .ok (Units.Validation.validatePost t start)
  transform := fun start ↦ do
    let grammars ← buildGrammars start
    return { isProduced := !grammars.isEmpty, grammars := some grammars }

end ProtocolIR.FrontEnd
