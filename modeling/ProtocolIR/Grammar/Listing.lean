import ProtocolIR.Grammar.Basic

/-!
# Listing grammars

One line per production, `<symbol> -> <right-hand side>`, with `[literal]` and `[nullable]` after
it. References have no lines; where they are used their targets are named.
-/

namespace ProtocolIR.Grammar

/-- The symbol under which a production is named in another one. -/
def partSymbol (g : Grammar) (p : ProductionId) : String :=
  match g.kind p with
  | .placeholder none => "<unresolved>"
  | _ => g.symbol (g.resolve p)

def caseText (g : Grammar) (labels : List String) (p : ProductionId) : String :=
  String.intercalate ", " labels ++ " => " ++ g.partSymbol p

def rightHandSide (g : Grammar) : ProductionKind → String
  | .epsilon => "()"
  | .literal text => text
  | .typeLiteral type => "type(" ++ type ++ ")"
  | .boolean predicate yes no => predicate ++ " ? " ++ g.partSymbol yes ++ " : " ++ g.partSymbol no
  | .block size body => "bytes(" ++ size ++ ") " ++ g.partSymbol body
  | .counter count body => "count(" ++ count ++ ") " ++ g.partSymbol body
  | .sequence items => String.intercalate " " (items.map g.partSymbol)
  | .enclosure body => "enclose " ++ g.partSymbol body
  | .forEach body eod => "foreach" ++ (if eod then "(eod)" else "") ++ " " ++ g.partSymbol body
  | .loop condition body => "while(" ++ condition.getD "eod" ++ ") " ++ g.partSymbol body
  | .switch expression cases otherwise =>
    let arms := cases.map (fun (labels, p) ↦ g.caseText labels p) ++
      otherwise.toList.map fun p ↦ g.caseText ["*"] p
    "switch(" ++ expression ++ ") " ++ String.intercalate " | " arms
  | .lookAhead left right => g.partSymbol left ++ " | " ++ g.partSymbol right
  | .reference target => "-> " ++ g.partSymbol target
  | .placeholder (some target) => "-> " ++ g.partSymbol target
  | .placeholder none => "<unresolved>"
  | .skip type => "skip(" ++ type ++ ")"
  | .value type => type
  | .unit _ parameters fields =>
    let head := if parameters.isEmpty then "unit" else "unit(" ++ String.intercalate ", " parameters ++ ")"
    String.intercalate " " (head :: fields.map g.partSymbol)

def line (g : Grammar) (p : ProductionId) : String :=
  g.symbol p ++ " -> " ++ g.rightHandSide (g.kind p) ++
    (if (g.kind p).isLiteral then " [literal]" else "") ++ (if g.isNullable p then " [nullable]" else "")

def listing (g : Grammar) : List String :=
  (g.ids.filter fun p ↦ !(g.kind p).isReference).map g.line

end ProtocolIR.Grammar
