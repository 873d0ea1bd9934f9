import ProtocolIR.Fault
import ProtocolIR.Grammar.Production
import ProtocolIR.Grammar.Token

/-!
# Grammars

A grammar is a list of productions with what the analysis found out about each: whether it can
match nothing, which tokens can begin it and which can follow it. A production that only points
at another one has the properties of its target.
-/

namespace ProtocolIR

structure Attributes where
  nullable : Bool := false
  first : TokenSet := []
  follow : TokenSet := []
  deriving DecidableEq, Inhabited

structure GrammarError where
  message : String
  location : Option Location
  field : Option NodeId
  deriving DecidableEq, Inhabited

structure Grammar where
  name : String
  root : Option ProductionId := none
  productions : Array Production := #[]
  attributes : Array Attributes := #[]
  /-- For each look-ahead the tokens that select either alternative. -/
  lookAheads : List (ProductionId × TokenSet × TokenSet) := []
  errors : List GrammarError := []
  deriving Inhabited

namespace Grammar

def size (g : Grammar) : Nat := g.productions.size

def ids (g : Grammar) : List ProductionId := (List.range g.size).map ProductionId.mk

def production (g : Grammar) (p : ProductionId) : Production := g.productions[p.index]?.getD default

def kind (g : Grammar) (p : ProductionId) : ProductionKind := (g.production p).kind

def symbol (g : Grammar) (p : ProductionId) : String := (g.production p).symbol

/-- A grammar of given productions, without analysis. Every reference has to be a production. -/
def ofProductions (name : String) (productions : Array Production) : Except Fault Grammar :=
  if productions.all fun production ↦ production.kind.children.all fun p ↦ p.index < productions.size then
    .ok { name, productions }
  else .error .outOfRange

/-- The first production with a symbol that is not only a reference. -/
def find? (g : Grammar) (symbol : String) : Option ProductionId :=
  g.ids.find? fun p ↦ g.symbol p == symbol && !(g.kind p).isReference

def resolveWithin (g : Grammar) : Nat → ProductionId → ProductionId
  | 0, p => p
  | fuel + 1, p =>
    match (g.kind p).reference? with
    | some target => g.resolveWithin fuel target
    | none => p

/-- What a production stands for. A chain of references that ends has no more steps than there
are productions. -/
def resolve (g : Grammar) (p : ProductionId) : ProductionId := g.resolveWithin g.size p

def attributesOf (g : Grammar) (p : ProductionId) : Attributes :=
  g.attributes[(g.resolve p).index]?.getD {}

def isNullable (g : Grammar) (p : ProductionId) : Bool := (g.attributesOf p).nullable

def first (g : Grammar) (p : ProductionId) : TokenSet := (g.attributesOf p).first

def follow (g : Grammar) (p : ProductionId) : TokenSet := (g.attributesOf p).follow

def isTerminal (g : Grammar) (p : ProductionId) : Bool := (g.kind (g.resolve p)).isTerminal

def isLiteral (g : Grammar) (p : ProductionId) : Bool := (g.kind (g.resolve p)).isLiteral

/-- Whether a production has no parts. -/
def isAtomic (g : Grammar) (p : ProductionId) : Bool :=
  g.isTerminal p || (g.kind (g.resolve p)).isEpsilon

/-- The tokens that select the alternatives of a look-ahead. -/
def lookAhead? (g : Grammar) (p : ProductionId) : Option (TokenSet × TokenSet) :=
  (g.lookAheads.find? fun entry ↦ entry.1 == p).map Prod.snd

def eodOkWithin (g : Grammar) : Nat → ProductionId → Option Bool
  | 0, _ => none
  | fuel + 1, p =>
    match g.kind (g.resolve p) with
    | .forEach _ true | .loop none _ => some true
    | .sequence items => items.allM (g.eodOkWithin fuel)
    | .boolean _ yes no => [yes, no].anyM (g.eodOkWithin fuel)
    | .lookAhead left right => [left, right].anyM (g.eodOkWithin fuel)
    | _ => some (g.isNullable p)

/-- Whether the data may end at a production. The test has no answer for a production that
depends on itself; without that it passes each production at most once on its way down. -/
def eodOk? (g : Grammar) (p : ProductionId) : Option Bool := g.eodOkWithin (g.size + 1) p

end Grammar

end ProtocolIR
