import ProtocolIR.Location
import ProtocolIR.Node.Id

/-!
# Productions

A production parses part of a unit. Productions refer to each other by number, so that recursive
units give finite grammars.
-/

namespace ProtocolIR

structure ProductionId where
  index : Nat
  deriving DecidableEq, Inhabited

def ProductionId.text (p : ProductionId) : String := "prod" ++ toString p.index

inductive ProductionKind where
  | epsilon
  /-- A fixed value, given by its text. -/
  | literal (text : String)
  /-- A value that is fixed by a type. -/
  | typeLiteral (type : String)
  /-- One of two productions, by a condition. -/
  | boolean (predicate : String) (yes no : ProductionId)
  /-- A production on exactly so many bytes. -/
  | block (size : String) (body : ProductionId)
  /-- A production so many times. -/
  | counter (count : String) (body : ProductionId)
  | sequence (items : List ProductionId)
  /-- A unit inside a unit, with a value of its own. -/
  | enclosure (body : ProductionId)
  /-- A production again and again, where `eod` allows the data to end instead. -/
  | forEach (body : ProductionId) (eod : Bool)
  /-- A production while a condition holds, or without one until the data ends. -/
  | loop (condition : Option String) (body : ProductionId)
  /-- The production of the case that has the value of an expression among its labels. -/
  | switch (expression : String) (cases : List (List String × ProductionId))
      (otherwise : Option ProductionId)
  /-- One of two productions, by the next token. -/
  | lookAhead (left right : ProductionId)
  | reference (target : ProductionId)
  /-- Stands for a unit that is met again; it has a target once the grammar is complete. -/
  | placeholder (target : Option ProductionId)
  | skip (type : String)
  /-- A value of a type. -/
  | value (type : String)
  | unit (typeId : String) (parameters : List String) (fields : List ProductionId)
  deriving DecidableEq, Inhabited

namespace ProductionKind

def name : ProductionKind → String
  | epsilon => "Epsilon"
  | literal _ => "Ctor"
  | typeLiteral _ => "TypeLiteral"
  | boolean .. => "Boolean"
  | block .. => "ByteBlock"
  | counter .. => "Counter"
  | sequence _ => "Sequence"
  | enclosure _ => "Enclosure"
  | forEach .. => "ForEach"
  | loop .. => "While"
  | switch .. => "Switch"
  | lookAhead .. => "LookAhead"
  | reference _ => "Reference"
  | placeholder _ => "Resolved"
  | skip _ => "Skip"
  | value _ => "Variable"
  | unit .. => "Unit"

/-- The stem of the symbols made for productions without one. -/
def stem : ProductionKind → String
  | epsilon => "eps"
  | literal _ => "ctor"
  | typeLiteral _ => "type"
  | boolean .. => "bool"
  | block .. => "block"
  | counter .. => "count"
  | sequence _ => "seq"
  | enclosure _ => "enc"
  | forEach .. => "foreach"
  | loop .. => "while"
  | switch .. => "switch"
  | lookAhead .. => "lah"
  | reference _ | placeholder _ => "ref"
  | skip _ => "skip"
  | value _ => "var"
  | unit .. => "unit"

/-- Whether the production takes input itself. -/
def isTerminal : ProductionKind → Bool
  | literal _ | typeLiteral _ | skip _ | value _ => true
  | _ => false

def isLiteral : ProductionKind → Bool
  | literal _ | typeLiteral _ => true
  | _ => false

def isEpsilon : ProductionKind → Bool
  | epsilon => true
  | _ => false

/-- Whether the production only points at another one. -/
def isReference : ProductionKind → Bool
  | reference _ | placeholder _ => true
  | _ => false

/-- What the production points at, if it only does that. -/
def reference? : ProductionKind → Option ProductionId
  | reference target => some target
  | placeholder target => target
  | _ => none

/-- The productions that a production refers to, in order. -/
def children : ProductionKind → List ProductionId
  | epsilon | literal _ | typeLiteral _ | skip _ | value _ => []
  | boolean _ yes no => [yes, no]
  | block _ body | counter _ body | forEach body _ | loop _ body | enclosure body => [body]
  | sequence items => items
  | unit _ _ fields => fields
  | reference target => [target]
  | placeholder target => target.toList
  | switch _ cases otherwise => cases.map Prod.snd ++ otherwise.toList
  | lookAhead left right => [left, right]

end ProductionKind

structure Production where
  symbol : String
  kind : ProductionKind
  location : Option Location := none
  /-- The unit item that is parsed. -/
  field : Option NodeId := none
  deriving DecidableEq, Inhabited

end ProtocolIR
