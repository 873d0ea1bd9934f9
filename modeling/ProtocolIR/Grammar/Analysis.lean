import ProtocolIR.Grammar.Basic

/-!
# Analysis of grammars

Nullability and FIRST are computed together: every round evaluates the productions in order from
what is known so far, until a round changes nothing. FOLLOW starts empty and grows in rounds,
each of which reads the sets of the round before. Both only ever grow, and there are no more
tokens than productions, which bounds the rounds. A look-ahead is ambiguous if some token
selects both alternatives.
-/

namespace ProtocolIR.Grammar

/-- The token of a production that takes input. -/
def token? : ProductionKind → Option Token
  | .literal text => some (.literal text)
  | .typeLiteral type => some (.literal ("type(" ++ type ++ ")"))
  | .skip type | .value type => some (.value type)
  | _ => none

/-- FIRST of productions one after another, and whether all are nullable. -/
def firstOfSequence (g : Grammar) : List ProductionId → TokenSet × Bool
  | [] => ([], true)
  | p :: rest =>
    if g.isNullable p then
      let (set, nullable) := g.firstOfSequence rest
      (TokenSet.union (g.first p) set, nullable)
    else (g.first p, false)

/-- FIRST of one of some productions. -/
def firstOfChoice (g : Grammar) (ps : List ProductionId) : TokenSet :=
  ps.foldl (fun set p ↦ TokenSet.union set (g.first p)) []

def hasNoDefault : ProductionKind → Bool
  | .switch _ _ none => true
  | _ => false

/-- Nullability and FIRST of a production from those of its parts; references have none of
their own. -/
def evaluate (g : Grammar) (kind : ProductionKind) : Option (Bool × TokenSet) :=
  match kind with
  | .literal _ | .typeLiteral _ | .skip _ | .value _ => some (false, (token? kind).toList)
  | .epsilon => some (true, [])
  | .reference _ | .placeholder _ => none
  | .sequence items | .unit _ _ items =>
    let (set, nullable) := g.firstOfSequence items
    some (nullable, set)
  | .enclosure body | .block _ body => some (g.isNullable body, g.first body)
  | .counter _ body | .loop _ body => some (true, g.first body)
  | .forEach body eod => some (eod || g.isNullable body, g.first body)
  | .boolean .. | .switch .. | .lookAhead .. =>
    some (kind.children.any g.isNullable || hasNoDefault kind, g.firstOfChoice kind.children)

def modifyAttributes (g : Grammar) (p : ProductionId) (f : Attributes → Attributes) : Grammar :=
  { g with attributes := g.attributes.modify p.index f }

/-! ## Nullability and FIRST -/

/-- Evaluates one production; says whether that changed anything. -/
def firstStep (state : Grammar × Bool) (p : ProductionId) : Grammar × Bool :=
  let (g, _) := state
  match g.evaluate (g.kind p) with
  | none => state
  | some (nullable, first) =>
    let old := g.attributes[p.index]?.getD {}
    if old.nullable = nullable ∧ old.first = first then state
    else (g.modifyAttributes p fun a ↦ { a with nullable, first }, true)

def firstRound (g : Grammar) : Grammar × Bool := g.ids.foldl firstStep (g, false)

/-- Runs rounds until one changes nothing; gives the number of rounds that were run. -/
def settleFirst : Nat → Nat → Grammar → Grammar × Nat
  | 0, rounds, g => (g, rounds)
  | fuel + 1, rounds, g =>
    match g.firstRound with
    | (g, true) => settleFirst fuel (rounds + 1) g
    | (g, false) => (g, rounds + 1)

/-! ## FOLLOW -/

/-- What each item of a sequence is followed by, given what follows the sequence. -/
def followInSequence (g : Grammar) (follow : TokenSet) : List ProductionId → List (ProductionId × TokenSet)
  | [] => []
  | p :: rest =>
    let (set, nullable) := g.firstOfSequence rest
    (p, if nullable then TokenSet.union set follow else set) :: g.followInSequence follow rest

/-- What the parts of a production are followed by. -/
def followParts (g : Grammar) (p : ProductionId) : List (ProductionId × TokenSet) :=
  match g.kind p with
  | .sequence items | .unit _ _ items => g.followInSequence (g.follow p) items
  | .counter _ body | .forEach body _ | .loop _ body =>
    [(body, TokenSet.union (g.first body) (g.follow p))]
  | kind => kind.children.map fun q ↦ (q, g.follow p)

/-- Adds tokens to what follows a production; says whether any was new. -/
def addFollow (state : Grammar × Bool) (addition : ProductionId × TokenSet) : Grammar × Bool :=
  let (g, changed) := state
  let (p, set) := addition
  let target := g.resolve p
  let isNew := !set.all fun token ↦ (g.follow p).contains token
  (g.modifyAttributes target fun a ↦ { a with follow := TokenSet.union a.follow set }, changed || isNew)

def followRound (g : Grammar) : Grammar × Bool :=
  (g.ids.flatMap g.followParts).foldl addFollow (g, false)

def settleFollow : Nat → Grammar → Grammar
  | 0, g => g
  | fuel + 1, g =>
    match g.followRound with
    | (g, true) => settleFollow fuel g
    | (g, false) => g

/-! ## Look-aheads -/

/-- The tokens that select an alternative of a look-ahead. -/
def selecting (g : Grammar) (p alternative : ProductionId) : TokenSet :=
  if g.isNullable alternative then TokenSet.union (g.first alternative) (g.follow p)
  else g.first alternative

def lookAheadSets (g : Grammar) (p : ProductionId) : Option (TokenSet × TokenSet) :=
  match g.kind p with
  | .lookAhead left right => some (g.selecting p left, g.selecting p right)
  | _ => none

def ambiguity (g : Grammar) (p : ProductionId) (sets : TokenSet × TokenSet) : Option GrammarError :=
  match sets.1.filter sets.2.contains with
  | [] => none
  | shared => some {
      message := "ambiguous look-ahead in '" ++ g.symbol p ++ "': " ++
        String.intercalate ", " (shared.map Token.text) ++ " can start both alternatives"
      location := (g.production p).location
      field := (g.production p).field }

def checkLookAheads (g : Grammar) : Grammar :=
  let lookAheads := g.ids.filterMap fun p ↦ (g.lookAheadSets p).map fun sets ↦ (p, sets)
  { g with
    lookAheads
    errors := lookAheads.filterMap fun (p, sets) ↦ g.ambiguity p sets }

/-- Computes the properties of all productions and finds the ambiguous look-aheads. Gives the
number of rounds that FIRST took. -/
def analyze (g : Grammar) : Grammar × Nat :=
  let g := { g with attributes := g.productions.map fun _ ↦ {} }
  let (g, rounds) := settleFirst (g.size * (g.size + 1) + 2) 0 g
  ((settleFollow (g.size * g.size + 2) g).checkLookAheads, rounds)

end ProtocolIR.Grammar
