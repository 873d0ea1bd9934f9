import ProtocolIR.Attribute
import ProtocolIR.Grammar.Analysis
import ProtocolIR.Print
import ProtocolIR.Units.Basic

/-!
# The grammar of a unit

Every unit that is reached becomes one production; a unit that is met again becomes a
placeholder, which is told its target at the end. The outermost production of a field carries the
symbol of the field, all others get numbered symbols.
-/

namespace ProtocolIR.Grammar

/-- A grammar under construction. A unit has no production yet while it is being built. -/
structure Draft where
  productions : Array Production := #[]
  units : List (NodeId × Option ProductionId) := []
  placeholders : List (ProductionId × NodeId) := []
  /-- The number of symbols made so far. -/
  counter : Nat := 0
  deriving Inhabited

abbrev Construct := StateT Draft (Except Fault)

/-- Where a production comes from. -/
structure Origin where
  location : Option Location
  field : Option NodeId

namespace Construct

def freshNumber : Construct Nat := do
  modify fun d ↦ { d with counter := d.counter + 1 }
  return (← get).counter

/-- Adds a production, under a numbered symbol if it has none. -/
def add (symbol : Option String) (kind : ProductionKind) (origin : Origin) : Construct ProductionId := do
  let symbol ←
    match symbol with
    | some symbol => pure symbol
    | none => do pure ("_" ++ kind.stem ++ toString (← freshNumber))
  let p : ProductionId := ⟨(← get).productions.size⟩
  modify fun d ↦
    { d with
      productions := d.productions.push
        { symbol, kind, location := origin.location, field := origin.field } }
  return p

def setKind (p : ProductionId) (kind : ProductionKind) : Construct Unit :=
  modify fun d ↦
    { d with productions := d.productions.modify p.index fun production ↦ { production with kind } }

/-- Records the production of a unit, or that it is being built. -/
def setUnit (unit : NodeId) (p : Option ProductionId) : Construct Unit :=
  modify fun d ↦ { d with units := (unit, p) :: d.units }

def placeholder (unit : NodeId) (location : Option Location) : Construct ProductionId := do
  let p ← add none (.placeholder none) ⟨location, none⟩
  modify fun d ↦ { d with placeholders := d.placeholders ++ [(p, unit)] }
  return p

end Construct

open Construct

/-- How parts are built: the production of a type, with the attributes of its field, its symbol
and its origin; and the production of an item in the unit of a symbol, if it has one. -/
structure Producer where
  type : NodeId → Option NodeId → Option String → Origin → Construct ProductionId
  item : String → NodeId → Construct (Option ProductionId)

section

variable (t : Tree) (r : Producer)

/-- The text of the value of an attribute, if it is there. -/
def attributeText (attributes : Option NodeId) (tag : String) : Except Fault (Option (Option String)) :=
  match t.attributeTagged attributes tag with
  | none => .ok none
  | some a =>
    match t.attributeValue a with
    | .error _ => .ok (some none)
    | .ok value => do return some (some (← t.short value))

def typeTextOrEmpty (n : Option NodeId) : Except Fault String := (n.map t.typeText).getD (.ok "")

def unitProduction (unit : NodeId) : Construct ProductionId := do
  if ((← get).units.lookup unit).isSome then placeholder unit (t.location unit)
  else
    setUnit unit none
    let typeId ←
      match (t.typeData? unit).bind TypeData.typeId with
      | some id => pure id
      | none => do pure ("_unit" ++ toString (← freshNumber))
    let parameters := (t.childrenFrom unit 0 .declaration).filterMap fun p ↦
      (t.declaration? p).map Declaration.id
    -- The unit comes before its fields, which are filled in at the end.
    let p ← add (some typeId) (.unit typeId parameters []) ⟨t.location unit, none⟩
    let fields ← (t.childrenFrom unit 0 .item).mapM (r.item typeId)
    setKind p (.unit typeId parameters (fields.filterMap id))
    setUnit unit (some p)
    return p

/-- A list of elements while the next token starts another one. -/
def openList (body : ProductionId) (symbol : Option String) (origin : Origin) : Construct ProductionId := do
  let epsilon ← add none .epsilon origin
  let list ← add symbol (.lookAhead epsilon epsilon) origin
  let again ← add none (.reference list) origin
  let more ← add none (.sequence [body, again]) origin
  setKind list (.lookAhead more epsilon)
  return list

/-- A list ends by its attributes, or else where no further element starts. -/
def listProduction (list : NodeId) (attributes : Option NodeId) (symbol : Option String)
    (origin : Origin) : Construct ProductionId := do
  let body ←
    match t.elementType list with
    | some element => r.type element none none origin
    | none => add none (.value "<unknown>") origin
  match ← attributeText t attributes "&count" with
  | some count => add symbol (.counter (count.getD "") body) origin
  | none =>
    match ← attributeText t attributes "&until" with
    | some condition => add symbol (.loop (condition.map fun c ↦ "!(" ++ c ++ ")") body) origin
    | none =>
      match ← attributeText t attributes "&while" with
      | some condition => add symbol (.loop condition body) origin
      | none =>
        if t.hasTagged attributes "&eod" || t.hasTagged attributes "&size" then
          add symbol (.forEach body true) origin
        else openList body symbol origin

/-- An optional value is there if the next token starts it. -/
def optionalProduction (element : Option NodeId) (symbol : Option String) (origin : Origin) :
    Construct ProductionId := do
  let body ←
    match element with
    | some element => r.type element none none origin
    | none => add none .epsilon origin
  let epsilon ← add none .epsilon origin
  add symbol (.lookAhead body epsilon) origin

def typeProduction (type : NodeId) (attributes : Option NodeId) (symbol : Option String)
    (origin : Origin) : Construct ProductionId := do
  match t.follow type with
  | none => add symbol (.value (← t.typeText type)) origin
  | some u =>
    match t.shape? u with
    | some .unit =>
      let inner ← unitProduction t r u
      add symbol (.enclosure inner) origin
    | some .list => listProduction t r u attributes symbol origin
    | some .optional => optionalProduction r (t.child u 0) symbol origin
    | some .typeOf => add symbol (.typeLiteral (← typeTextOrEmpty t (t.child u 0))) origin
    | some .void => add symbol .epsilon origin
    | _ => add symbol (.value (← t.typeText u)) origin

def fieldSymbol (unit : String) : Option String → Construct String
  | some id => return unit ++ "::" ++ id
  | none => do return unit ++ "::_anon" ++ toString (← freshNumber)

/-- The value of a field, without its size and its condition. -/
def fieldValue (n : NodeId) (skip : Bool) (symbol : Option String) (origin : Origin) :
    Construct ProductionId := do
  match t.child n 1, skip, t.child n 0 with
  | some literal, _, _ => add symbol (.literal (← t.short literal)) origin
  | none, true, type => add symbol (.skip (← typeTextOrEmpty t type)) origin
  | none, false, some type => r.type type (t.child n 3) symbol origin
  | none, false, none => add symbol .epsilon origin

/-- A field is its value, in a block if it has a size, and in a choice if it has a condition. -/
def fieldProduction (unit : String) (n : NodeId) (id : Option String) (skip : Bool) :
    Construct ProductionId := do
  let symbol ← fieldSymbol unit id
  let origin : Origin := ⟨t.location n, some n⟩
  let size := (← attributeText t (t.child n 3) "&size").join
  let condition ← (t.child n 2).mapM fun c ↦ t.short c
  let p ← fieldValue t r n skip (if size.isNone && condition.isNone then some symbol else none) origin
  let p ←
    match size with
    | some size => add (if condition.isNone then some symbol else none) (.block size p) origin
    | none => pure p
  match condition with
  | some predicate =>
    let otherwise ← add none .epsilon origin
    add (some symbol) (.boolean predicate p otherwise) origin
  | none => return p

/-- The productions of the cases of a switch with their labels, and that of the last default. -/
def switchCases (unit : String) : List NodeId →
    Construct (List (List String × ProductionId) × Option ProductionId)
  | [] => return ([], none)
  | n :: rest => do
    match ← r.item unit n with
    | none => switchCases unit rest
    | some p =>
      if t.kind n == .item (.alternative true) then
        let (cases, otherwise) ← switchCases unit rest
        return (cases, otherwise.or (some p))
      else
        let labels ← (t.childrenFrom n 1 .expression).mapM fun e ↦ t.short e
        let (cases, otherwise) ← switchCases unit rest
        return ((labels, p) :: cases, otherwise)

/-- One of some productions by the next token, nested to the right. The list is reversed: its
head is the last alternative. -/
def chooseAhead (origin : Origin) : ProductionId → List ProductionId → Construct ProductionId
  | last, [] => return last
  | last, p :: before => do
    let choice ← add none (.lookAhead p last) origin
    chooseAhead origin choice before

/-- A switch selects by the value of its expression, or without one by the next token. -/
def switchProduction (unit : String) (n : NodeId) : Construct ProductionId := do
  let origin : Origin := ⟨t.location n, some n⟩
  let (cases, otherwise) ← switchCases t r unit (t.childrenFrom n 1 .item)
  match t.child n 0 with
  | some e => add none (.switch (← t.short e) cases otherwise) origin
  | none =>
    match (cases.map Prod.snd ++ otherwise.toList).reverse with
    | [] => add none .epsilon origin
    | last :: before => chooseAhead origin last before

/-- Variables, properties and sinks take no input. -/
def itemProduction (unit : String) (n : NodeId) : Construct (Option ProductionId) := do
  match (t.kind n).item? with
  | some (.field id skip) => some <$> fieldProduction t r unit n id skip
  | some .switch => some <$> switchProduction t r unit n
  | some (.alternative _) =>
    match t.child n 0 with
    | some inner => r.item unit inner
    | none => return none
  | some (.var _) | some (.property _) | some (.sink _) | none => return none

end

def producer (t : Tree) : Nat → Producer
  | 0 => ⟨fun _ _ _ _ ↦ throw .endless, fun _ _ ↦ throw .endless⟩
  | fuel + 1 =>
    ⟨fun type attributes symbol origin ↦ typeProduction t (producer t fuel) type attributes symbol origin,
      fun unit n ↦ itemProduction t (producer t fuel) unit n⟩

/-- Tells the placeholders their targets. Gives a line for each. -/
def tiePlaceholder (state : Draft × List String) (entry : ProductionId × NodeId) : Draft × List String :=
  let (d, lines) := state
  let (p, unit) := entry
  match (d.units.lookup unit).join with
  | none => state
  | some target =>
    let symbol := (d.productions[target.index]?.getD default).symbol
    let old := (d.productions[p.index]?.getD default).symbol
    ({ d with
        productions := d.productions.modify p.index fun production ↦
          { production with symbol, kind := .placeholder (some target) } },
      lines ++ ["resolved " ++ old ++ " to " ++ symbol])

/-- The canonical ID of a unit, or the ID of its declaration while it has none. -/
def unitName (t : Tree) (unit declaration : NodeId) : String :=
  (((t.typeData? unit).bind TypeData.typeId).or ((t.declaration? declaration).map Declaration.id)).getD
    "<unit>"

/-- The grammar of a unit type and what there is to report about it. A way down that ends meets
every unit at most once, and between two units every item and every type at most once. -/
def ofUnit (t : Tree) (unit declaration : NodeId) : Except Fault (Grammar × List String) := do
  let name := unitName t unit declaration
  let (root, draft) ← (unitProduction t (producer t (4 * (t.size + 1) * (t.size + 1))) unit).run {}
  let (draft, tied) := draft.placeholders.foldl tiePlaceholder (draft, [])
  let (g, rounds) := analyze { name, root := some root, productions := draft.productions }
  return (g, ["building grammar for " ++ name] ++ tied ++
    [name ++ ": FIRST settled after " ++ toString rounds ++ " rounds"] ++ g.errors.map GrammarError.message)

/-- The grammar of the unit that a declaration declares. -/
def ofDeclaration? (t : Tree) (declaration : NodeId) : Except Fault (Option (Grammar × List String)) :=
  match (t.declaredType declaration).filter fun u ↦ t.shape? u == some .unit with
  | none => .ok none
  | some unit => some <$> ofUnit t unit declaration

end ProtocolIR.Grammar
