import ProtocolIR.Fault
import ProtocolIR.Scope.Basic

/-!
# Trees

A tree owns all nodes and scopes of a compilation. Nodes are never destroyed, so a node keeps
its number; a node that no slot holds is detached. The root is the first node.
-/

namespace ProtocolIR

structure Tree where
  nodes : Array Node := #[{ kind := .root }]
  scopes : Array Scope := #[]
  /-- How many fresh identifiers were drawn for each stem. -/
  drawn : List (String × Nat) := []
  deriving Inhabited

/-- The type of which only the shape is known, and perhaps its text. -/
abbrev NodeKind.shaped (shape : TypeShape) (unification : Option String := none) : NodeKind :=
  .type { shape, unification }

/-- The declaration of which only the name and the kind are known, unless more is said. -/
abbrev NodeKind.declares (id : String) (kind : DeclarationKind) (linkage : Linkage := .internal)
    (canonicalId : Option String := none) : NodeKind :=
  .declaration { id, linkage, canonicalId, kind }

/-- The type of values. -/
abbrev NodeKind.value (constness : Constness := .mutable) : NodeKind := .qualified (.value constness)

/-- The type of places, which can be assigned to. -/
abbrev NodeKind.place : NodeKind := .qualified (.place .mutable)

namespace Tree

/-- The tree that holds only an empty root. -/
def new : Tree := {}

/-- The tree of a list of rows, which give for each node its kind and the numbers of its children. An
empty slot has the number of the root, which is no child. -/
def ofRows (rows : List (NodeKind × List Nat)) : Tree where
  nodes := (rows.zipIdx.map fun (row, i) ↦
    { kind := row.1
      slots := row.2.map fun child ↦ if child = 0 then none else some ⟨child⟩
      parent := if i = 0 then none else (rows.findIdx? (·.2.contains i)).map NodeId.mk }).toArray

def root : NodeId := ⟨0⟩

def size (t : Tree) : Nat := t.nodes.size

def node (t : Tree) (n : NodeId) : Node := t.nodes[n.index]?.getD { kind := .root }

def kind (t : Tree) (n : NodeId) : NodeKind := (t.node n).kind

def parent (t : Tree) (n : NodeId) : Option NodeId := (t.node n).parent

/-- The child slots, empty ones included. -/
def slots (t : Tree) (n : NodeId) : List (Option NodeId) := (t.node n).slots

/-- The nodes in the child slots. -/
def children (t : Tree) (n : NodeId) : List NodeId := (t.slots n).filterMap id

/-- The node in a slot; none if the slot is empty or absent. -/
def child (t : Tree) (n : NodeId) (i : Nat) : Option NodeId := (t.slots n)[i]?.join

/-- The children of a category from a slot on. -/
def childrenFrom (t : Tree) (n : NodeId) (start : Nat) (category : NodeCategory) : List NodeId :=
  (((t.slots n).drop start).filterMap id).filter fun c ↦ (t.kind c).category == category

/-- The children of a category in a range of slots. Both ends are moved inside the slots;
an end before the start is out of range. -/
def childrenWithin (t : Tree) (n : NodeId) (start stop : Nat) (category : NodeCategory) :
    Except Fault (List NodeId) :=
  let count := (t.slots n).length
  let low := min start count
  let high := min stop count
  if low ≤ high then
    .ok (((((t.slots n).take high).drop low).filterMap id).filter fun c ↦ (t.kind c).category == category)
  else .error .outOfRange

def location (t : Tree) (n : NodeId) : Option Location := (t.node n).location

def declaration? (t : Tree) (n : NodeId) : Option Declaration := (t.kind n).declaration?

/-- The slot that holds a node, counted in its parent. -/
def slotIndex (t : Tree) (n : NodeId) : Option Nat :=
  (t.parent n).bind fun p ↦ (t.slots p).findIdx? (· == some n)

/-! ## Local updates -/

def modifyNode (t : Tree) (n : NodeId) (f : Node → Node) : Tree :=
  { t with nodes := t.nodes.modify n.index f }

def setParent (t : Tree) (n : NodeId) (p : Option NodeId) : Tree :=
  t.modifyNode n fun data ↦ { data with parent := p }

def setKind (t : Tree) (n : NodeId) (kind : NodeKind) : Tree :=
  t.modifyNode n fun data ↦ { data with kind }

def setSlots (t : Tree) (n : NodeId) (slots : List (Option NodeId)) : Tree :=
  t.modifyNode n fun data ↦ { data with slots }

def setComments (t : Tree) (n : NodeId) (comments : List String) : Tree :=
  t.modifyNode n fun data ↦ { data with comments }

/-- Changes the declaration at a node; other nodes stay as they are. -/
def modifyDeclaration (t : Tree) (n : NodeId) (f : Declaration → Declaration) : Tree :=
  match t.kind n with
  | .declaration d => t.setKind n (.declaration (f d))
  | _ => t

/-- Changes the type at a node; other nodes stay as they are. -/
def modifyType (t : Tree) (n : NodeId) (f : TypeData → TypeData) : Tree :=
  match t.kind n with
  | .type data => t.setKind n (.type (f data))
  | _ => t

/-! ## Findings -/

def addFinding (t : Tree) (n : NodeId) (finding : Finding) : Tree :=
  t.modifyNode n fun data ↦ { data with findings := data.findings ++ [finding] }

def addError (t : Tree) (n : NodeId) (message : String) (phase : Phase) : Tree :=
  t.addFinding n ⟨message, .error, phase⟩

def addWarning (t : Tree) (n : NodeId) (message : String) (phase : Phase) : Tree :=
  t.addFinding n ⟨message, .warning, phase⟩

/-- Adds one error per pair, in order. -/
def addErrors (t : Tree) (errors : List (NodeId × String)) (phase : Phase) : Tree :=
  errors.foldl (fun t (n, message) ↦ t.addError n message phase) t

/-! ## Scopes of nodes -/

def scopeOf (t : Tree) (n : NodeId) : Option ScopeId := (t.node n).scope

def scope (t : Tree) (s : ScopeId) : Scope := t.scopes[s.index]?.getD {}

/-- The scope at a node, made empty if there is none. -/
def openScope (t : Tree) (n : NodeId) : ScopeId × Tree :=
  match t.scopeOf n with
  | some s => (s, t)
  | none =>
    let s : ScopeId := ⟨t.scopes.size⟩
    (s, { t with scopes := t.scopes.push {} }.modifyNode n fun data ↦ { data with scope := some s })

def modifyScope (t : Tree) (s : ScopeId) (f : Scope → Scope) : Tree :=
  { t with scopes := t.scopes.modify s.index f }

/-- Lists declarations under IDs in the scope at a node. -/
def listInScope (t : Tree) (owner : NodeId) (entries : List (String × NodeId)) : Tree :=
  let (s, t) := t.openScope owner
  t.modifyScope s fun scope ↦ entries.foldl (fun scope (id, decl) ↦ scope.insert id decl) scope

/-- Forgets all scopes; their numbering starts anew. -/
def clearScopes (t : Tree) : Tree :=
  { t with nodes := t.nodes.map fun data ↦ { data with scope := none }, scopes := #[] }

end Tree

end ProtocolIR
