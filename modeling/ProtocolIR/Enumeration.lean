import ProtocolIR.Workspace

/-!
# Enums

A label without a value is numbered after the label before it, starting at 0. Every enum has
the label `Undef` for values that no other label stands for; where it is missing it is added
with the value -1, as an implicit label. Labels know the declaration of their enum once that
has a canonical ID.
-/

namespace ProtocolIR

/-- The label for integers that no other label of an enum stands for. -/
def undefLabel : String := "Undef"

def undefValue : Int64 := -1

namespace Tree

def isLabel (t : Tree) (n : NodeId) : Bool :=
  match (t.declaration? n).map Declaration.kind with
  | some (.label ..) => true
  | _ => false

def labels (t : Tree) (n : NodeId) : List NodeId := (t.childrenFrom n 0 .declaration).filter t.isLabel

def labelValue (t : Tree) (n : NodeId) : Option Int64 :=
  match (t.declaration? n).map Declaration.kind with
  | some (.label value _ _) => value
  | _ => none

/-- The first of each group of labels with one value, given the values met before. -/
def firstOfEachValue (t : Tree) : List (Option Int64) → List NodeId → List NodeId
  | _, [] => []
  | seen, n :: rest =>
    if t.labelValue n ∈ seen then t.firstOfEachValue seen rest
    else n :: t.firstOfEachValue (t.labelValue n :: seen) rest

/-- The labels of an enum, the first one for each value. -/
def uniqueLabels (t : Tree) (n : NodeId) : List NodeId := t.firstOfEachValue [] (t.labels n)

def labelIds (t : Tree) (n : NodeId) : List String :=
  (t.labels n).filterMap fun l ↦ (t.declaration? l).map Declaration.id

/-- The declaration of an enum type, once it has a canonical ID. -/
def enumOwner (t : Tree) (n : NodeId) : Option NodeId :=
  ((t.parent n).bind t.parent).filter fun d ↦
    t.declaredType d == some n && (t.declaration? d).any fun d ↦ d.canonicalId.isSome

end Tree

namespace Enumeration

/-- The value after another. -/
def successor (value : Int64) : Except Fault Int64 :=
  if value = Int64.maxValue then .error .overflow else .ok (value + 1)

/-- How far an enum is numbered: the value of the last label that counts, whether there is a
label for undefined values, and whether anything was changed. -/
structure Progress where
  previous : Int64 := undefValue
  hasUndef : Bool := false
  changed : Bool := false
  deriving Inhabited

/-- The value of a label and the value to count on from. Implicit labels do not count. -/
def number (previous : Int64) (value : Option Int64) (isImplicit : Bool) :
    Except Fault (Option Int64 × Int64) :=
  if isImplicit then .ok (value, previous)
  else
    match value with
    | some v => .ok (some v, v)
    | none => do
      let v ← successor previous
      return (some v, v)

/-- Numbers one label and links it to the declaration of its enum. -/
def normalizeLabel (owner : Option Link) (progress : Progress) (n : NodeId) : Pass Progress := do
  match (← Pass.tree).declaration? n with
  | some d =>
    match d.kind with
    | .label value isImplicit link =>
      let (newValue, previous) ← number progress.previous value isImplicit
      let newLink := link.or owner
      Pass.modifyTree fun t ↦ t.setKind n (.declaration { d with kind := .label newValue isImplicit newLink })
      if newValue ≠ value then
        Pass.recordChange .normalizer n ("numbered " ++ toString previous.toInt)
      if newLink ≠ link then
        Pass.recordChange .normalizer n "linked to enum"
      return {
        previous
        hasUndef := progress.hasUndef || isImplicit || d.id == undefLabel
        changed := progress.changed || newValue ≠ value || newLink ≠ link }
    | _ => return progress
  | none => return progress

def addUndef (n : NodeId) : Pass Unit := do
  let location := (← Pass.tree).location n
  let undef ← (Build.label undefLabel (some undefValue) true).runAt location
  Surgery.addChild n (some undef)
  Pass.recordChange .normalizer n "added implicit Undef label"

def normalizeEnum (n : NodeId) : Pass Bool := do
  let t ← Pass.tree
  let owner := (t.enumOwner n).map t.linkTo
  let progress ← (t.labels n).foldlM (normalizeLabel owner) {}
  if progress.hasUndef then return progress.changed
  else
    addUndef n
    return true

/-- Normalizes the enums beneath a node and says whether anything changed. -/
def normalize (start : NodeId) : Pass Bool :=
  Pass.sweep .pre start fun n ↦ do
    if (← Pass.tree).shape? n == some .enumeration then normalizeEnum n else return false

end Enumeration

end ProtocolIR
