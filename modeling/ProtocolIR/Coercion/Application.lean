import ProtocolIR.Enumeration
import ProtocolIR.Session

/-!
# Carrying out coercions

A literal is replaced by one of the target type, any other expression is put into a conversion
that takes its slot. The target type written there is a detached copy of the wanted one.
-/

namespace ProtocolIR.Coercion

/-- A detached copy of a type as the type of a value. -/
def targetType (dst : NodeId) (constness : Constness) : Surgery NodeId := do
  let inner ← Surgery.typeReference (((← get).unqualified dst).getD dst)
  Surgery.create (.qualified (.value constness)) [some inner] ((← get).location dst)

/-- The ID of the first label of an enum that has a value. -/
def labelFor (t : Tree) (enumeration : Option NodeId) (value : Int64) : String :=
  let labels := (enumeration.toList.flatMap t.children).filterMap t.declaration?
  let isMatch (d : Declaration) : Bool :=
    match d.kind with
    | .label (some v) _ _ => v == value
    | _ => false
  ((labels.find? isMatch).map Declaration.id).getD undefLabel

/-- An unsigned word as a label value; a word too large for one stands for no label. -/
def labelValueOf (value : UInt64) : Int64 :=
  if value.toNat < Nat.pow 2 63 then value.toInt64 else undefValue

/-- The value of a literal as one of another type. -/
def convertLiteral (l : Literal) (target : TypeShape) : Literal :=
  match l, target with
  | .signed value _, .signed width => .signed value width
  | .signed value _, .unsigned width => .unsigned value.toUInt64 width
  | .unsigned value _, .unsigned width => .unsigned value width
  | .unsigned value _, .signed width => .signed value.toInt64 width
  | .signed value _, .real => .real (.ofInt value.toInt)
  | .unsigned value _, .real => .real (.ofNat value.toNat)
  | .signed value _, .bool => .bool (value != 0)
  | .unsigned value _, .bool => .bool (value != 0)
  | .null, .optional => .optional
  | l, _ => l

/-- The literal that takes the place of another in a followed target type. -/
def retypedLiteral (t : Tree) (l : Literal) (followed : Option NodeId) (target : TypeShape) : Literal :=
  match l, target with
  | .signed value _, .enumeration => .enumeration (labelFor t followed value)
  | .unsigned value _, .enumeration => .enumeration (labelFor t followed (labelValueOf value))
  | l, target => convertLiteral l target

/-- Whether a literal has to be put into an optional to be of an optional type. -/
def needsOptional (l : Literal) (target : TypeShape) : Bool :=
  target == .optional &&
    match l with
    | .null | .optional => false
    | _ => true

def retypeWithin : Nat → NodeId → NodeId → Surgery NodeId
  | 0, _, _ => throw .endless
  | fuel + 1, old, dst => do
    let t ← get
    let some l := t.literal? old | throw (.notLiteral old)
    let followed := t.follow dst
    let target := (followed.bind t.shape?).getD .unknown
    let location := t.location old
    if needsOptional l target then
      let inner ←
        match followed.bind fun d ↦ t.child d 0 with
        | some element =>
          if (t.child old 0).any fun type ↦ t.typesEqual type element then Surgery.copy old
          else retypeWithin fuel old element
        | none => Surgery.copy old
      let value ← Surgery.create (.expression .literal) [some inner] location
      let type ← targetType dst .const
      Surgery.create (.literal .optional) [some type, some value] location
    else
      let type ← targetType dst .const
      Surgery.create (.literal (retypedLiteral t l followed target)) [some type] location

/-- A new literal with the value of an old one and another type. Optionals inside a type that
ends are no more than the tree has nodes. -/
def retypeLiteral (old dst : NodeId) : Surgery NodeId := do
  retypeWithin ((← get).size + 1) old dst

/-- Carries out a coercion of an expression, reported on a stream; gives the expression now in
its slot. -/
def apply (stream : Stream) (e dst : NodeId) : Coercion → Pass NodeId
  | .unchanged => return e
  | .retype => do
    match (← Pass.tree).child e 0 with
    | none => return e
    | some old =>
      let l ← retypeLiteral old dst
      let new ← Surgery.create (.expression .literal) [some l] ((← Pass.tree).location e)
      Pass.replaceNode stream e new "coerced literal"
      return new
  | .wrap => do
    let t ← Pass.tree
    match t.parent e, t.slotIndex e with
    | some parent, some index =>
      let target ← targetType dst .mutable
      Surgery.setChild parent index none
      let coerced ← Surgery.create (.expression .coerced) [some e, some target] (t.location e)
      Surgery.setChild parent index (some coerced)
      Pass.recordChangeTo stream e coerced "coerced expression"
      return coerced
    | _, _ => throw (.wrapDetached e)

/-- Coerces the expression in a slot, if that is needed and possible, and says whether it was. -/
def coerceSlot (conversions : List Conversions) (stream : Stream) (parent : NodeId) (index : Nat)
    (dst : NodeId) (style : Style) : Pass Bool := do
  let t ← Pass.tree
  match (t.child parent index).filter fun e ↦ (t.kind e).isExpression with
  | none => return false
  | some e =>
    match coerceExpression conversions t e dst style with
    | .ok .unchanged | .error _ => return false
    | .ok coercion =>
      discard (apply stream e dst coercion)
      return true

end ProtocolIR.Coercion
