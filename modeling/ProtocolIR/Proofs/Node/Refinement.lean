import ProtocolIR.Node.Basic

/-!
# Facts that are written once

Some facts about a node become known only during resolution: what a name refers to, the canonical
ID of a declaration, the serialization and the ID of a type, the value and the enum of a label, the
owner and the prototype of a function. A kind of node *refines* another when it differs from it
only in that such facts have become known. Refinement is a partial order, and it can go on only as
long as there are gaps left to fill.
-/

namespace ProtocolIR

/-- What was known is still the case. -/
def Settled {α : Type} (a b : Option α) : Prop := ∀ x, a = some x → b = some x

/-- How many facts an optional fact lacks. -/
def missing {α : Type} (a : Option α) : Nat := if a.isNone then 1 else 0

namespace Settled

variable {α : Type} {a b c : Option α}

theorem refl (a : Option α) : Settled a a := fun _ h ↦ h

theorem trans (hab : Settled a b) (hbc : Settled b c) : Settled a c := fun x h ↦ hbc x (hab x h)

theorem of_none (b : Option α) : Settled none b := fun _ h ↦ by cases h

theorem missing_le (h : Settled a b) : missing b ≤ missing a := by
  cases a with
  | none => cases b <;> simp [missing]
  | some x => exact Nat.le_of_eq (by rw [h x rfl])

theorem eq_of_missing_eq (h : Settled a b) (heq : missing b = missing a) : a = b := by
  cases a with
  | some x => exact (h x rfl).symm
  | none =>
    cases b with
    | none => rfl
    | some y => simp [missing] at heq

end Settled

/-! ## Kinds of nodes -/

inductive DeclarationKind.Refines : DeclarationKind → DeclarationKind → Prop
  | same (k : DeclarationKind) : Refines k k
  | function {o o' p p' : Option Link} :
    Settled o o' → Settled p p' → Refines (.function o p) (.function o' p')
  | label {v v' : Option Int64} {isImplicit : Bool} {o o' : Option Link} :
    Settled v v' → Settled o o' → Refines (.label v isImplicit o) (.label v' isImplicit o')

inductive TypeShape.Refines : TypeShape → TypeShape → Prop
  | same (s : TypeShape) : Refines s s
  | name {id : QualifiedId} {r r' : Option Link} : Settled r r' → Refines (.name id r) (.name id r')

structure Declaration.Refines (d d' : Declaration) : Prop where
  id : d'.id = d.id
  linkage : d'.linkage = d.linkage
  canonicalId : Settled d.canonicalId d'.canonicalId
  kind : d.kind.Refines d'.kind

structure TypeData.Refines (data data' : TypeData) : Prop where
  shape : data.shape.Refines data'.shape
  wildcard : data'.wildcard = data.wildcard
  unification : Settled data.unification data'.unification
  typeId : Settled data.typeId data'.typeId

inductive NodeKind.Refines : NodeKind → NodeKind → Prop
  | same (k : NodeKind) : Refines k k
  | declaration {d d' : Declaration} : d.Refines d' → Refines (.declaration d) (.declaration d')
  | type {data data' : TypeData} : data.Refines data' → Refines (.type data) (.type data')
  | name {id : QualifiedId} {r r' : Option Link} :
    Settled r r' → Refines (.expression (.name id r)) (.expression (.name id r'))

def DeclarationKind.gaps : DeclarationKind → Nat
  | .function owner prototype => missing owner + missing prototype
  | .label value _ owner => missing value + missing owner
  | _ => 0

def TypeShape.gaps : TypeShape → Nat
  | .name _ resolved => missing resolved
  | _ => 0

/-- How many of the facts that a node of the kind may have are not known. -/
def NodeKind.gaps : NodeKind → Nat
  | .declaration d => missing d.canonicalId + d.kind.gaps
  | .type data => data.shape.gaps + missing data.unification + missing data.typeId
  | .expression (.name _ resolved) => missing resolved
  | _ => 0

namespace DeclarationKind.Refines

variable {k k' k'' : DeclarationKind}

theorem trans (h : Refines k k') (h' : Refines k' k'') : Refines k k'' := by
  cases h with
  | same => exact h'
  | function ho hp =>
    cases h' with
    | same => exact .function ho hp
    | function ho' hp' => exact .function (ho.trans ho') (hp.trans hp')
  | label hv ho =>
    cases h' with
    | same => exact .label hv ho
    | label hv' ho' => exact .label (hv.trans hv') (ho.trans ho')

theorem gaps_le (h : Refines k k') : k'.gaps ≤ k.gaps := by
  cases h with
  | same => exact Nat.le_refl _
  | function ho hp => exact Nat.add_le_add ho.missing_le hp.missing_le
  | label hv ho => exact Nat.add_le_add hv.missing_le ho.missing_le

theorem eq_of_gaps_eq (h : Refines k k') (heq : k'.gaps = k.gaps) : k = k' := by
  cases h with
  | same => rfl
  | function ho hp =>
    have hole := ho.missing_le
    have hple := hp.missing_le
    simp only [gaps] at heq
    rw [ho.eq_of_missing_eq (by omega), hp.eq_of_missing_eq (by omega)]
  | label hv ho =>
    have hvle := hv.missing_le
    have hole := ho.missing_le
    simp only [gaps] at heq
    rw [hv.eq_of_missing_eq (by omega), ho.eq_of_missing_eq (by omega)]

end DeclarationKind.Refines

namespace TypeShape.Refines

variable {s s' s'' : TypeShape}

theorem trans (h : Refines s s') (h' : Refines s' s'') : Refines s s'' := by
  cases h with
  | same => exact h'
  | name hr =>
    cases h' with
    | same => exact .name hr
    | name hr' => exact .name (hr.trans hr')

theorem gaps_le (h : Refines s s') : s'.gaps ≤ s.gaps := by
  cases h with
  | same => exact Nat.le_refl _
  | name hr => exact hr.missing_le

theorem eq_of_gaps_eq (h : Refines s s') (heq : s'.gaps = s.gaps) : s = s' := by
  cases h with
  | same => rfl
  | name hr => rw [hr.eq_of_missing_eq heq]

end TypeShape.Refines

namespace NodeKind.Refines

variable {k k' k'' : NodeKind}

theorem trans (h : Refines k k') (h' : Refines k' k'') : Refines k k'' := by
  cases h with
  | same => exact h'
  | declaration hd =>
    cases h' with
    | same => exact .declaration hd
    | declaration hd' =>
      exact .declaration ⟨hd'.id.trans hd.id, hd'.linkage.trans hd.linkage,
        hd.canonicalId.trans hd'.canonicalId, hd.kind.trans hd'.kind⟩
  | type ht =>
    cases h' with
    | same => exact .type ht
    | type ht' =>
      exact .type ⟨ht.shape.trans ht'.shape, ht'.wildcard.trans ht.wildcard,
        ht.unification.trans ht'.unification, ht.typeId.trans ht'.typeId⟩
  | name hr =>
    cases h' with
    | same => exact .name hr
    | name hr' => exact .name (hr.trans hr')

theorem gaps_le (h : Refines k k') : k'.gaps ≤ k.gaps := by
  cases h with
  | same => exact Nat.le_refl _
  | declaration hd => exact Nat.add_le_add hd.canonicalId.missing_le hd.kind.gaps_le
  | type ht =>
    exact Nat.add_le_add (Nat.add_le_add ht.shape.gaps_le ht.unification.missing_le)
      ht.typeId.missing_le
  | name hr => exact hr.missing_le

/-- A kind that has become another has fewer gaps. -/
theorem eq_of_gaps_eq (h : Refines k k') (heq : k'.gaps = k.gaps) : k = k' := by
  cases h with
  | same => rfl
  | @declaration d d' hd =>
    have hid := hd.canonicalId.missing_le
    have hkind := hd.kind.gaps_le
    simp only [gaps] at heq
    have hid' := hd.canonicalId.eq_of_missing_eq (by omega)
    have hkind' := hd.kind.eq_of_gaps_eq (by omega)
    obtain ⟨hname, hlinkage, -, -⟩ := hd
    cases d
    cases d'
    simp_all
  | @type data data' ht =>
    have hshape := ht.shape.gaps_le
    have huni := ht.unification.missing_le
    have hid := ht.typeId.missing_le
    simp only [gaps] at heq
    have hshape' := ht.shape.eq_of_gaps_eq (by omega)
    have huni' := ht.unification.eq_of_missing_eq (by omega)
    have hid' := ht.typeId.eq_of_missing_eq (by omega)
    obtain ⟨-, hwildcard, -, -⟩ := ht
    cases data
    cases data'
    simp_all
  | name hr => rw [hr.eq_of_missing_eq heq]

theorem antisymm (h : Refines k k') (h' : Refines k' k) : k = k' :=
  h.eq_of_gaps_eq (Nat.le_antisymm h.gaps_le h'.gaps_le)

end NodeKind.Refines

end ProtocolIR
