import ProtocolIR.Proofs.Tree.Typing
import ProtocolIR.Proofs.Unification.Structure

/-!
# Texts of units without a name

A unit type without a type ID is written by its members, and of a member only its declaration is
written. So the parameters of two units with the same text are the same, but of an item nothing is
seen except that something stands at its place, and of a single one not even that.
-/

namespace ProtocolIR

open List

namespace TypeText.OutlinePart

variable {p p' : OutlinePart String}

/-- A member of a unit: an item, of which nothing is written, or a parameter. -/
def IsMember {α : Type} (p : OutlinePart α) : Prop := p = .blank ∨ p.Named ∧ p.bracket = .curly

theorem Named.blank_append_ne (h : p.Named) {r r' : List Char} (hr : AtEnd r) :
    blank.text ++ r ≠ p.text ++ r' := by
  obtain ⟨c, y, htext, hc⟩ := h.begins
  rw [htext]
  rintro rfl
  rw [atEnd_cons.1 hr] at hc
  cases hc

/-- Nothing can be told from a parameter. -/
theorem unambiguous_of_isMember (hp : p.IsMember) (hp' : p'.IsMember)
    (htypes : ∀ type, p.type? = some type → IsText type)
    (htypes' : ∀ type, p'.type? = some type → IsText type) : Unambiguous text p p' := by
  obtain rfl | ⟨hnamed, hb⟩ := hp
  · obtain rfl | ⟨hnamed', -⟩ := hp'
    · exact fun r r' _ _ h ↦ ⟨rfl, h⟩
    · exact fun r r' hr _ h ↦ absurd h (hnamed'.blank_append_ne hr)
  · obtain rfl | ⟨hnamed', hb'⟩ := hp'
    · exact fun r r' _ hr' h ↦ absurd h.symm (hnamed.blank_append_ne hr')
    · refine unambiguous hnamed hnamed' (hb.trans hb'.symm) ?_ fun type h type' h' ↦
        (htypes type h).unambiguous (htypes' type' h')
      rintro type (h | h)
      · exact (htypes type h).lead
      · exact (htypes' type h).lead

end TypeText.OutlinePart

namespace Tree

open TypeText

variable {t : Tree} {a b u : NodeId} {x : String} {ps ps' : List (OutlinePart NodeId)}
  {ws ws' : List (OutlinePart String)}

/-- A unit type without a type ID, with its members in order. Names of parameters are words, and their
types are laid out as they should be. If a text is on record, the unit is written so. -/
structure AnonymousUnit (t : Tree) (u : NodeId) (ps : List (OutlinePart NodeId)) : Prop where
  kind_eq : ∃ record, t.kind u = .shaped .unit record ∧
    ∀ x ∈ record, serializeShape t (t.serializeWithin 31) u { shape := .unit } = some x
  members : (t.children u).mapM t.memberPart = some ps
  isMember : ∀ p ∈ ps, p.IsMember
  laidOut : ∀ p ∈ ps, ∀ m, p.type? = some m → t.LaidOut m

/-- The members by texts for the types of the parameters. -/
def MembersWritten (t : Tree) (ps : List (OutlinePart NodeId)) (ws : List (OutlinePart String)) : Prop :=
  List.Forall₂ (OutlinePart.Alike fun m x ↦ t.LaidOut m ∧ t.serializeWithin 31 m = some x) ps ws

theorem AnonymousUnit.exists_text (h : t.AnonymousUnit u ps) (hx : t.serialize u = some x) :
    ∃ ws, t.MembersWritten ps ws ∧
      x.toList = TypeCategory.unit.word.toList ++
        '\x7b' :: (joined ',' (ws.map OutlinePart.text) ++ ['\x7d']) := by
  obtain ⟨record, hkind, hrecord⟩ := h.kind_eq
  unfold serialize serializationDepth serializeWithin at hx
  simp only [unqualified, typeData?, hkind, Option.bind_eq_bind, Option.bind_some] at hx
  replace hx : serializeShape t (t.serializeWithin 31) u { shape := .unit } = some x := by
    cases record with
    | none => exact hx
    | some y => exact (hrecord y rfl).trans hx
  obtain ⟨o, ho, ⟨c, bracket, ws⟩, halike, htext⟩ := writesOutline_shape (.inr (by decide)) hx
  obtain rfl : (⟨.unit, some .curly, ps⟩ : Outline NodeId) = o := by
    simpa [outline, h.members, TypeShape.category] using ho
  obtain ⟨rfl, rfl, hparts⟩ := halike.mono fun p hp m x hm hx ↦ And.intro (h.laidOut p hp m hm) hx
  exact ⟨ws, hparts, htext⟩

theorem MembersWritten.isMember (h : t.MembersWritten ps ws) (hps : ∀ p ∈ ps, p.IsMember) :
    ∀ w ∈ ws, w.IsMember ∧ ∀ type, w.type? = some type → IsText type := by
  induction h with
  | nil => simp
  | @cons p w ps ws hhead _ ih =>
    rw [forall_mem_cons] at hps ⊢
    refine ⟨⟨?_, fun type htype ↦ ?_⟩, ih hps.2⟩
    · rcases hps.1 with rfl | ⟨hnamed, hb⟩
      · cases hhead
        exact .inl rfl
      · exact .inr ⟨hhead.named hnamed, hhead.bracket_eq ▸ hb⟩
    · obtain ⟨m, -, hm, hx⟩ := hhead.exists_type htype
      exact isText_of_serializeWithin hm hx

/-- Members that have the same text as no members are none, or a single item. -/
theorem MembersWritten.eq_blank (h : t.MembersWritten ps ws) (hws : ∀ w ∈ ws, w.IsMember)
    (hne : ws ≠ []) {r r' : List Char}
    (htext : joined ',' (ws.map OutlinePart.text) ++ '\x7d' :: r = '\x7d' :: r') : ps = [.blank] := by
  cases h with
  | nil => exact absurd rfl hne
  | @cons p w ps ws hhead htail =>
    rcases hws w mem_cons_self with rfl | ⟨hnamed, -⟩
    · cases hhead
      cases htail with
      | nil => rfl
      | cons => exact absurd (cons.inj htext).1 (by decide)
    · exact absurd htext (joined_append_ne hnamed.begins (by decide))

/-- Units of the same text have as many members, parameters at the same places with the same names
and types, and items at the others, unless one has no members and the other a single item. -/
theorem parameters_alike_of_typesEqual (ha : t.AnonymousUnit a ps) (hb : t.AnonymousUnit b ps')
    (hne : a ≠ b) (h : t.typesEqual a b = true) :
    List.Forall₂ (OutlinePart.Alike (SameStructure t t)) ps ps' ∨ ps ++ ps' = [.blank] := by
  rcases typesEqual_iff.1 h with ⟨u, hu, hu'⟩ | ⟨x, hx, hy⟩
  · obtain ⟨_, hkind, -⟩ := ha.kind_eq
    obtain ⟨_, hkind', -⟩ := hb.kind_eq
    rw [unqualified_of_type hkind] at hu
    rw [unqualified_of_type hkind'] at hu'
    exact absurd (Option.some.inj (hu.trans hu'.symm)) hne
  · obtain ⟨ws, hws, htext⟩ := ha.exists_text hx
    obtain ⟨ws', hws', htext'⟩ := hb.exists_text hy
    have htexts := (cons.inj (append_cancel_left (htext.symm.trans htext'))).2
    have hmember := hws.isMember ha.isMember
    have hmember' := hws'.isMember hb.isMember
    by_cases hnil : ws = [] ↔ ws' = []
    · obtain ⟨rfl, -⟩ := joined_append_inj ⟨by decide, by decide⟩ ⟨by decide, by decide⟩ hnil
        (fun w hw w' hw' ↦ OutlinePart.unambiguous_of_isMember (hmember w hw).1 (hmember' w' hw').1
          (hmember w hw).2 (hmember' w' hw').2) htexts
      left
      have halike : Outline.Alike _ ⟨.unit, some .curly, ps⟩ ⟨.unit, some .curly, ws⟩ := ⟨rfl, rfl, hws⟩
      have halike' : Outline.Alike _ ⟨.unit, some .curly, ps'⟩ ⟨.unit, some .curly, ws⟩ := ⟨rfl, rfl, hws'⟩
      refine ((halike.common halike').mono ?_).parts
      rintro p - m m' - ⟨x, ⟨hm, hx⟩, hm', hx'⟩
      exact sameStructure_of_serializeWithin hm hm' hx hx'
    · right
      cases hws with
      | nil => rw [hws'.eq_blank (fun w hw ↦ (hmember' w hw).1) (by simpa using hnil) htexts.symm]; rfl
      | cons hhead htail =>
        have hws : t.MembersWritten _ _ := .cons hhead htail
        cases hws' with
        | nil => rw [hws.eq_blank (fun w hw ↦ (hmember w hw).1) (by simp) htexts]; rfl
        | cons => exact absurd (by simp) hnil

/-- Four units: two with a parameter and an item each, one with a single item, one with nothing. -/
def indistinctUnits : Tree := .ofRows [
  (.root, []),
  (.shaped .bool, []),
  (.value .const, [1]),
  (.declares "p" (.parameter .input), [2]),
  (.shaped .unit, [3, 10]),
  (.shaped .bool, []),
  (.value .const, [5]),
  (.declares "p" (.parameter .input), [6]),
  (.shaped .unit, [7, 11]),
  (.shaped .unit, [12]),
  (.item (.sink "s"), []),
  (.item (.property "%debug"), []),
  (.item (.sink "s"), []),
  (.shaped .unit, [])]

theorem parameters_alike_indistinctUnits :
    List.Forall₂ (OutlinePart.Alike (SameStructure indistinctUnits indistinctUnits))
      [.field "p" .const ⟨1⟩, .blank] [.field "p" .const ⟨5⟩, .blank] := by
  have hlaid : ∀ n ∈ [⟨1⟩, ⟨5⟩], indistinctUnits.LaidOut n := by
    refine laidOut_of_closed ?_
    simp only [forall_mem_cons]
    refine ⟨⟨_, rfl, rfl, .inr ⟨_, rfl, nofun⟩⟩, ⟨_, rfl, rfl, .inr ⟨_, rfl, nofun⟩⟩, nofun⟩
  have hmembers : ∀ m : NodeId, ∀ p ∈ [OutlinePart.field "p" .const m, .blank], p.IsMember := by
    simp [OutlinePart.IsMember, OutlinePart.Named, OutlinePart.bracket, IsWord, Unmarked]
    decide
  refine (parameters_alike_of_typesEqual (t := indistinctUnits) (a := ⟨4⟩) (b := ⟨8⟩)
    ⟨⟨none, rfl, by simp⟩, rfl, hmembers ⟨1⟩, ?_⟩ ⟨⟨none, rfl, by simp⟩, rfl, hmembers ⟨5⟩, ?_⟩
    (by decide) (by decide +kernel)).resolve_right
    (fun h ↦ absurd (congrArg length h) (by decide))
  · simpa [OutlinePart.type?] using hlaid ⟨1⟩ (by decide)
  · simpa [OutlinePart.type?] using hlaid ⟨5⟩ (by decide)

/-- A sink is taken for a property, and a single item for nothing. -/
theorem typesEqual_indistinctUnits :
    (∀ u ∈ [⟨4⟩, ⟨8⟩, ⟨9⟩, ⟨13⟩], indistinctUnits.kind u = .type { shape := .unit } ∧
      indistinctUnits.isDeclared u = false) ∧
    indistinctUnits.typesEqual ⟨4⟩ ⟨8⟩ = true ∧ indistinctUnits.typesEqual ⟨9⟩ ⟨13⟩ = true ∧
    indistinctUnits.kind ⟨10⟩ = .item (.sink "s") ∧ indistinctUnits.kind ⟨11⟩ = .item (.property "%debug") ∧
    (indistinctUnits.children ⟨9⟩).length = 1 ∧ (indistinctUnits.children ⟨13⟩).length = 0 := by
  decide +kernel

end Tree

end ProtocolIR
