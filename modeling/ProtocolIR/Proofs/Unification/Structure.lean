import Mathlib.Data.List.Forall2
import ProtocolIR.Unification
import ProtocolIR.Proofs.Unification.Reading

/-!
# Texts tell structures apart

What a type is made of is its outline: its parts in order, with the types in them. A type without
recorded texts is written by its outline. So two types whose parts are laid out as they should be,
with words for names, have the same structure if they have the same text, in one tree or in two.

Of a wildcard nothing but its category is written. The type around the iterator of a list is not
written either, only the element type with its own constness.
-/

namespace ProtocolIR

open List Option Bool

section Lists

variable {α β γ : Type} {r : α → β → Prop} {l : List α} {l' : List β}

theorem forall₂_comp {r' : β → γ → Prop} {s : α → γ → Prop} {l'' : List γ}
    (h : ∀ a b c, r a b → r' b c → s a c) (hl : List.Forall₂ r l l')
    (hl' : List.Forall₂ r' l' l'') : List.Forall₂ s l l'' := by
  induction hl generalizing l'' with
  | nil =>
    cases hl'
    exact .nil
  | cons hr _ ih =>
    cases hl' with
    | cons hr' htail => exact .cons (h _ _ _ hr hr') (ih htail)

theorem exists_mem_of_forall₂ {a : α} (h : List.Forall₂ r l l') (ha : a ∈ l) : ∃ b ∈ l', r a b := by
  induction h with
  | nil => cases ha
  | @cons c d _ _ hcd _ ih =>
    rcases mem_cons.1 ha with rfl | ha
    · exact ⟨d, mem_cons_self, hcd⟩
    · obtain ⟨b, hb, hab⟩ := ih ha
      exact ⟨b, mem_cons_of_mem d hb, hab⟩

theorem exists_mem_of_mem_forall₂ {b : β} (h : List.Forall₂ r l l') (hb : b ∈ l') : ∃ a ∈ l, r a b :=
  exists_mem_of_forall₂ h.flip hb

theorem forall₂_of_mapM_eq_some {f : α → Option β} (h : l.mapM f = some l') :
    List.Forall₂ (fun a b ↦ f a = some b) l l' := by
  induction l generalizing l' with
  | nil =>
    cases h
    exact .nil
  | cons a l ih =>
    rw [mapM_cons] at h
    obtain ⟨b, hb, h⟩ := bind_eq_some_iff.1 h
    obtain ⟨bs, hbs, h⟩ := bind_eq_some_iff.1 h
    cases h
    exact .cons hb (ih hbs)

end Lists

namespace TypeText

/-! ## Parts and outlines that correspond -/

/-- The same part, up to related types in it. -/
inductive OutlinePart.Alike {α β : Type} (r : α → β → Prop) :
    OutlinePart α → OutlinePart β → Prop where
  | any : Alike r .any .any
  | width (bits : Nat) : Alike r (.width bits) (.width bits)
  | symbol (id : String) : Alike r (.symbol id) (.symbol id)
  | element (q : Constness) {a : α} {b : β} : r a b → Alike r (.element q a) (.element q b)
  | typeId (id : String) : Alike r (.typeId id) (.typeId id)
  | label (id : String) (value : Int) : Alike r (.label id value) (.label id value)
  | field (id : String) (q : Constness) {a : α} {b : β} : r a b →
    Alike r (.field id q a) (.field id q b)
  | bare {a : α} {b : β} : r a b → Alike r (.bare a) (.bare b)
  | bareField (id : String) {a : α} {b : β} : r a b → Alike r (.bareField id a) (.bareField id b)
  | blank : Alike r .blank .blank

/-- The same category, and the same parts one by one. -/
structure Outline.Alike {α β : Type} (r : α → β → Prop) (o : Outline α) (o' : Outline β) : Prop where
  category : o.category = o'.category
  bracket : o.bracket = o'.bracket
  parts : List.Forall₂ (OutlinePart.Alike r) o.parts o'.parts

variable {α β γ : Type} {r : α → γ → Prop} {r' : β → γ → Prop} {p : OutlinePart α}
  {p' : OutlinePart γ} {s : α → γ → Prop}

theorem OutlinePart.Alike.named (h : p.Alike r p') (hp : p.Named) : p'.Named := by
  cases h <;> exact hp

theorem OutlinePart.Alike.bracket_eq (h : p.Alike r p') : p.bracket = p'.bracket := by
  cases h <;> rfl

theorem OutlinePart.Alike.eq_any_iff (h : p.Alike r p') : p = .any ↔ p' = .any := by
  cases h <;> simp

theorem OutlinePart.Alike.exists_type (h : p.Alike r p') {b : γ}
    (hb : p'.type? = some b) : ∃ a, p.type? = some a ∧ r a b := by
  cases h with
  | element _ hr | field _ _ hr | bare hr | bareField _ hr =>
    cases hb
    exact ⟨_, rfl, hr⟩
  | _ => cases hb

theorem OutlinePart.Alike.mono
    (hrs : ∀ a b, p.type? = some a → r a b → s a b) (h : p.Alike r p') : p.Alike s p' := by
  cases h with
  | element q hr => exact .element q (hrs _ _ rfl hr)
  | field id q hr => exact .field id q (hrs _ _ rfl hr)
  | bare hr => exact .bare (hrs _ _ rfl hr)
  | bareField id hr => exact .bareField id (hrs _ _ rfl hr)
  | _ => constructor

theorem OutlinePart.Alike.swap (h : p.Alike r p') : p'.Alike (flip r) p := by
  cases h with
  | element q hr => exact .element q hr
  | field id q hr => exact .field id q hr
  | bare hr => exact .bare hr
  | bareField id hr => exact .bareField id hr
  | _ => constructor

theorem OutlinePart.Alike.eq {p' : OutlinePart α} (h : p.Alike (· = ·) p') : p = p' := by
  cases h with
  | element _ hr | field _ _ hr | bare hr | bareField _ hr => rw [hr]
  | _ => rfl

/-- Two parts that are alike to a third one. -/
theorem OutlinePart.Alike.common {q : OutlinePart β} (h : p.Alike r p')
    (h' : q.Alike r' p') : p.Alike (fun a b ↦ ∃ c, r a c ∧ r' b c) q := by
  cases h with
  | element q hr => cases h' with | element _ hr' => exact .element q ⟨_, hr, hr'⟩
  | field id q hr => cases h' with | field _ _ hr' => exact .field id q ⟨_, hr, hr'⟩
  | bare hr => cases h' with | bare hr' => exact .bare ⟨_, hr, hr'⟩
  | bareField id hr => cases h' with | bareField _ hr' => exact .bareField id ⟨_, hr, hr'⟩
  | _ => cases h'; constructor

namespace Outline.Alike

variable {o : Outline α} {o' : Outline γ}

section

variable (h : o.Alike r o')

include h

theorem exists_part (hp' : p' ∈ o'.parts) : ∃ p ∈ o.parts, p.Alike r p' :=
  exists_mem_of_mem_forall₂ h.parts hp'

theorem any_mem_iff : .any ∈ o.parts ↔ .any ∈ o'.parts := by
  constructor
  · intro hany
    obtain ⟨p', hp', halike⟩ := exists_mem_of_forall₂ h.parts hany
    exact halike.eq_any_iff.1 rfl ▸ hp'
  · intro hany
    obtain ⟨p, hp, halike⟩ := h.exists_part hany
    exact halike.eq_any_iff.2 rfl ▸ hp

theorem proper (ho : o.Proper) : o'.Proper where
  named p' hp' := by
    obtain ⟨p, hp, halike⟩ := h.exists_part hp'
    exact halike.named (ho.named p hp)
  bracketed p' hp' := by
    obtain ⟨p, hp, halike⟩ := h.exists_part hp'
    rw [← h.bracket, ho.bracketed p hp, halike.bracket_eq]

theorem swap : o'.Alike (flip r) o where
  category := h.category.symm
  bracket := h.bracket.symm
  parts := List.Forall₂.flip (h.parts.imp fun _ _ hpart ↦ hpart.swap)

theorem common {q : Outline β} (h' : q.Alike r' o') :
    o.Alike (fun a b ↦ ∃ c, r a c ∧ r' b c) q where
  category := h.category.trans h'.category.symm
  bracket := h.bracket.trans h'.bracket.symm
  parts := forall₂_comp (fun _ _ _ hpart hpart' ↦ hpart.common hpart') h.parts h'.parts.flip

theorem mono (hrs : ∀ p ∈ o.parts, ∀ a b, p.type? = some a → r a b → s a b) : o.Alike s o' where
  category := h.category
  bracket := h.bracket
  parts := ((forall₂_and_left ..).2 ⟨hrs, h.parts⟩).imp fun _ _ hpart ↦ hpart.2.mono hpart.1

end

theorem eq {o o' : Outline α} (h : o.Alike (· = ·) o') : o = o' := by
  obtain ⟨c, b, ps⟩ := o
  obtain ⟨c', b', ps'⟩ := o'
  obtain ⟨rfl, rfl, hparts⟩ := h
  have heq : ps = ps' := by
    rw [← forall₂_eq_eq_eq]
    exact hparts.imp fun _ _ hpart ↦ hpart.eq
  rw [heq]

end Outline.Alike

end TypeText

namespace Tree

open TypeText

/-! ## Outlines of types in a tree -/

variable (t : Tree) {p : OutlinePart NodeId} {o : Outline NodeId} {d : Declaration}
  {l : List NodeId}

/-- A part for a type, which should be qualified. -/
def typePart (part : Constness → NodeId → OutlinePart NodeId) (bare : NodeId → OutlinePart NodeId)
    (n : NodeId) :
    Option (OutlinePart NodeId) :=
  match t.qualifiers? n with
  | some q => (t.child n 0).map (part q.constness)
  | none => some (bare n)

def elementPart : NodeId → Option (OutlinePart NodeId) := t.typePart .element .bare

/-- A parameter by its type, a result as it is. -/
def signaturePart (n : NodeId) : Option (OutlinePart NodeId) :=
  match t.kind n with
  | .declaration _ => (t.child n 0).bind t.elementPart
  | _ => t.elementPart n

def fieldPart (id : String) : NodeId → Option (OutlinePart NodeId) :=
  t.typePart (.field id) (.bareField id)

/-- A member, which should be a label or another declaration. A label without a value counts as one
with the value -1. -/
def memberPart (n : NodeId) : Option (OutlinePart NodeId) :=
  match t.declaration? n with
  | none => some .blank
  | some d =>
    match d.kind with
    | .label value _ _ => some (.label d.id ((value.map Int64.toInt).getD (-1)))
    | _ => (t.child n 0).bind (t.fieldPart d.id)

/-- What a type is made of. There is no outline of what stands for another type and of what is not
known yet. -/
def outline (u : NodeId) (data : TypeData) : Option (Outline NodeId) :=
  let category := data.shape.category
  if data.wildcard then some ⟨category, some .angle, [.any]⟩
  else
    match data.shape with
    | .auto | .unknown | .name .. => none
    | .signed width | .unsigned width => some ⟨category, some .angle, [.width width]⟩
    | .library id | .member id => some ⟨category, some .round, [.symbol id]⟩
    | .list => do return ⟨category, some .round, [← t.elementPart (← t.elementType u)]⟩
    | .iterator | .optional | .result | .strongRef | .weakRef | .valueRef | .typeOf => do
      return ⟨category, some .round, [← t.elementPart (← t.child u 0)]⟩
    | .tuple => do return ⟨category, some .round, ← (t.children u).mapM t.elementPart⟩
    | .function => do return ⟨category, some .round, ← (t.children u).mapM t.signaturePart⟩
    | .enumeration | .struct | .union | .unit =>
      match data.typeId with
      | some id => some ⟨category, some .curly, [.typeId id]⟩
      | none => do return ⟨category, some .curly, ← (t.children u).mapM t.memberPart⟩
    | _ => some ⟨category, none, []⟩

/-- The type that is meant by a type: a name stands for what it is resolved to, unless it is a
wildcard. -/
inductive Stands : NodeId → NodeId → TypeData → Prop where
  | itself {n u : NodeId} {data : TypeData} : t.unqualified n = some u →
    t.typeData? u = some data → (data.wildcard = true ∨ data.shape.category ≠ .name) →
    Stands n u data
  | name {n u m v : NodeId} {data data' : TypeData} {id : QualifiedId} {resolved : Option Link} :
    t.unqualified n = some u → t.typeData? u = some data → data.wildcard = false →
    data.shape = .name id resolved → t.linkedType resolved = some m → Stands m v data' →
    Stands n v data'

/-- A type that is met in what a type is made of, itself included. -/
inductive Contains : NodeId → NodeId → TypeData → Prop where
  | itself {n u : NodeId} {data : TypeData} : t.unqualified n = some u →
    t.typeData? u = some data → Contains n u data
  | name {n u m v : NodeId} {data data' : TypeData} {id : QualifiedId} {resolved : Option Link} :
    t.unqualified n = some u → t.typeData? u = some data → data.wildcard = false →
    data.shape = .name id resolved → t.linkedType resolved = some m → Contains m v data' →
    Contains n v data'
  | part {n u m v : NodeId} {data data' : TypeData} {o : Outline NodeId} {p : OutlinePart NodeId} :
    t.unqualified n = some u → t.typeData? u = some data → t.outline u data = some o →
    p ∈ o.parts → p.type? = some m → Contains m v data' → Contains n v data'

/-- A type without recorded texts in which all outlines have qualified types and words for names. -/
def LaidOut (n : NodeId) : Prop :=
  ∀ u data, t.Contains n u data →
    data.unification = none ∧ ∀ o, t.outline u data = some o → ∀ p ∈ o.parts, p.Named

/-- Two types have the same structure if what they stand for has the same category and wildcard
flag and is made of the same parts in order, with types of the same structure in them. -/
inductive SameStructure (t t' : Tree) : NodeId → NodeId → Prop where
  | intro {a b u v : NodeId} {data data' : TypeData} {o o' : Outline NodeId} :
    t.Stands a u data → t'.Stands b v data' →
    data.shape.category = data'.shape.category → data.wildcard = data'.wildcard →
    t.outline u data = some o → t'.outline v data' = some o' →
    List.Forall₂ (OutlinePart.Alike (SameStructure t t')) o.parts o'.parts → SameStructure t t' a b

/-! ## Outlines and shapes -/

variable {t} {n u : NodeId} {data : TypeData} {f : NodeId → Option (OutlinePart NodeId)}
  {ps : List (OutlinePart NodeId)}

theorem typePart_cases {part : Constness → NodeId → OutlinePart NodeId}
    {bare : NodeId → OutlinePart NodeId} (h : t.typePart part bare n = some p) :
    (∃ q m, t.qualifiers? n = some q ∧ t.child n 0 = some m ∧ p = part q.constness m) ∨
      t.qualifiers? n = none ∧ p = bare n := by
  unfold typePart at h
  split at h
  next q hq =>
    obtain ⟨m, hm, rfl⟩ := map_eq_some_iff.1 h
    exact .inl ⟨q, m, hq, hm, rfl⟩
  next hq =>
    cases h
    exact .inr ⟨hq, rfl⟩

theorem signaturePart_of_declaration (h : t.kind n = .declaration d) :
    t.signaturePart n = (t.child n 0).bind t.elementPart := by
  unfold signaturePart
  rw [h]

theorem signaturePart_of_not_declaration (h : ∀ d, t.kind n ≠ .declaration d) :
    t.signaturePart n = t.elementPart n := by
  unfold signaturePart
  split
  next d hkind => exact absurd hkind (h d)
  · rfl

theorem memberPart_of_none (h : t.declaration? n = none) : t.memberPart n = some .blank := by
  unfold memberPart
  rw [h]

theorem memberPart_of_label {value : Option Int64} {isImplicit : Bool}
    {owner : Option Link} (h : t.declaration? n = some d)
    (hd : d.kind = .label value isImplicit owner) :
    t.memberPart n = some (.label d.id ((value.map Int64.toInt).getD (-1))) := by
  simp only [memberPart, h, hd]

theorem memberPart_of_field (h : t.declaration? n = some d)
    (hd : ∀ value isImplicit owner, d.kind ≠ .label value isImplicit owner) :
    t.memberPart n = (t.child n 0).bind (t.fieldPart d.id) := by
  unfold memberPart
  rw [h]
  dsimp only
  split
  next hlabel => exact absurd hlabel (hd _ _ _)
  · rfl

theorem bracket_of_elementPart (h : t.elementPart n = some p) : p ≠ .any ∧ p.bracket = .round := by
  obtain ⟨q, m, -, -, rfl⟩ | ⟨-, rfl⟩ := typePart_cases h <;> exact ⟨nofun, rfl⟩

theorem bracket_of_signaturePart (h : t.signaturePart n = some p) :
    p ≠ .any ∧ p.bracket = .round := by
  unfold signaturePart at h
  split at h
  · obtain ⟨m, -, h⟩ := bind_eq_some_iff.1 h
    exact bracket_of_elementPart h
  · exact bracket_of_elementPart h

theorem bracket_of_memberPart (h : t.memberPart n = some p) : p ≠ .any ∧ p.bracket = .curly := by
  unfold memberPart at h
  split at h
  · cases h
    exact ⟨nofun, rfl⟩
  next d _ =>
    split at h
    · cases h
      exact ⟨nofun, rfl⟩
    · obtain ⟨m, -, h⟩ := bind_eq_some_iff.1 h
      obtain ⟨q, m, -, -, rfl⟩ | ⟨-, rfl⟩ := typePart_cases h <;> exact ⟨nofun, rfl⟩

theorem bracket_of_mapM {b : Bracket} (hf : ∀ n p, f n = some p → p ≠ .any ∧ p.bracket = b)
    (h : l.mapM f = some ps) : ∀ p ∈ ps, p ≠ .any ∧ some b = some p.bracket := by
  intro p hp
  obtain ⟨n, -, hn⟩ := exists_mem_of_mem_forall₂ (forall₂_of_mapM_eq_some h) hp
  exact ⟨(hf n p hn).1, congrArg some (hf n p hn).2.symm⟩

/-- An outline has the category of the shape; only that of a wildcard says that it is one, and
the parts stand in their own brackets. -/
theorem outline_cases (h : t.outline u data = some o) :
    o.category = data.shape.category ∧ (data.wildcard = true → o.parts = [.any]) ∧
      (data.wildcard = false → ∀ p ∈ o.parts, p ≠ .any) ∧
      ∀ p ∈ o.parts, o.bracket = some p.bracket := by
  have hone {c : TypeCategory} {n : Option NodeId} {o : Outline NodeId}
      (h : (do return ⟨c, some .round, [← t.elementPart (← n)]⟩) = some o) :
      o.category = c ∧ ∀ p ∈ o.parts, p ≠ .any ∧ o.bracket = some p.bracket := by
    obtain ⟨m, -, h⟩ := bind_eq_some_iff.1 h
    obtain ⟨p, hp, h⟩ := bind_eq_some_iff.1 h
    cases h
    refine ⟨rfl, forall_mem_singleton.2 ⟨(bracket_of_elementPart hp).1, ?_⟩⟩
    exact congrArg some (bracket_of_elementPart hp).2.symm
  obtain ⟨shape, wildcard, unification, typeId⟩ := data
  cases wildcard with
  | true =>
    cases h
    exact ⟨rfl, fun _ ↦ rfl, nofun, forall_mem_singleton.2 rfl⟩
  | false =>
    suffices hparts : o.category = shape.category ∧
        ∀ p ∈ o.parts, p ≠ .any ∧ o.bracket = some p.bracket from
      ⟨hparts.1, nofun, fun _ p hp ↦ (hparts.2 p hp).1, fun p hp ↦ (hparts.2 p hp).2⟩
    cases shape with
    | auto | unknown | name => cases h
    | signed | unsigned | library | member =>
      cases h
      exact ⟨rfl, forall_mem_singleton.2 ⟨nofun, rfl⟩⟩
    | list | iterator | optional | result | strongRef | weakRef | valueRef | typeOf => exact hone h
    | tuple =>
      obtain ⟨ps, hps, h⟩ := bind_eq_some_iff.1 h
      cases h
      exact ⟨rfl, bracket_of_mapM (fun _ _ ↦ bracket_of_elementPart) hps⟩
    | function =>
      obtain ⟨ps, hps, h⟩ := bind_eq_some_iff.1 h
      cases h
      exact ⟨rfl, bracket_of_mapM (fun _ _ ↦ bracket_of_signaturePart) hps⟩
    | enumeration | struct | union | unit =>
      cases typeId with
      | some id =>
        cases h
        exact ⟨rfl, forall_mem_singleton.2 ⟨nofun, rfl⟩⟩
      | none =>
        obtain ⟨ps, hps, h⟩ := bind_eq_some_iff.1 h
        cases h
        exact ⟨rfl, bracket_of_mapM (fun _ _ ↦ bracket_of_memberPart) hps⟩
    | _ =>
      cases h
      exact ⟨rfl, nofun⟩

/-! ## Texts of outlines -/

section

attribute [local simp] joined OutlinePart.text OutlinePart.lead OutlinePart.rest Bracket.opening Bracket.closing

variable {write : NodeId → Option String} {x : String} {c : TypeCategory}

/-- A text is that of a part, with texts for the types in it. -/
def WritesPart (write : NodeId → Option String) (p : OutlinePart NodeId) (x : String) : Prop :=
  ∃ p' : OutlinePart String, p.Alike (fun m s ↦ write m = some s) p' ∧ x.toList = p'.text

theorem writesPart_element (hx : serializeQualifiedWith t write n = some x) :
    ∃ p, t.elementPart n = some p ∧ WritesPart write p x := by
  unfold serializeQualifiedWith at hx
  split at hx
  next hq =>
    refine ⟨.bare n, by simp [elementPart, typePart, hq], .bare x, .bare hx, ?_⟩
    simp
  next q hq =>
    obtain ⟨m, hm, hx⟩ := bind_eq_some_iff.1 hx
    obtain ⟨s, hs, hx⟩ := bind_eq_some_iff.1 hx
    cases hx
    refine ⟨.element q.constness m, by simp [elementPart, typePart, hq, hm], .element q.constness s,
      .element _ hs, ?_⟩
    obtain ⟨constness, side⟩ := q
    cases constness <;> simp [Qualifiers.isConst, constnessMark]

theorem writesPart_signature (hx : serializeSignaturePart t write n = some x) :
    ∃ p, t.signaturePart n = some p ∧ WritesPart write p x := by
  unfold serializeSignaturePart at hx
  split at hx
  next d hkind =>
    obtain ⟨m, hm, hx⟩ := bind_eq_some_iff.1 hx
    rw [signaturePart_of_declaration hkind, hm]
    exact writesPart_element hx
  next hkind =>
    rw [signaturePart_of_not_declaration hkind]
    exact writesPart_element hx

theorem writesPart_field {id : String} {y : String}
    (hy : serializeQualifiedWith t write n = some y) :
    ∃ p, t.fieldPart id n = some p ∧ WritesPart write p (id ++ ":" ++ y) := by
  obtain ⟨p, hp, p', halike, htext⟩ := writesPart_element hy
  obtain ⟨q, m, hq, hm, rfl⟩ | ⟨hq, rfl⟩ := typePart_cases hp
  · cases halike with
    | element _ hs =>
      refine ⟨.field id q.constness m, by simp [fieldPart, typePart, hq, hm], .field id q.constness _,
        .field _ _ hs, ?_⟩
      simp [htext]
  · cases halike with
    | bare hs =>
      refine ⟨.bareField id n, by simp [fieldPart, typePart, hq], .bareField id _, .bareField _ hs, ?_⟩
      simp [htext]

theorem writesPart_member (hx : serializeMember t write n = some x) :
    ∃ p, t.memberPart n = some p ∧ WritesPart write p x := by
  unfold serializeMember at hx
  split at hx
  next hd =>
    cases hx
    exact ⟨_, memberPart_of_none hd, .blank, .blank, rfl⟩
  next d hd =>
    split at hx
    next hlabel =>
      cases hx
      refine ⟨_, memberPart_of_label hd hlabel, .label d.id _, .label _ _, ?_⟩
      simp
    next hfield =>
      obtain ⟨m, hm, hx⟩ := bind_eq_some_iff.1 hx
      obtain ⟨y, hy, hx⟩ := bind_eq_some_iff.1 hx
      cases hx
      rw [memberPart_of_field hd hfield, hm]
      exact writesPart_field hy

theorem writesPart_mapM {g : NodeId → Option String}
    (hfg : ∀ n x, g n = some x → ∃ p, f n = some p ∧ WritesPart write p x) {l : List NodeId}
    {xs : List String} (hg : l.mapM g = some xs) :
    ∃ ps, l.mapM f = some ps ∧ ∃ ps',
      List.Forall₂ (OutlinePart.Alike fun m s ↦ write m = some s) ps ps' ∧
        xs.map String.toList = ps'.map OutlinePart.text := by
  have hxs := forall₂_of_mapM_eq_some hg
  clear hg
  induction hxs with
  | nil => exact ⟨[], rfl, [], .nil, rfl⟩
  | cons hx _ ih =>
    obtain ⟨p, hp, p', halike, htext⟩ := hfg _ _ hx
    obtain ⟨ps, hps, ps', halikes, htexts⟩ := ih
    exact ⟨p :: ps, by simp [hp, hps], p' :: ps', .cons halike halikes, by simp [htext, htexts]⟩

theorem toList_intercalate (xs : List String) :
    (",".intercalate xs).toList = joined ',' (xs.map String.toList) := by
  induction xs with
  | nil => rfl
  | cons x xs ih =>
    cases xs with
    | nil => simp
    | cons y xs =>
      rw [String.intercalate_cons_cons, String.toList_append, String.toList_append, ih]
      simp

theorem toList_joinSignature (xs : List String) :
    (joinSignature xs).toList = joined ';' (xs.map String.toList) := by
  cases xs with
  | nil => rfl
  | cons x xs =>
    cases xs with
    | nil => rfl
    | cons y xs =>
      rw [joinSignature, String.toList_append, String.toList_append, toList_intercalate]
      · simp
      · exact cons_ne_nil y xs

/-- A text is that of an outline, with texts for the types in it. -/
def WritesOutline (write : NodeId → Option String) (o : Outline NodeId) (x : String) : Prop :=
  ∃ o' : Outline String, o.Alike (fun m s ↦ write m = some s) o' ∧ x.toList = o'.text

theorem writesOutline_bracketed {b : Bracket} {ps' : List (OutlinePart String)}
    (halike : List.Forall₂ (OutlinePart.Alike fun m s ↦ write m = some s) ps ps')
    (hx : x.toList = c.word.toList ++ b.opening :: (joined (if c = .function then ';' else ',')
      (ps'.map OutlinePart.text) ++ [b.closing])) :
    WritesOutline write ⟨c, some b, ps⟩ x :=
  ⟨⟨c, some b, ps'⟩, ⟨rfl, rfl, halike⟩, hx⟩

theorem writesOutline_around {n : Option NodeId} (hx : serializeAround t write c.word n = some x) :
    ∃ o, (do return ⟨c, some .round, [← t.elementPart (← n)]⟩) = some o ∧
      WritesOutline write o x := by
  obtain ⟨m, rfl, hx⟩ := bind_eq_some_iff.1 hx
  obtain ⟨y, hy, hx⟩ := bind_eq_some_iff.1 hx
  cases hx
  obtain ⟨p, hp, p', halike, htext⟩ := writesPart_element hy
  refine ⟨⟨c, some .round, [p]⟩, by simp [hp], writesOutline_bracketed (.cons halike .nil) ?_⟩
  simp [htext]

/-- A declared type is written by its type ID, and any other one by its members. -/
theorem writesOutline_compound {typeId : Option String}
    (hx : serializeCompound t write u c.word typeId = some x) (hc : c ≠ .function) :
    ∃ o, (match typeId with
      | some id => some ⟨c, some .curly, [.typeId id]⟩
      | none => do return ⟨c, some .curly, ← (t.children u).mapM t.memberPart⟩) = some o ∧
      WritesOutline write o x := by
  cases typeId with
  | some id =>
    cases hx
    refine ⟨_, rfl, writesOutline_bracketed (.cons (.typeId id) .nil) ?_⟩
    simp
  | none =>
    rw [serializeCompound] at hx
    split at hx
    · cases hx
    obtain ⟨xs, hxs, hx⟩ := bind_eq_some_iff.1 hx
    cases hx
    obtain ⟨ps, hps, ps', halike, htexts⟩ := writesPart_mapM (fun _ _ ↦ writesPart_member) hxs
    refine ⟨⟨c, some .curly, ps⟩, by simp [hps], writesOutline_bracketed halike ?_⟩
    rw [← htexts, if_neg hc, ← toList_intercalate]
    simp

/-- What is written of a type that does not stand for another one is its outline. -/
theorem writesOutline_shape (hname : data.wildcard = true ∨ data.shape.category ≠ .name)
    (hx : serializeShape t write u data = some x) :
    ∃ o, t.outline u data = some o ∧ WritesOutline write o x := by
  obtain ⟨shape, wildcard, unification, typeId⟩ := data
  cases wildcard with
  | true =>
    cases hx
    refine ⟨_, rfl, writesOutline_bracketed (.cons .any .nil) ?_⟩
    simp
  | false =>
    cases shape with
    | auto | unknown => cases hx
    | name => exact absurd rfl (hname.resolve_left false_ne_true)
    | signed width | unsigned width =>
      cases hx
      refine ⟨_, rfl, writesOutline_bracketed (.cons (.width _) .nil) ?_⟩
      simp
    | library id | member id =>
      cases hx
      refine ⟨_, rfl, writesOutline_bracketed (.cons (.symbol id) .nil) ?_⟩
      simp [TypeShape.category, TypeCategory.word]
    | list | iterator | optional | result | strongRef | weakRef | valueRef | typeOf =>
      exact writesOutline_around hx
    | tuple =>
      obtain ⟨xs, hxs, hx⟩ := bind_eq_some_iff.1 hx
      cases hx
      obtain ⟨ps, hps, ps', halike, htexts⟩ := writesPart_mapM (fun _ _ ↦ writesPart_element) hxs
      refine ⟨⟨.tuple, some .round, ps⟩, by simp [outline, TypeShape.category, hps],
        writesOutline_bracketed halike ?_⟩
      rw [← htexts, if_neg (by simp), ← toList_intercalate]
      simp [TypeCategory.word]
    | function =>
      obtain ⟨xs, hxs, hx⟩ := bind_eq_some_iff.1 hx
      cases hx
      obtain ⟨ps, hps, ps', halike, htexts⟩ := writesPart_mapM (fun _ _ ↦ writesPart_signature) hxs
      refine ⟨⟨.function, some .round, ps⟩, by simp [outline, TypeShape.category, hps],
        writesOutline_bracketed halike ?_⟩
      rw [← htexts, if_pos rfl, ← toList_joinSignature]
      simp [TypeCategory.word]
    | enumeration | struct | union | unit => exact writesOutline_compound hx (by simp [TypeShape.category])
    | _ =>
      cases hx
      exact ⟨_, rfl, ⟨_, none, []⟩, ⟨rfl, rfl, .nil⟩, by simp [Outline.text, Outline.tail]⟩

end

/-! ## Texts and structures -/

variable {t' : Tree} {a b m : NodeId} {s : String} {k : Nat}

theorem LaidOut.name {id : QualifiedId} {resolved : Option Link} (h : t.LaidOut n)
    (hu : t.unqualified n = some u) (hdata : t.typeData? u = some data)
    (hwildcard : data.wildcard = false) (hshape : data.shape = .name id resolved)
    (hm : t.linkedType resolved = some m) : t.LaidOut m :=
  fun v data' hv ↦ h v data' (.name hu hdata hwildcard hshape hm hv)

theorem LaidOut.part (h : t.LaidOut n) (hu : t.unqualified n = some u)
    (hdata : t.typeData? u = some data) (ho : t.outline u data = some o) (hp : p ∈ o.parts)
    (hm : p.type? = some m) : t.LaidOut m :=
  fun v data' hv ↦ h v data' (.part hu hdata ho hp hm hv)

theorem exists_of_category_eq_name {shape : TypeShape} (h : shape.category = .name) :
    ∃ id resolved, shape = .name id resolved := by
  cases shape <;> first | exact ⟨_, _, rfl⟩ | cases h

/-- What a type stands for is written by its outline, with fewer levels to go for its parts. -/
theorem exists_outline_of_serializeWithin (hlaid : t.LaidOut n)
    (h : t.serializeWithin k n = some s) :
    ∃ u data o, t.Stands n u data ∧ t.outline u data = some o ∧ ∃ o' : Outline String,
      o'.Proper ∧ s.toList = o'.text ∧ ∃ j < k,
        o.Alike (fun m x ↦ t.LaidOut m ∧ t.serializeWithin j m = some x) o' := by
  induction k generalizing n with
  | zero =>
    obtain ⟨u, hu, h⟩ := bind_eq_some_iff.1 h
    obtain ⟨data, hdata, h⟩ := bind_eq_some_iff.1 h
    rw [(hlaid u data (.itself hu hdata)).1] at h
    cases h
  | succ k ih =>
    obtain ⟨u, hu, h⟩ := bind_eq_some_iff.1 h
    obtain ⟨data, hdata, h⟩ := bind_eq_some_iff.1 h
    obtain ⟨hnone, houtline⟩ := hlaid u data (.itself hu hdata)
    simp only [hnone] at h
    by_cases hname : data.wildcard = true ∨ data.shape.category ≠ .name
    · obtain ⟨o, ho, o', halike, htext⟩ := writesOutline_shape hname h
      have hproper : o.Proper := ⟨houtline o ho, (outline_cases ho).2.2.2⟩
      refine ⟨u, data, o, .itself hu hdata hname, ho, o', halike.proper hproper, htext, k,
        Nat.lt_succ_self k, halike.mono fun p hp m x hm hx ↦ ⟨?_, hx⟩⟩
      exact hlaid.part hu hdata ho hp hm
    · obtain ⟨hwildcard, hcategory⟩ := not_or.1 hname
      obtain ⟨id, resolved, hshape⟩ := exists_of_category_eq_name (not_not.1 hcategory)
      rw [not_eq_true] at hwildcard
      simp only [serializeShape, hwildcard, hshape, false_eq_true, if_false] at h
      obtain ⟨m, hm, h⟩ := bind_eq_some_iff.1 h
      obtain ⟨v, data', o, hstands, ho, o', hproper, htext, j, hj, halike⟩ :=
        ih (hlaid.name hu hdata hwildcard hshape hm) h
      exact ⟨v, data', o, .name hu hdata hwildcard hshape hm hstands, ho, o', hproper, htext, j,
        Nat.lt_succ_of_lt hj, halike⟩

theorem isText_of_serializeWithin (hlaid : t.LaidOut n) (h : t.serializeWithin k n = some s) :
    IsText s := by
  induction k using Nat.strongRecOn generalizing n s with
  | ind k ih =>
    obtain ⟨u, data, o, -, -, o', hproper, htext, j, hj, halike⟩ :=
      exists_outline_of_serializeWithin hlaid h
    refine .intro o' hproper (fun p' hp' x hx ↦ ?_) htext
    obtain ⟨p, -, hp⟩ := halike.exists_part hp'
    obtain ⟨m, -, hm, hmx⟩ := hp.exists_type hx
    exact ih j hj hm hmx

/-- The types in an outline that is written are written by texts. -/
theorem isText_of_alike {o' : Outline String}
    (h : o.Alike (fun m x ↦ t.LaidOut m ∧ t.serializeWithin k m = some x) o') :
    ∀ p ∈ o'.parts, ∀ x, p.type? = some x → IsText x := by
  intro p' hp' x hx
  obtain ⟨p, -, hp⟩ := h.exists_part hp'
  obtain ⟨m, -, hm, hmx⟩ := hp.exists_type hx
  exact isText_of_serializeWithin hm hmx

theorem wildcard_iff_any_mem (ho : t.outline u data = some o) :
    data.wildcard = true ↔ .any ∈ o.parts := by
  obtain ⟨-, hany, hnone, -⟩ := outline_cases ho
  constructor
  · intro hwildcard
    rw [hany hwildcard]
    exact mem_cons_self
  · intro hmem
    by_contra hwildcard
    exact hnone (eq_false_iff.2 hwildcard) .any hmem rfl

/-- Types that are written within some levels by the same text have the same structure. -/
theorem sameStructure_of_serializeWithin {k' : Nat} (ha : t.LaidOut a) (hb : t'.LaidOut b)
    (hs : t.serializeWithin k a = some s) (hs' : t'.serializeWithin k' b = some s) :
    SameStructure t t' a b := by
  induction k using Nat.strongRecOn generalizing a b s k' with
  | ind k ih =>
    obtain ⟨u, data, o, hstands, ho, w, hproper, htext, j, hj, halike⟩ :=
      exists_outline_of_serializeWithin ha hs
    obtain ⟨v, data', o', hstands', ho', w', hproper', htext', j', -, halike'⟩ :=
      exists_outline_of_serializeWithin hb hs'
    -- one text has one outline
    obtain rfl : w = w' := Outline.eq_of_text_eq hproper hproper' (isText_of_alike halike)
      (isText_of_alike halike') (htext.symm.trans htext')
    have hboth := halike.common halike'
    have hsame : o.Alike (SameStructure t t') o' := by
      refine hboth.mono ?_
      rintro p - m m' - ⟨x, ⟨hm, hmx⟩, hm', hmx'⟩
      exact ih j hj hm hm' hmx hmx'
    refine .intro hstands hstands' ?_ ?_ ho ho' hsame.parts
    · rw [← (outline_cases ho).1, ← (outline_cases ho').1, hsame.category]
    · rw [Bool.eq_iff_iff, wildcard_iff_any_mem ho, wildcard_iff_any_mem ho', hsame.any_mem_iff]

/-- Types that are laid out as they should be, with words for names and without recorded texts, have
the same structure if they have the same text. -/
theorem sameStructure_of_serialize_eq {t t' : Tree} {a b : NodeId} {s : String} (ha : t.LaidOut a)
    (hb : t'.LaidOut b) (hs : t.serialize a = some s) (hs' : t'.serialize b = some s) :
    SameStructure t t' a b :=
  sameStructure_of_serializeWithin ha hb hs hs'

/-- Types are laid out if each of them stands for another one of them, or has an outline with words
for names and with types from among them in its parts. -/
theorem laidOut_of_closed
    (h : ∀ n ∈ l, ∃ data, t.kind n = .type data ∧ data.unification = none ∧
      ((∃ id resolved m, data.wildcard = false ∧ data.shape = .name id resolved ∧
      t.linkedType resolved = some m ∧ m ∈ l) ∨ ∃ o, t.outline n data = some o ∧
      ∀ p ∈ o.parts, p.Named ∧ ∀ m, p.type? = some m → m ∈ l)) :
    ∀ n ∈ l, t.LaidOut n := by
  have hself {n u data} (hn : n ∈ l) (hu : t.unqualified n = some u)
      (hdata : t.typeData? u = some data) : u = n ∧ t.kind n = .type data := by
    obtain ⟨data', hkind, -⟩ := h n hn
    simp only [unqualified, hkind, Option.some.injEq] at hu
    subst hu
    simp only [typeData?, hkind, Option.some.injEq] at hdata
    exact ⟨rfl, hdata ▸ hkind⟩
  intro n hn u data hcontains
  induction hcontains with
  | itself hu hdata =>
    obtain ⟨rfl, hkind⟩ := hself hn hu hdata
    obtain ⟨data', hkind', hnone, hcases⟩ := h _ hn
    cases hkind.symm.trans hkind'
    refine ⟨hnone, fun o ho p hp ↦ ?_⟩
    obtain ⟨id, resolved, m, hwildcard, hshape, -⟩ | ⟨o', ho', hparts⟩ := hcases
    · simp [outline, hwildcard, hshape] at ho
    · cases ho.symm.trans ho'
      exact (hparts p hp).1
  | name hu hdata hwildcard hshape hm _ ih =>
    obtain ⟨rfl, hkind⟩ := hself hn hu hdata
    obtain ⟨data', hkind', -, ⟨id, resolved, m, -, hshape', hm', hmem⟩ | ⟨o, ho, -⟩⟩ := h _ hn
    · cases hkind.symm.trans hkind'
      cases hshape.symm.trans hshape'
      cases hm.symm.trans hm'
      exact ih hmem
    · cases hkind.symm.trans hkind'
      simp [outline, hwildcard, hshape] at ho
  | part hu hdata ho hp hm _ ih =>
    obtain ⟨rfl, hkind⟩ := hself hn hu hdata
    obtain ⟨data', hkind', -, ⟨id, resolved, m, hwildcard, hshape, -⟩ | ⟨o', ho', hparts⟩⟩ := h _ hn
    · cases hkind.symm.trans hkind'
      simp [outline, hwildcard, hshape] at ho
    · cases hkind.symm.trans hkind'
      cases ho.symm.trans ho'
      exact ih ((hparts _ hp).2 _ hm)

/-- A name for a tuple, and the same tuple written out. -/
def namedTuple : Tree := .ofRows [
  (.root, [8]),
  (.shaped (.signed 8), []),
  (.value .const, [1]),
  (.shaped .string, []),
  (.value, [3]),
  (.shaped .tuple, [2, 4]),
  (.value .const, [5]),
  (.declares "T" .type .external "m::T", [6]),
  (.declares "m" .module .external "m", [7]),
  (.shaped (.name (.ofText "T") (some ⟨⟨7⟩, some "m::T"⟩)), []),
  (.shaped (.signed 8), []),
  (.value .const, [10]),
  (.shaped .string, []),
  (.value, [12]),
  (.shaped .tuple, [11, 13])]

/-- The name and the tuple have the same text and the same structure. -/
theorem sameStructure_namedTuple : namedTuple.LaidOut ⟨9⟩ ∧ namedTuple.LaidOut ⟨14⟩ ∧
      namedTuple.serialize ⟨9⟩ = some "tuple(c:int<8>,m:string)" ∧
      namedTuple.serialize ⟨14⟩ = some "tuple(c:int<8>,m:string)" ∧
      SameStructure namedTuple namedTuple ⟨9⟩ ⟨14⟩ := by
  have hlaid : ∀ n ∈ [⟨9⟩, ⟨5⟩, ⟨1⟩, ⟨3⟩, ⟨14⟩, ⟨10⟩, ⟨12⟩], namedTuple.LaidOut n := by
    refine laidOut_of_closed ?_
    simp only [forall_mem_cons]
    refine ⟨⟨_, rfl, rfl, .inl ⟨_, _, ⟨5⟩, rfl, rfl, by decide +kernel, by decide⟩⟩,
      ⟨_, rfl, rfl, .inr ⟨_, rfl, ?_⟩⟩, ⟨_, rfl, rfl, .inr ⟨_, rfl, ?_⟩⟩,
      ⟨_, rfl, rfl, .inr ⟨_, rfl, ?_⟩⟩, ⟨_, rfl, rfl, .inr ⟨_, rfl, ?_⟩⟩,
      ⟨_, rfl, rfl, .inr ⟨_, rfl, ?_⟩⟩, ⟨_, rfl, rfl, .inr ⟨_, rfl, ?_⟩⟩, nofun⟩ <;>
    simp [OutlinePart.Named, OutlinePart.type?]
  have hname : namedTuple.serialize ⟨9⟩ = some "tuple(c:int<8>,m:string)" := by decide +kernel
  have htuple : namedTuple.serialize ⟨14⟩ = some "tuple(c:int<8>,m:string)" := by decide +kernel
  exact ⟨hlaid _ (by decide), hlaid _ (by decide), hname, htuple,
    sameStructure_of_serialize_eq (hlaid _ (by decide)) (hlaid _ (by decide)) hname htuple⟩

/-- Two wildcards for integers of different widths, and two lists whose iterators are qualified
differently. -/
def unwritten : Tree := .ofRows [
  (.root, []),
  (.type { shape := .signed 8, wildcard := true }, []),
  (.type { shape := .signed 16, wildcard := true }, []),
  (.shaped .bool, []),
  (.value .const, [3]),
  (.shaped .iterator, [4]),
  (.value .const, [5]),
  (.shaped .list, [6]),
  (.shaped .bool, []),
  (.value .const, [8]),
  (.shaped .iterator, [9]),
  (.value, [10]),
  (.shaped .list, [11])]

/-- The width of a wildcard is not in its text, and the constness around the iterator of a list is
not in the text of the list. -/
theorem serialize_unwritten : (∀ n ∈ [⟨1⟩, ⟨2⟩, ⟨7⟩, ⟨12⟩], unwritten.LaidOut n) ∧
      unwritten.serialize ⟨1⟩ = some "int<*>" ∧ unwritten.serialize ⟨2⟩ = some "int<*>" ∧
      unwritten.shape? ⟨1⟩ = some (.signed 8) ∧ unwritten.shape? ⟨2⟩ = some (.signed 16) ∧
      unwritten.serialize ⟨7⟩ = some "list(c:bool)" ∧
      unwritten.serialize ⟨12⟩ = some "list(c:bool)" ∧
      unwritten.qualifiers? ⟨6⟩ = some (.value .const) ∧
      unwritten.qualifiers? ⟨11⟩ = some (.value .mutable) := by
  have hlaid : ∀ n ∈ [⟨1⟩, ⟨2⟩, ⟨7⟩, ⟨3⟩, ⟨12⟩, ⟨8⟩], unwritten.LaidOut n := by
    refine laidOut_of_closed ?_
    simp only [forall_mem_cons]
    refine ⟨⟨_, rfl, rfl, .inr ⟨_, rfl, ?_⟩⟩, ⟨_, rfl, rfl, .inr ⟨_, rfl, ?_⟩⟩,
      ⟨_, rfl, rfl, .inr ⟨_, rfl, ?_⟩⟩, ⟨_, rfl, rfl, .inr ⟨_, rfl, ?_⟩⟩,
      ⟨_, rfl, rfl, .inr ⟨_, rfl, ?_⟩⟩, ⟨_, rfl, rfl, .inr ⟨_, rfl, ?_⟩⟩, nofun⟩ <;>
    simp [OutlinePart.Named, OutlinePart.type?]
  refine ⟨fun n hn ↦ hlaid n ?_, by decide +kernel⟩
  revert n
  decide

end Tree

end ProtocolIR
