import ProtocolIR.Proofs.Pass.Step
import ProtocolIR.Proofs.Tree.Typing
import ProtocolIR.Proofs.Unification.Structure

/-!
# Texts that a structure allows

A recorded text has to outlive what is done to the tree after it was written: names are resolved,
types get type IDs, labels are numbered, slots are refilled and subtrees are copied. `Written` says
which texts the structure of a type allows, without asking whether it could be written right now,
and `Carries` what two trees must have in common for the texts of one to be allowed in the other.

Of an enum that is written by its labels every text is allowed, since its labels change.
-/

namespace ProtocolIR

open List Option

/-- A compound type that is written by its members. -/
def TypeData.ByMembers (data : TypeData) : Prop :=
  data.wildcard = false ∧ data.shape.category.isCompound = true ∧ data.typeId = none

/-- Whether the type of a declaration may be inferred from its value. -/
def DeclarationKind.IsInferred : DeclarationKind → Prop
  | .constant | .globalVariable | .localVariable => True
  | _ => False

/-- Neither a type nor a declaration: nothing of it is written. -/
def NodeKind.Inert (kind : NodeKind) : Prop := ¬kind.IsType ∧ kind.declaration? = none

namespace TypeShape.Refines

variable {s s' : TypeShape}

theorem category_eq (h : s.Refines s') : s'.category = s.category := by
  cases h <;> rfl

theorem eq_of_not_name (h : s.Refines s') (hs : s.category ≠ .name) : s' = s := by
  cases h with
  | same => rfl
  | name => exact absurd rfl hs

theorem eq_of_link {id : QualifiedId} {link : Link}
    (h : (TypeShape.name id (some link)).Refines s') :
    s' = .name id (some link) := by
  cases h with
  | same => rfl
  | name hlink => rw [hlink link rfl]

end TypeShape.Refines

namespace Tree

open TypeText

variable {t : Tree} {n : NodeId} {part : Constness → NodeId → OutlinePart NodeId}
  {bare : NodeId → OutlinePart NodeId} {p : OutlinePart NodeId}

/-! ## Texts -/

section

variable (t : Tree)

/-- A type that some type declaration declares. -/
def Declared (u : NodeId) : Prop := ∃ d, t.declaredType d = some u

/-- A type stands for a type of a shape that is no name, by the links of names alone. -/
inductive FollowsTo : NodeId → NodeId → TypeShape → Prop where
  | here {n : NodeId} {s : TypeShape} : t.shape? n = some s → s.category ≠ .name → FollowsTo n n s
  | name {n m u : NodeId} {s : TypeShape} {id : QualifiedId} {link : Link} :
    t.shape? n = some (.name id (some link)) → t.declaredType link.node = some m →
    FollowsTo m u s → FollowsTo n u s

/-- What a container contains, by the links of names alone. -/
inductive Element : NodeId → NodeId → Prop where
  | list {n v u c e : NodeId} : t.unqualified n = some v → t.FollowsTo v u .list →
    t.child u 0 = some c → Element c e → Element n e
  | part {n v u e : NodeId} {s : TypeShape} : t.unqualified n = some v → t.FollowsTo v u s →
    s ∈ [.iterator, .optional, .result, .strongRef, .weakRef, .valueRef, .typeOf] →
    t.child u 0 = some e → Element n e

/-- The outline of a type, if it may be written by one: what is declared, and an enum, is not
written by its members. -/
inductive Outlined (u : NodeId) (data : TypeData) : Outline NodeId → Prop where
  | list {e : NodeId} {p : OutlinePart NodeId} : data.wildcard = false → data.shape = .list →
    t.Element u e → t.elementPart e = some p → Outlined u data ⟨.list, some .round, [p]⟩
  | other {o : Outline NodeId} : data.wildcard = true ∨ data.shape ≠ .list →
    (data.ByMembers → data.shape ≠ .enumeration ∧ ¬t.Declared u) → t.outline u data = some o →
    Outlined u data o

/-- A text that the structure of a type allows. -/
inductive Written : NodeId → String → Prop where
  | name {n u m : NodeId} {data : TypeData} {id : QualifiedId} {link : Link} {s : String} :
    t.unqualified n = some u → t.kind u = .type data → data.wildcard = false →
    data.shape = .name id (some link) → t.declaredType link.node = some m → Written m s →
    Written n s
  | enumeration {n u : NodeId} {data : TypeData} {s : String} : t.unqualified n = some u →
    t.kind u = .type data → data.ByMembers → data.shape = .enumeration → ¬t.Declared u → Written n s
  | outline {n u : NodeId} {data : TypeData} {s : String} {o : Outline NodeId} {o' : Outline String}
      {r : NodeId → String → Prop} : t.unqualified n = some u → t.kind u = .type data →
    t.Outlined u data o → o.Alike r o' → (∀ m x, r m x → Written m x) → s.toList = o'.text →
    Written n s

/-- A type, qualified or not, that need not be inferred. -/
def Known (n : NodeId) : Prop :=
  ∃ u, t.unqualified n = some u ∧ (t.kind u).IsType ∧ t.shape? u ≠ some .auto

/-- No type that is still to be inferred is a wildcard. -/
def PlainAuto : Prop := ∀ n data, t.kind n = .type data → data.shape = .auto → data.wildcard = false

end

/-! ## Reading off kinds -/

section

variable {t : Tree} {n m u v : NodeId} {data : TypeData} {s : String} {kind : NodeKind}

theorem isType_iff : kind.IsType ↔ (∃ data, kind = .type data) ∨ ∃ q, kind = .qualified q := by
  cases kind <;> simp [NodeKind.IsType, NodeKind.category]

theorem isType_of_unqualified (h : t.unqualified n = some u) : (t.kind n).IsType := by
  obtain ⟨data, hkind, -⟩ | ⟨q, hkind, -⟩ := unqualified_cases h
  · exact isType_iff.2 (.inl ⟨data, hkind⟩)
  · exact isType_iff.2 (.inr ⟨q, hkind⟩)

theorem isTypeDeclaration_iff :
    kind.isTypeDeclaration = true ↔ ∃ d, kind = .declaration d ∧ d.kind = .type := by
  cases kind <;> simp [NodeKind.isTypeDeclaration, NodeKind.declaration?]

theorem declaredType_eq_some_iff {d : NodeId} : t.declaredType d = some u ↔
      (t.kind d).isTypeDeclaration = true ∧ ∃ c, t.child d 0 = some c ∧ t.unqualified c = some u := by
  unfold declaredType
  split
  next h => simp [h, bind_eq_some_iff]
  next h => simp [h]

theorem Known.isType (h : t.Known n) : (t.kind n).IsType := by
  obtain ⟨u, hu, -⟩ := h
  exact isType_of_unqualified hu

theorem Known.isAuto (h : t.Known n) : t.isAuto n = false := by
  obtain ⟨u, hu, -, hauto⟩ := h
  simpa [Tree.isAuto, hu] using hauto

/-- What is written is a type that is known. -/
theorem Written.known (ht : t.PlainAuto) (h : t.Written n s) :
    (t.kind n).IsType ∧ t.shape? n ≠ some .auto := by
  suffices hknown : ∃ u data, t.unqualified n = some u ∧ t.kind u = .type data ∧
      data.shape ≠ .auto by
    obtain ⟨u, data, hu, hkind, hshape⟩ := hknown
    refine ⟨isType_of_unqualified hu, fun hauto ↦ ?_⟩
    obtain ⟨data', hkind', hauto⟩ := shape?_eq_some_iff.1 hauto
    cases hu.symm.trans (unqualified_of_type hkind')
    cases hkind.symm.trans hkind'
    exact hshape hauto
  cases h with
  | name hu hkind _ hshape | enumeration hu hkind _ hshape => exact ⟨_, _, hu, hkind, by simp [hshape]⟩
  | outline hu hkind ho =>
    refine ⟨_, _, hu, hkind, fun hauto ↦ ?_⟩
    cases ho with
    | list _ hlist => simp [hauto] at hlist
    | other _ _ ho => simp [Tree.outline, ht _ _ hkind hauto, hauto] at ho

theorem FollowsTo.shape {shape : TypeShape} (h : t.FollowsTo n u shape) :
    t.shape? u = some shape ∧ shape.category ≠ .name := by
  induction h with
  | here hs hname => exact ⟨hs, hname⟩
  | name _ _ _ ih => exact ih

/-- The text of a type is a text of what it qualifies. -/
theorem Written.of_unqualified (hu : t.unqualified n = some u) (hkind : t.kind u = .type data)
    (h : t.Written u s) : t.Written n s := by
  have hself := unqualified_of_type hkind
  cases h with
  | name hu' hkind' hwildcard hshape hm hs =>
    cases hself.symm.trans hu'
    exact .name hu hkind' hwildcard hshape hm hs
  | enumeration hu' hkind' hmembers hshape hdeclared =>
    cases hself.symm.trans hu'
    exact .enumeration hu hkind' hmembers hshape hdeclared
  | outline hu' hkind' ho halike hs htext =>
    cases hself.symm.trans hu'
    exact .outline hu hkind' ho halike hs htext

end

/-- The types in a part are types that are known. -/
def KnownPart (t : Tree) (p : OutlinePart NodeId) : Prop :=
  ∀ m, p.type? = some m → (t.kind m).IsType ∧ t.shape? m ≠ some .auto

theorem KnownPart.of_typePart
    (hp : t.typePart part bare n = some p) (hpart : ∀ q m, (part q m).type? = some m)
    (hbare : ∀ m, (bare m).type? = some m) (h : t.KnownPart p) : t.Known n := by
  obtain ⟨q, m, hq, hm, rfl⟩ | ⟨hq, rfl⟩ := typePart_cases hp
  · have hkind := qualifiers?_eq_some_iff.1 hq
    exact ⟨m, by rw [unqualified_of_qualified hkind, hm], h m (hpart _ m)⟩
  · have hn := h n (hbare n)
    obtain ⟨data, hkind⟩ | ⟨q, hkind⟩ := isType_iff.1 hn.1
    · exact ⟨n, unqualified_of_type hkind, hn⟩
    · rw [qualifiers?_eq_some_iff.2 hkind] at hq
      cases hq

/-! ## What carries texts over -/

/-- A relation between the nodes of two trees along which texts stay allowed: types, qualified types
and declarations are related to ones that refine them, what a type is made of is related slot by
slot, and so is the type of a declaration unless it is still to be inferred. Only what is declared may get a
type ID, and only the labels of enums may get a number. -/
structure Carries (t t' : Tree) (r : NodeId → NodeId → Prop) : Prop where
  same : ∀ {a}, t.Has a → r a a
  type : ∀ {a b data}, r a b → t.kind a = .type data → ∃ data', t'.kind b = .type data' ∧
    data.shape.Refines data'.shape ∧ data'.wildcard = data.wildcard ∧
      Settled data.typeId data'.typeId ∧ (¬t.Declared a → data'.typeId = data.typeId)
  qualified : ∀ {a b q}, r a b → t.kind a = .qualified q → t'.kind b = .qualified q
  declaration : ∀ {a b d}, r a b → t.kind a = .declaration d →
    ∃ d', t'.kind b = .declaration d' ∧ d.Refines d'
  inert : ∀ {a b}, r a b → (t.kind a).Inert → (t'.kind b).Inert
  slots : ∀ {a b}, r a b → (t.kind a).IsType → t.shape? a ≠ some .enumeration →
    List.Forall₂ (Option.Rel r) (t.slots a) (t'.slots b)
  held : ∀ {a b c d}, r a b → t.kind a = .declaration d → t.child a 0 = some c →
    (t.kind c).IsType → (d.kind.IsInferred → t.Known c) → ∃ c', t'.child b 0 = some c' ∧ r c c'
  undeclared : ∀ {a b data}, r a b → t.kind a = .type data → ¬t.Declared a → ¬t'.Declared b
  label : ∀ {a b p d value isImplicit owner}, r a b → some a ∈ t.slots p → (t.kind p).IsType →
    t.shape? p ≠ some .enumeration → t.kind a = .declaration d →
      d.kind = .label value isImplicit owner → ∃ d' owner', t'.kind b = .declaration d' ∧
        d'.id = d.id ∧ d'.kind = .label value isImplicit owner'

namespace Carries

variable {t t' : Tree} {r : NodeId → NodeId → Prop} (h : Carries t t' r)
  {a b c d u v : NodeId} {i : Nat} {s : TypeShape} {o : Outline NodeId}

theorem rel_join_of_forall₂ {l l' : List (Option NodeId)} (hl : List.Forall₂ (Option.Rel r) l l')
    (i : Nat) : Option.Rel r l[i]?.join l'[i]?.join := by
  induction hl generalizing i with
  | nil => exact .none
  | cons hhead _ ih =>
    cases i with
    | zero => exact hhead
    | succ i => exact ih i

theorem child_of_forall₂ {l l' : List (Option NodeId)} (hl : List.Forall₂ (Option.Rel r) l l')
    (hc : l[i]?.join = some c) : ∃ c', l'[i]?.join = some c' ∧ r c c' := by
  have hrel := rel_join_of_forall₂ hl i
  rw [hc] at hrel
  generalize l'[i]?.join = slot at hrel ⊢
  cases hrel with
  | some hr => exact ⟨_, rfl, hr⟩

include h

theorem child (hr : r a b) (ha : (t.kind a).IsType) (hshape : t.shape? a ≠ some .enumeration)
    (hc : t.child a i = some c) : ∃ c', t'.child b i = some c' ∧ r c c' :=
  child_of_forall₂ (h.slots hr ha hshape) hc

theorem children (hr : r a b) (ha : (t.kind a).IsType) (hshape : t.shape? a ≠ some .enumeration) :
    List.Forall₂ r (t.children a) (t'.children b) :=
  rel_filterMap (fun _ _ hrel ↦ hrel) (h.slots hr ha hshape)

theorem child_of_qualified {q : Qualifiers} (hr : r a b) (ha : t.kind a = .qualified q)
    (hc : t.child a 0 = some c) : ∃ c', t'.child b 0 = some c' ∧ r c c' :=
  h.child hr (isType_iff.2 (.inr ⟨q, ha⟩)) (by simp [shape?, typeData?, ha]) hc

theorem unqualified (hr : r a b) (hu : t.unqualified a = some u) :
    ∃ v, t'.unqualified b = some v ∧ r u v := by
  obtain ⟨data, hkind, rfl⟩ | ⟨q, hkind, hc⟩ := unqualified_cases hu
  · obtain ⟨data', hkind', -⟩ := h.type hr hkind
    exact ⟨b, unqualified_of_type hkind', hr⟩
  · obtain ⟨v, hv, hrv⟩ := h.child_of_qualified hr hkind hc
    exact ⟨v, by rw [unqualified_of_qualified (h.qualified hr hkind), hv], hrv⟩

/-- What a type declaration declares is never inferred. -/
theorem declaredType (hr : r a b) (hu : t.declaredType a = some u) :
    ∃ v, t'.declaredType b = some v ∧ r u v := by
  obtain ⟨hdecl, c, hc, hcu⟩ := declaredType_eq_some_iff.1 hu
  obtain ⟨d, hkind, hd⟩ := isTypeDeclaration_iff.1 hdecl
  obtain ⟨d', hkind', hd'⟩ := h.declaration hr hkind
  have htype : d'.kind = .type := by
    have hrefines := hd'.kind
    rw [hd] at hrefines
    generalize d'.kind = k at hrefines
    cases hrefines
    rfl
  obtain ⟨c', hc', hrc⟩ := h.held hr hkind hc (isType_of_unqualified hcu)
    (by simp [hd, DeclarationKind.IsInferred])
  obtain ⟨v, hv, hrv⟩ := h.unqualified hrc hcu
  exact ⟨v, declaredType_eq_some_iff.2 ⟨isTypeDeclaration_iff.2 ⟨d', hkind', htype⟩, c', hc', hv⟩, hrv⟩

/-- Where a link leads to is the same node in both trees. -/
theorem declaredType_of_link {link : Link} (hu : t.declaredType link.node = some u) :
    ∃ v, t'.declaredType link.node = some v ∧ r u v :=
  h.declaredType (h.same (has_of_isTypeDeclaration (declaredType_eq_some_iff.1 hu).1)) hu

theorem shape (hr : r a b) (hs : t.shape? a = some s) :
    ∃ s', t'.shape? b = some s' ∧ s.Refines s' := by
  obtain ⟨data, hkind, rfl⟩ := shape?_eq_some_iff.1 hs
  obtain ⟨data', hkind', hshape, -⟩ := h.type hr hkind
  exact ⟨_, shape?_eq_some_iff.2 ⟨data', hkind', rfl⟩, hshape⟩

theorem followsTo (hf : t.FollowsTo a u s) (hr : r a b) : ∃ v, t'.FollowsTo b v s ∧ r u v := by
  induction hf generalizing b with
  | here hs hname =>
    obtain ⟨s', hs', hrefines⟩ := h.shape hr hs
    obtain rfl := hrefines.eq_of_not_name hname
    exact ⟨b, .here hs' hname, hr⟩
  | name hs hm _ ih =>
    obtain ⟨s', hs', hrefines⟩ := h.shape hr hs
    obtain ⟨m', hm', hrm⟩ := h.declaredType_of_link hm
    obtain ⟨v, hv, hrv⟩ := ih hrm
    obtain rfl := hrefines.eq_of_link
    exact ⟨v, .name hs' hm' hv, hrv⟩

theorem child_of_followsTo (hr : r a b) (hf : t.FollowsTo a u s)
    (hs : s ≠ .enumeration) (hc : t.child u 0 = some c) :
    ∃ v c', t'.FollowsTo b v s ∧ t'.child v 0 = some c' ∧ r c c' := by
  obtain ⟨v, hv, hrv⟩ := h.followsTo hf hr
  obtain ⟨data, hkind, -⟩ := shape?_eq_some_iff.1 hf.shape.1
  obtain ⟨c', hc', hrc⟩ := h.child hrv (isType_iff.2 (.inl ⟨data, hkind⟩))
    (by simpa [hf.shape.1] using hs) hc
  exact ⟨v, c', hv, hc', hrc⟩

theorem element {e : NodeId} (he : t.Element a e)
    (hr : r a b) : ∃ e', t'.Element b e' ∧ r e e' := by
  induction he generalizing b with
  | list hv hf hc _ ih =>
    obtain ⟨v', hv', hrv⟩ := h.unqualified hr hv
    obtain ⟨u', c', hf', hc', hrc⟩ := h.child_of_followsTo hrv hf nofun hc
    obtain ⟨e', he', hre⟩ := ih hrc
    exact ⟨e', .list hv' hf' hc' he', hre⟩
  | part hv hf hs hc =>
    obtain ⟨v', hv', hrv⟩ := h.unqualified hr hv
    obtain ⟨u', c', hf', hc', hrc⟩ := h.child_of_followsTo hrv hf (by rintro rfl; simp at hs) hc
    exact ⟨c', .part hv' hf' hs hc', hrc⟩

/-! ### Parts -/

/-- A part for a type that is known to be one. -/
theorem typePart (hpart : ∀ q m m', r m m' → (part q m).Alike r (part q m'))
    (hbare : ∀ m m', r m m' → (bare m).Alike r (bare m')) (hr : r a b) (ha : (t.kind a).IsType)
    (hp : t.typePart part bare a = some p) :
    ∃ p', t'.typePart part bare b = some p' ∧ p.Alike r p' := by
  obtain ⟨q, m, hq, hm, rfl⟩ | ⟨hq, rfl⟩ := typePart_cases hp
  · have hkind := qualifiers?_eq_some_iff.1 hq
    obtain ⟨m', hm', hrm⟩ := h.child_of_qualified hr hkind hm
    have hq' := qualifiers?_eq_some_iff.2 (h.qualified hr hkind)
    exact ⟨part q.constness m', by simp [Tree.typePart, hq', hm'], hpart _ _ _ hrm⟩
  · obtain ⟨data, hkind⟩ | ⟨q, hkind⟩ := isType_iff.1 ha
    · obtain ⟨data', hkind', -⟩ := h.type hr hkind
      have hq' : t'.qualifiers? b = none := by simp [qualifiers?, hkind']
      exact ⟨bare b, by simp [Tree.typePart, hq'], hbare _ _ hr⟩
    · rw [qualifiers?_eq_some_iff.2 hkind] at hq
      cases hq

theorem elementPart (hr : r a b) (ha : (t.kind a).IsType)
    (hp : t.elementPart a = some p) : ∃ p', t'.elementPart b = some p' ∧ p.Alike r p' :=
  h.typePart (fun q _ _ hrm ↦ .element q hrm) (fun _ _ hrm ↦ .bare hrm) hr ha hp

theorem fieldPart (hr : r a b) (ha : (t.kind a).IsType) {id : String}
    (hp : t.fieldPart id a = some p) : ∃ p', t'.fieldPart id b = some p' ∧ p.Alike r p' :=
  h.typePart (fun q _ _ hrm ↦ .field id q hrm) (fun _ _ hrm ↦ .bareField id hrm) hr ha hp

theorem elementPart_of_known (hr : r a b) (hp : t.elementPart a = some p)
    (hknown : t.KnownPart p) : ∃ p', t'.elementPart b = some p' ∧ p.Alike r p' :=
  h.elementPart hr (hknown.of_typePart hp (fun _ _ ↦ rfl) fun _ ↦ rfl).isType hp

theorem signaturePart (hr : r a b) (hp : t.signaturePart a = some p)
    (hknown : t.KnownPart p) : ∃ p', t'.signaturePart b = some p' ∧ p.Alike r p' := by
  by_cases hdecl : ∃ d, t.kind a = .declaration d
  · obtain ⟨d, hkind⟩ := hdecl
    rw [signaturePart_of_declaration hkind] at hp
    obtain ⟨c, hc, hp⟩ := bind_eq_some_iff.1 hp
    have hc₀ := hknown.of_typePart hp (fun _ _ ↦ rfl) fun _ ↦ rfl
    obtain ⟨c', hc', hrc⟩ := h.held hr hkind hc hc₀.isType fun _ ↦ hc₀
    obtain ⟨d', hkind', -⟩ := h.declaration hr hkind
    rw [signaturePart_of_declaration hkind', hc']
    exact h.elementPart hrc hc₀.isType hp
  · rw [signaturePart_of_not_declaration (by simpa using hdecl)] at hp
    have htype := (hknown.of_typePart hp (fun _ _ ↦ rfl) fun _ ↦ rfl).isType
    rw [signaturePart_of_not_declaration]
    · exact h.elementPart hr htype hp
    · intro d hkind'
      obtain ⟨data, hkind⟩ | ⟨q, hkind⟩ := isType_iff.1 htype
      · obtain ⟨data', hdata', -⟩ := h.type hr hkind
        simp [hdata'] at hkind'
      · simp [h.qualified hr hkind] at hkind'

/-- A member of a type that is no enum. -/
theorem memberPart (hr : r a b) (ha : some a ∈ t.slots u) (hu : (t.kind u).IsType)
    (hshape : t.shape? u ≠ some .enumeration) (hp : t.memberPart a = some p)
    (hknown : t.KnownPart p) : ∃ p', t'.memberPart b = some p' ∧ p.Alike r p' := by
  cases hd : t.declaration? a with
  | none =>
    rw [memberPart_of_none hd] at hp
    cases hp
    refine ⟨.blank, memberPart_of_none ?_, .blank⟩
    by_cases htype : (t.kind a).IsType
    · obtain ⟨data, hkind⟩ | ⟨q, hkind⟩ := isType_iff.1 htype
      · obtain ⟨data', hkind', -⟩ := h.type hr hkind
        simp [declaration?, hkind', NodeKind.declaration?]
      · simp [declaration?, h.qualified hr hkind, NodeKind.declaration?]
    · exact (h.inert hr ⟨htype, hd⟩).2
  | some d =>
    have hkind := declaration?_eq_some_iff.1 hd
    by_cases hlabel : ∃ value isImplicit owner, d.kind = .label value isImplicit owner
    · obtain ⟨value, isImplicit, owner, hlabel⟩ := hlabel
      rw [memberPart_of_label hd hlabel] at hp
      cases hp
      obtain ⟨d', owner', hkind', hid, hlabel'⟩ := h.label hr ha hu hshape hkind hlabel
      refine ⟨_, memberPart_of_label (declaration?_eq_some_iff.2 hkind') hlabel', ?_⟩
      rw [hid]
      exact .label _ _
    · simp only [not_exists] at hlabel
      rw [memberPart_of_field hd hlabel] at hp
      obtain ⟨c, hc, hp⟩ := bind_eq_some_iff.1 hp
      have hc₀ := hknown.of_typePart hp (fun _ _ ↦ rfl) fun _ ↦ rfl
      obtain ⟨c', hc', hrc⟩ := h.held hr hkind hc hc₀.isType fun _ ↦ hc₀
      obtain ⟨d', hkind', hrefines⟩ := h.declaration hr hkind
      have hlabel' : ∀ value isImplicit owner, d'.kind ≠ .label value isImplicit owner := by
        intro value isImplicit owner heq
        have hk := hrefines.kind
        rw [heq] at hk
        generalize hd : d.kind = k at hk
        cases hk with
        | same | label => exact hlabel _ _ _ hd
      rw [memberPart_of_field (declaration?_eq_some_iff.2 hkind') hlabel', hc', hrefines.id]
      exact h.fieldPart hrc hc₀.isType hp

omit h in
/-- Parts that are read off related nodes one by one. -/
theorem mapM_part {f f' : NodeId → Option (OutlinePart NodeId)} {l l' : List NodeId}
    {ps : List (OutlinePart NodeId)} (hl : List.Forall₂ r l l')
    (hf : ∀ a ∈ l, ∀ b p, r a b → f a = some p → t.KnownPart p →
      ∃ p', f' b = some p' ∧ p.Alike r p')
    (hps : l.mapM f = some ps) (hknown : ∀ p ∈ ps, t.KnownPart p) :
    ∃ ps', l'.mapM f' = some ps' ∧ List.Forall₂ (OutlinePart.Alike r) ps ps' := by
  induction hl generalizing ps with
  | nil =>
    cases hps
    exact ⟨[], rfl, .nil⟩
  | cons hr _ ih =>
    rw [mapM_cons] at hps
    obtain ⟨p, hp, hps⟩ := bind_eq_some_iff.1 hps
    obtain ⟨qs, hqs, hps⟩ := bind_eq_some_iff.1 hps
    cases hps
    obtain ⟨p', hp', halike⟩ :=
      hf _ mem_cons_self _ _ hr hp (hknown _ mem_cons_self)
    obtain ⟨qs', hqs', halikes⟩ := ih (fun a ha ↦ hf a (mem_cons_of_mem _ ha)) hqs
      fun q hq ↦ hknown q (mem_cons_of_mem _ hq)
    exact ⟨p' :: qs', by simp [hp', hqs'], .cons halike halikes⟩

/-! ### Outlines -/

/-- An outline that is not read off other types. -/
theorem outline {data data' : TypeData} (hr : r u v) (hu : t.kind u = .type data)
    (hshape : data.shape.Refines data'.shape) (hwildcard : data'.wildcard = data.wildcard)
    (hid : Settled data.typeId data'.typeId) (hnone : ¬t.Declared u → data'.typeId = data.typeId)
    (hlist : data.wildcard = true ∨ data.shape ≠ .list)
    (hmembers : data.ByMembers → data.shape ≠ .enumeration ∧ ¬t.Declared u)
    (ho : t.outline u data = some o) (hknown : ∀ p ∈ o.parts, t.KnownPart p) :
    ∃ o', t'.outline v data' = some o' ∧ o.Alike r o' := by
  have htype : (t.kind u).IsType := isType_iff.2 (.inl ⟨data, hu⟩)
  have hshape? : t.shape? u = some data.shape := shape?_eq_some_iff.2 ⟨data, hu, rfl⟩
  obtain ⟨shape, wildcard, unification, typeId⟩ := data
  obtain ⟨shape', wildcard', unification', typeId'⟩ := data'
  obtain rfl : wildcard' = wildcard := hwildcard
  cases wildcard' with
  | true =>
    cases ho
    exact ⟨_, rfl, hshape.category_eq.symm, rfl, .cons .any .nil⟩
  | false =>
    cases hshape with
    | name => cases ho
    | same =>
      -- slots of types that are no enums are related one by one
      have hne (hs : shape ≠ .enumeration) : t.shape? u ≠ some .enumeration := by
        rw [hshape?]
        exact fun heq ↦ hs (Option.some.inj heq)
      cases shape with
      | auto | unknown | name => cases ho
      | list => exact absurd rfl (hlist.resolve_left Bool.false_ne_true)
      | signed width | unsigned width =>
        cases ho
        exact ⟨_, rfl, rfl, rfl, .cons (.width _) .nil⟩
      | library id | member id =>
        cases ho
        exact ⟨_, rfl, rfl, rfl, .cons (.symbol _) .nil⟩
      | iterator | optional | result | strongRef | weakRef | valueRef | typeOf =>
        obtain ⟨c, hc, ho⟩ := bind_eq_some_iff.1 ho
        obtain ⟨p, hp, ho⟩ := bind_eq_some_iff.1 ho
        cases ho
        obtain ⟨c', hc', hrc⟩ := h.child hr htype (hne (by simp)) hc
        obtain ⟨p', hp', halike⟩ := h.elementPart_of_known hrc hp (hknown p mem_cons_self)
        exact ⟨⟨_, some .round, [p']⟩, by simp [Tree.outline, hc', hp'], rfl, rfl, .cons halike .nil⟩
      | tuple =>
        obtain ⟨ps, hps, ho⟩ := bind_eq_some_iff.1 ho
        cases ho
        obtain ⟨ps', hps', halike⟩ := mapM_part (h.children hr htype (hne (by simp)))
          (fun _ _ _ _ hra hp hk ↦ h.elementPart_of_known hra hp hk) hps hknown
        exact ⟨⟨_, some .round, ps'⟩, by simp [Tree.outline, hps'], rfl, rfl, halike⟩
      | function =>
        obtain ⟨ps, hps, ho⟩ := bind_eq_some_iff.1 ho
        cases ho
        obtain ⟨ps', hps', halike⟩ := mapM_part (h.children hr htype (hne (by simp)))
          (fun _ _ _ _ hra hp hk ↦ h.signaturePart hra hp hk) hps hknown
        exact ⟨⟨_, some .round, ps'⟩, by simp [Tree.outline, hps'], rfl, rfl, halike⟩
      | enumeration | struct | union | unit =>
        cases typeId with
        | some id =>
          cases ho
          obtain rfl : typeId' = some id := hid id rfl
          exact ⟨_, rfl, rfl, rfl, .cons (.typeId id) .nil⟩
        | none =>
          obtain ⟨henum, hdeclared⟩ := hmembers ⟨rfl, rfl, rfl⟩
          obtain rfl : typeId' = none := hnone hdeclared
          obtain ⟨ps, hps, ho⟩ := bind_eq_some_iff.1 ho
          cases ho
          obtain ⟨ps', hps', halike⟩ := mapM_part (h.children hr htype (hne henum))
            (fun _ ha _ _ hra hp hk ↦ h.memberPart hra (mem_children.1 ha) htype (hne henum) hp hk)
            hps hknown
          exact ⟨⟨_, some .curly, ps'⟩, by simp [Tree.outline, hps'], rfl, rfl, halike⟩
      | _ =>
        cases ho
        exact ⟨_, rfl, rfl, rfl, .nil⟩

theorem outlined {data : TypeData} (hr : r u v) (hu : t.kind u = .type data)
    (ho : t.Outlined u data o) (hknown : ∀ p ∈ o.parts, t.KnownPart p) :
    ∃ data' o', t'.kind v = .type data' ∧ t'.Outlined v data' o' ∧ o.Alike r o' := by
  obtain ⟨data', hv, hshape, hwildcard, hid, hnone⟩ := h.type hr hu
  cases ho with
  | list hplain hlist he hp =>
    obtain ⟨e', he', hre⟩ := h.element he hr
    obtain ⟨p', hp', halike⟩ := h.elementPart_of_known hre hp (hknown _ mem_cons_self)
    rw [hlist] at hshape
    have hlist' := hshape.eq_of_not_name nofun
    exact ⟨data', _, hv, .list (hwildcard.trans hplain) hlist' he' hp', rfl, rfl, .cons halike .nil⟩
  | other hlist hmembers ho =>
    obtain ⟨o', ho', halike⟩ :=
      h.outline hr hu hshape hwildcard hid hnone hlist hmembers ho hknown
    refine ⟨data', o', hv, .other ?_ ?_ ho', halike⟩
    · rw [hwildcard]
      refine hlist.imp_right fun hne heq ↦ hne ?_
      have hcategory := hshape.category_eq
      rw [heq] at hcategory
      exact (hshape.eq_of_not_name (by rw [← hcategory]; nofun)).symm.trans heq
    · rintro ⟨hplain, hcompound, htypeId⟩
      rw [hshape.category_eq] at hcompound
      have hsame : data'.shape = data.shape :=
        hshape.eq_of_not_name fun hname ↦ by simp [hname, TypeCategory.isCompound] at hcompound
      have htypeId' : data.typeId = none := by
        cases hsome : data.typeId with
        | none => rfl
        | some id => cases htypeId.symm.trans (hid id hsome)
      obtain ⟨henum, hdeclared⟩ := hmembers ⟨hwildcard.symm.trans hplain, hcompound, htypeId'⟩
      exact ⟨by rwa [hsame], h.undeclared hr hu hdeclared⟩

/-- What is allowed by a structure is allowed by one that it is carried over to. -/
theorem written {s : String} (hauto : t.PlainAuto) (hw : t.Written a s) (hr : r a b) :
    t'.Written b s := by
  induction hw generalizing b with
  | name hu hkind hwildcard hshape hm _ ih =>
    obtain ⟨v, hv, hrv⟩ := h.unqualified hr hu
    obtain ⟨data', hkind', hrefines, hwildcard', -⟩ := h.type hrv hkind
    obtain ⟨m', hm', hrm⟩ := h.declaredType_of_link hm
    rw [hshape] at hrefines
    exact .name hv hkind' (hwildcard'.trans hwildcard) hrefines.eq_of_link hm' (ih hrm)
  | enumeration hu hkind hmembers hshape hdeclared =>
    obtain ⟨v, hv, hrv⟩ := h.unqualified hr hu
    obtain ⟨data', hkind', hrefines, hwildcard', -, hnone⟩ := h.type hrv hkind
    rw [hshape] at hrefines
    have hshape' := hrefines.eq_of_not_name nofun
    refine .enumeration hv hkind' ⟨hwildcard'.trans hmembers.1, by rw [hshape']; rfl, ?_⟩ hshape'
      (h.undeclared hrv hkind hdeclared)
    rw [hnone hdeclared, hmembers.2.2]
  | @outline n u data s o o' w hu hkind ho halike hparts htext ih =>
    obtain ⟨v, hv, hrv⟩ := h.unqualified hr hu
    -- what is in the parts is written, so it is known
    have hknown : ∀ p ∈ o.parts, t.KnownPart p := by
      intro p hp m hm
      obtain ⟨p', -, hp'⟩ := halike.swap.exists_part hp
      obtain ⟨x, -, hx⟩ := hp'.exists_type hm
      exact (hparts m x hx).known hauto
    obtain ⟨data', o₂, hkind', ho₂, halike₂⟩ := h.outlined hrv hkind ho hknown
    refine .outline hv hkind' ho₂ (halike₂.swap.common halike.swap) ?_ htext
    rintro m' x ⟨m, hrm, hx⟩
    exact ih m x hx hrm

end Carries

end Tree

end ProtocolIR
