import Mathlib.Order.Defs.Unbundled
import ProtocolIR.Proofs.Unification.Faithful

/-!
# Edits that keep texts

What passes do to a tree one edit at a time leaves the allowed texts alone. Kinds of nodes are
refined, and only what is declared gets a type ID; slots of types are kept, except that something
that is not written may take the place of something else that is not written; new types are without
a text and not declared. Such edits compose, and they keep a tree faithful.
-/

namespace ProtocolIR

open Option NodeKind

/-- The kind of a node that declares no type and has no text. -/
structure NodeKind.Plain (kind : NodeKind) : Prop where
  undeclared : kind.isTypeDeclaration = false
  unwritten : ∀ data, kind = .type data → data.unification = none ∧ data.wildcard = false

theorem NodeKind.Plain.type (shape : TypeShape) : (NodeKind.type { shape }).Plain where
  undeclared := rfl
  unwritten _ h := by
    cases h
    exact ⟨rfl, rfl⟩

theorem NodeKind.Inert.plain {kind : NodeKind} (h : kind.Inert) : kind.Plain where
  undeclared := by
    unfold isTypeDeclaration
    rw [h.2]
    rfl
  unwritten data heq := absurd (.inl (by rw [heq]; rfl)) h.1

theorem NodeKind.inert_expression (e : Expression) : (NodeKind.expression e).Inert :=
  ⟨by simp [IsType, category], rfl⟩

theorem NodeKind.inert_literal (l : Literal) : (NodeKind.literal l).Inert :=
  ⟨by simp [IsType, category], rfl⟩

namespace NodeKind.Refines

variable {k k' : NodeKind} {data : TypeData} {d : Declaration} {q : Qualifiers}

theorem of_type (h : (NodeKind.type data).Refines k) : ∃ data', k = .type data' ∧ data.Refines data' := by
  cases h with
  | same => exact ⟨data, rfl, .same _, rfl, .refl _, .refl _⟩
  | type hdata => exact ⟨_, rfl, hdata⟩

theorem of_declaration (h : (NodeKind.declaration d).Refines k) :
    ∃ d', k = .declaration d' ∧ d.Refines d' := by
  cases h with
  | same => exact ⟨d, rfl, rfl, rfl, .refl _, .same _⟩
  | declaration hd => exact ⟨_, rfl, hd⟩

theorem of_qualified (h : (qualified q).Refines k) : k = .qualified q := by
  cases h
  rfl

theorem category_eq (h : k.Refines k') : k'.category = k.category := by
  cases h <;> rfl

theorem isType_iff (h : k.Refines k') : k'.IsType ↔ k.IsType := by
  unfold IsType
  rw [h.category_eq]

theorem inert_iff (h : k.Refines k') : k'.Inert ↔ k.Inert := by
  unfold Inert
  rw [h.isType_iff]
  cases h with
  | declaration => simp [declaration?]
  | _ => rfl

theorem isTypeDeclaration_eq (h : k.Refines k') : k'.isTypeDeclaration = k.isTypeDeclaration := by
  cases h with
  | declaration hd =>
    obtain ⟨-, -, -, hkind⟩ := hd
    simp only [isTypeDeclaration, declaration?, any_some]
    generalize Declaration.kind _ = kind at hkind ⊢
    generalize Declaration.kind _ = kind' at hkind ⊢
    cases hkind <;> rfl
  | _ => rfl

end NodeKind.Refines

namespace Tree

open TypeText

/-- A node in a slot, or what takes its place where neither is written. -/
def Swapped (t t' : Tree) (a b : NodeId) : Prop :=
  a = b ∨ (t.kind a).Inert ∧ t'.Has b ∧ (t'.kind b).Inert

/-- What is written about the old nodes, and what they have recorded, is as it was. -/
structure Kept (t t' : Tree) : Prop extends Refines t t' where
  slots : ∀ {n}, (t.kind n).IsType → t.shape? n ≠ some .enumeration →
    List.Forall₂ (Option.Rel (Swapped t t')) (t.slots n) (t'.slots n)
  held : ∀ {n c d}, t.kind n = .declaration d → t.child n 0 = some c → (t.kind c).IsType →
    (d.kind.IsInferred → t.Known c) → t'.child n 0 = some c
  bare : ∀ {n c}, (t'.kind n).isTypeDeclaration = true → t'.child n 0 = some c →
    (t.kind c).IsType → t.child n 0 = some c
  undeclared : ∀ {n}, (t.kind n).IsType → t'.Declared n → t.Declared n
  typeId : ∀ {n data data'}, t.kind n = .type data → t'.kind n = .type data' → ¬t.Declared n →
    data'.typeId = data.typeId
  label : ∀ {n p d value isImplicit owner}, some n ∈ t.slots p → (t.kind p).IsType →
    t.shape? p ≠ some .enumeration → t.kind n = .declaration d →
      d.kind = .label value isImplicit owner → ∃ d' owner', t'.kind n = .declaration d' ∧
        d'.id = d.id ∧ d'.kind = .label value isImplicit owner'

/-- No text is recorded, and a new type is plain and not declared. -/
structure Edited (t t' : Tree) : Prop extends Kept t t' where
  text : ∀ {n data data'}, t.kind n = .type data → t'.kind n = .type data' →
    data'.unification = data.unification
  fresh : ∀ {n data}, ¬t.Has n → t'.kind n = .type data →
    data.unification = none ∧ data.wildcard = false ∧
      ∀ d, (t'.kind d).isTypeDeclaration = true → t'.child d 0 ≠ some n

section

variable {t t₁ t₂ : Tree} {n p a b : NodeId}

theorem has_of_isType (h : (t.kind n).IsType) : t.Has n :=
  has_of_kind fun hroot ↦ by
    rw [hroot] at h
    obtain ⟨data, h⟩ | ⟨q, h⟩ := isType_iff.1 h <;> cases h

theorem has_of_child_eq {i : Nat} {c : NodeId} (h : t.child n i = some c) : t.Has n :=
  has_of_mem_slots (mem_slots_of_child h)

theorem child_congr (h : t₁.slots n = t.slots n) (i : Nat) : t₁.child n i = t.child n i := by
  unfold child
  rw [h]

theorem inert_of_not_has (h : ¬t.Has n) : (t.kind n).Inert := by
  rw [kind_of_not_has h]
  exact ⟨by simp [NodeKind.IsType, category], rfl⟩

theorem not_inert_of_isType {kind : NodeKind} (h : kind.IsType) : ¬kind.Inert := fun hinert ↦ hinert.1 h

theorem not_inert_of_declaration {d : Declaration} : ¬(declaration d).Inert :=
  fun hinert ↦ by cases hinert.2

theorem Swapped.eq_of_not_inert (h : Swapped t t₁ a b) (ha : ¬(t.kind a).Inert) : a = b :=
  h.elim id fun hinert ↦ absurd hinert.1 ha

namespace Refines

theorem isType_iff (h : Refines t t₁) (hn : t.Has n) : (t₁.kind n).IsType ↔ (t.kind n).IsType :=
  (h.kind hn).isType_iff

/-- What is a type was a type. -/
theorem exists_type (h : Refines t t₁) (hn : t.Has n) {data' : TypeData}
    (hkind' : t₁.kind n = .type data') : ∃ data, t.kind n = .type data ∧ data.Refines data' := by
  have hrefines := h.kind hn
  obtain ⟨data, hkind⟩ | ⟨q, hkind⟩ :=
    Tree.isType_iff.1 ((h.isType_iff hn).1 (Tree.isType_iff.2 (.inl ⟨data', hkind'⟩)))
  · rw [hkind] at hrefines
    obtain ⟨data'', heq, hdata⟩ := hrefines.of_type
    cases hkind'.symm.trans heq
    exact ⟨data, hkind, hdata⟩
  · rw [hkind] at hrefines
    cases hkind'.symm.trans hrefines.of_qualified

theorem shape?_iff (h : Refines t t₁) (hn : t.Has n) {s : TypeShape} (hs : s.category ≠ .name) :
    t₁.shape? n = some s ↔ t.shape? n = some s := by
  constructor
  · intro hshape
    obtain ⟨data', hkind', rfl⟩ := shape?_eq_some_iff.1 hshape
    obtain ⟨data, hkind, hdata⟩ := h.exists_type hn hkind'
    refine shape?_eq_some_iff.2 ⟨data, hkind, ?_⟩
    exact (hdata.shape.eq_of_not_name (by rwa [← hdata.shape.category_eq])).symm
  · intro hshape
    obtain ⟨data, hkind, rfl⟩ := shape?_eq_some_iff.1 hshape
    have hrefines := h.kind hn
    rw [hkind] at hrefines
    obtain ⟨data', hkind', hdata⟩ := hrefines.of_type
    exact shape?_eq_some_iff.2 ⟨data', hkind', hdata.shape.eq_of_not_name hs⟩

/-- Types that are still to be inferred stay no wildcards. -/
theorem plainAuto (h : Refines t t₁) (ht : t.PlainAuto)
    (hnew : ∀ {n data}, ¬t.Has n → t₁.kind n = .type data → data.wildcard = false) :
    t₁.PlainAuto := by
  intro n data' hkind' hauto
  by_cases hn : t.Has n
  · obtain ⟨data, hkind, hdata⟩ := h.exists_type hn hkind'
    have hcategory := hdata.shape.category_eq
    rw [hauto] at hcategory
    have hshape := hdata.shape.eq_of_not_name (by rw [← hcategory]; nofun)
    exact hdata.wildcard.trans (ht n data hkind (hshape.symm.trans hauto))
  · exact hnew hn hkind'

end Refines

/-! ## Edits in a row -/

theorem forall₂_rel_refl {r : NodeId → NodeId → Prop} (h : ∀ c, r c c) (l : List (Option NodeId)) :
    List.Forall₂ (Option.Rel r) l l := by
  rw [List.forall₂_same]
  rintro (_ | c) -
  · exact .none
  · exact .some (h c)

theorem Swapped.trans (h : Refines t t₁) (h' : Refines t₁ t₂) {c : NodeId} (hab : Swapped t t₁ a b)
    (hbc : Swapped t₁ t₂ b c) : Swapped t t₂ a c := by
  obtain rfl | ⟨ha, hb, hinert⟩ := hab
  · obtain rfl | ⟨ha, hc⟩ := hbc
    · exact .inl rfl
    · refine .inr ⟨?_, hc⟩
      by_cases hhas : t.Has a
      · exact (h.kind hhas).inert_iff.1 ha
      · exact inert_of_not_has hhas
  · obtain rfl | ⟨-, hc⟩ := hbc
    · exact .inr ⟨ha, h'.has hb, (h'.kind hb).inert_iff.2 hinert⟩
    · exact .inr ⟨ha, hc⟩

namespace Kept

theorem refl (t : Tree) : Kept t t where
  toRefines := .refl t
  slots _ _ := forall₂_rel_refl (fun _ ↦ .inl rfl) _
  held _ hc _ _ := hc
  bare _ hc _ := hc
  undeclared _ h := h
  typeId h h' _ := by
    cases h.symm.trans h'
    rfl
  label _ _ _ h hlabel := ⟨_, _, h, rfl, hlabel⟩

/-- What is a child of a type, and of a kind that is written, stays where it is. -/
theorem child (h : Kept t t₁) (hn : (t.kind n).IsType) (hshape : t.shape? n ≠ some .enumeration)
    {i : Nat} {c : NodeId} (hc : t.child n i = some c) (hinert : ¬(t.kind c).Inert) :
    t₁.child n i = some c := by
  obtain ⟨c', hc', hswap⟩ := Carries.child_of_forall₂ (h.slots hn hshape) hc
  rwa [← hswap.eq_of_not_inert hinert] at hc'

theorem known (h : Kept t t₁) (hn : t.Known n) : t₁.Known n := by
  obtain ⟨u, hu, htype, hauto⟩ := hn
  have hhas := has_of_isType htype
  refine ⟨u, ?_, (h.isType_iff hhas).2 htype, ?_⟩
  · obtain ⟨data, hkind, rfl⟩ | ⟨q, hkind, hc⟩ := unqualified_cases hu
    · have hrefines := h.kind hhas
      rw [hkind] at hrefines
      obtain ⟨data', hkind', -⟩ := hrefines.of_type
      exact unqualified_of_type hkind'
    · have hrefines := h.kind (has_of_child_eq hc)
      rw [hkind] at hrefines
      rw [unqualified_of_qualified hrefines.of_qualified]
      exact h.child (Tree.isType_iff.2 (.inr ⟨q, hkind⟩)) (by simp [shape?, typeData?, hkind]) hc
        (not_inert_of_isType htype)
  · rwa [Ne, h.shape?_iff (s := .auto) hhas (by decide)]

theorem trans (h : Kept t t₁) (h' : Kept t₁ t₂) : Kept t t₂ where
  toRefines := h.toRefines.trans h'.toRefines
  slots {n} hn hshape := by
    have hhas := has_of_isType hn
    refine forall₂_comp (fun a b c hab hbc ↦ ?_) (h.slots hn hshape)
      (h'.slots ((h.isType_iff hhas).2 hn) (by rwa [Ne, h.shape?_iff (s := .enumeration) hhas nofun]))
    cases hab with
    | none =>
      cases hbc
      exact .none
    | some hab =>
      cases hbc with
      | some hbc => exact .some (hab.trans h.toRefines h'.toRefines hbc)
  held {n c d} hn hc htype hknown := by
    have hrefines := h.kind (has_of_child_eq hc)
    rw [hn] at hrefines
    obtain ⟨d₁, hn₁, hd₁⟩ := hrefines.of_declaration
    refine h'.held hn₁ (h.held hn hc htype hknown) ((h.isType_iff (has_of_isType htype)).2 htype) ?_
    intro hinferred
    refine h.known (hknown ?_)
    have hkind := hd₁.kind
    generalize d.kind = k at hkind
    generalize d₁.kind = k₁ at hkind hinferred
    cases hkind with
    | same => exact hinferred
    | _ => cases hinferred
  bare {n c} hn hc htype := by
    have hc₁ := h'.bare hn hc ((h.isType_iff (has_of_isType htype)).2 htype)
    refine h.bare ?_ hc₁ htype
    rwa [← (h'.kind (has_of_child_eq hc₁)).isTypeDeclaration_eq]
  undeclared {n} hn hdeclared :=
    h.undeclared hn (h'.undeclared ((h.isType_iff (has_of_isType hn)).2 hn) hdeclared)
  typeId {n data data₂} hn hn₂ hdeclared := by
    have htype : (t.kind n).IsType := Tree.isType_iff.2 (.inl ⟨data, hn⟩)
    have hrefines := h.kind (has_of_isType htype)
    rw [hn] at hrefines
    obtain ⟨data₁, hn₁, -⟩ := hrefines.of_type
    rw [h'.typeId hn₁ hn₂ fun hdeclared₁ ↦ hdeclared (h.undeclared htype hdeclared₁),
      h.typeId hn hn₁ hdeclared]
  label {n p d value isImplicit owner} hmem hp hshape hn hlabel := by
    have hhas := has_of_isType hp
    obtain ⟨d₁, owner₁, hn₁, hid₁, hlabel₁⟩ := h.label hmem hp hshape hn hlabel
    -- a declaration stays in its slot
    obtain ⟨i, hi⟩ := List.mem_iff_getElem?.1 hmem
    have hmem₁ := mem_slots_of_child <| h.child (i := i) hp hshape (by rw [Tree.child, hi]; rfl)
      (by rw [hn]; exact not_inert_of_declaration)
    obtain ⟨d₂, owner₂, hn₂, hid₂, hlabel₂⟩ := h'.label hmem₁ ((h.isType_iff hhas).2 hp)
      (by rwa [Ne, h.shape?_iff (s := .enumeration) hhas nofun]) hn₁ hlabel₁
    exact ⟨d₂, owner₂, hn₂, hid₂.trans hid₁, hlabel₂⟩

end Kept

namespace Edited

theorem refl (t : Tree) : Edited t t where
  toKept := .refl t
  text h h' := by
    cases h.symm.trans h'
    rfl
  fresh hn h := absurd (has_of_kind (by simp [h])) hn

theorem trans (h : Edited t t₁) (h' : Edited t₁ t₂) : Edited t t₂ where
  toKept := h.toKept.trans h'.toKept
  text {n data data₂} hn hn₂ := by
    have hrefines := h.kind (has_of_kind (n := n) (by simp [hn]))
    rw [hn] at hrefines
    obtain ⟨data₁, hn₁, -⟩ := hrefines.of_type
    rw [h'.text hn₁ hn₂, h.text hn hn₁]
  fresh {n data₂} hn hn₂ := by
    by_cases hhas : t₁.Has n
    · obtain ⟨data₁, hn₁, hdata⟩ := h'.exists_type hhas hn₂
      obtain ⟨htext, hwildcard, hdecl⟩ := h.fresh hn hn₁
      refine ⟨(h'.text hn₁ hn₂).trans htext, hdata.wildcard.trans hwildcard, fun d hd hc ↦ ?_⟩
      have hc₁ := h'.bare hd hc (Tree.isType_iff.2 (.inl ⟨data₁, hn₁⟩))
      refine hdecl d ?_ hc₁
      rwa [← (h'.kind (has_of_child_eq hc₁)).isTypeDeclaration_eq]
    · exact h'.fresh hhas hn₂

end Edited

instance : IsPreorder Tree Edited where
  refl := .refl
  trans _ _ _ := .trans

/-! ## Edits keep a tree faithful -/

/-- The texts of the old tree are allowed in the new one. -/
theorem Kept.carries (h : Kept t t₁) (ht : t.Linked) :
    Carries t t₁ fun a b ↦ t.Has a ∧ Swapped t t₁ a b where
  same ha := ⟨ha, .inl rfl⟩
  type := by
    rintro a b data ⟨ha, hswap⟩ hkind
    obtain rfl := hswap.eq_of_not_inert (by
      rw [hkind]
      exact not_inert_of_isType (.inl rfl))
    have hrefines := h.kind ha
    rw [hkind] at hrefines
    obtain ⟨data', hkind', hdata⟩ := hrefines.of_type
    exact ⟨data', hkind', hdata.shape, hdata.wildcard, hdata.typeId, h.typeId hkind hkind'⟩
  qualified := by
    rintro a b q ⟨ha, hswap⟩ hkind
    obtain rfl := hswap.eq_of_not_inert (by
      rw [hkind]
      exact not_inert_of_isType (.inr rfl))
    have hrefines := h.kind ha
    rw [hkind] at hrefines
    exact hrefines.of_qualified
  declaration := by
    rintro a b d ⟨ha, hswap⟩ hkind
    obtain rfl := hswap.eq_of_not_inert (by
      rw [hkind]
      exact not_inert_of_declaration)
    have hrefines := h.kind ha
    rw [hkind] at hrefines
    exact hrefines.of_declaration
  inert := by
    rintro a b ⟨ha, rfl | ⟨-, -, hinert⟩⟩ hkind
    · exact (h.kind ha).inert_iff.2 hkind
    · exact hinert
  slots := by
    rintro a b ⟨ha, hswap⟩ htype hshape
    obtain rfl := hswap.eq_of_not_inert (not_inert_of_isType htype)
    have hhas : ∀ slot ∈ t.slots a, ∀ c, slot = some c → t.Has c := by
      rintro _ hmem c rfl
      exact ht.has_of_held hmem
    refine (List.forall₂_and_left _ _ |>.2 ⟨hhas, h.slots htype hshape⟩).imp ?_
    rintro slot slot' ⟨hslot, hrel⟩
    cases hrel with
    | none => exact .none
    | some hswap => exact .some ⟨hslot _ rfl, hswap⟩
  held := by
    rintro a b c d ⟨ha, hswap⟩ hkind hc htype hknown
    obtain rfl := hswap.eq_of_not_inert (by
      rw [hkind]
      exact not_inert_of_declaration)
    exact ⟨c, h.held hkind hc htype hknown, has_of_isType htype, .inl rfl⟩
  undeclared := by
    rintro a b data ⟨ha, hswap⟩ hkind hdeclared hdeclared'
    have htype : (t.kind a).IsType := Tree.isType_iff.2 (.inl ⟨data, hkind⟩)
    obtain rfl := hswap.eq_of_not_inert (not_inert_of_isType htype)
    exact hdeclared (h.undeclared htype hdeclared')
  label := by
    rintro a b p d value isImplicit owner ⟨ha, hswap⟩ hmem hp hshape hkind hlabel
    obtain rfl := hswap.eq_of_not_inert (by
      rw [hkind]
      exact not_inert_of_declaration)
    exact h.label hmem hp hshape hkind hlabel

theorem Kept.written (h : Kept t t₁) (ht : t.Linked) (hauto : t.PlainAuto) {x : String}
    (hx : t.Written n x) : t₁.Written n x :=
  (h.carries ht).written hauto hx ⟨has_of_isType (hx.known hauto).1, .inl rfl⟩

/-- A tree stays faithful if the texts that are recorded in old types are allowed, and the new types
are plain and not declared. -/
theorem Faithful.of_kept (hf : t.Faithful) (ht : t.Linked) (h : Kept t t₁)
    (htext : ∀ {n data data' x}, t.kind n = .type data → t₁.kind n = .type data' →
      data'.unification = some x → data.unification = some x ∨ t.Written n x)
    (hfresh : ∀ {n data}, ¬t.Has n → t₁.kind n = .type data →
      data.unification = none ∧ data.wildcard = false ∧
        ∀ d, (t₁.kind d).isTypeDeclaration = true → t₁.child d 0 ≠ some n) : t₁.Faithful := by
  refine ⟨fun {n data' x} hkind' hx ↦ ?_, fun {d u data'} hd hu hkind' hcompound ↦ ?_, ?_⟩
  · by_cases hn : t.Has n
    · obtain ⟨data, hkind, -⟩ := h.exists_type hn hkind'
      obtain hx | hx := htext hkind hkind' hx
      · exact h.written ht hf.plain (hf.written hkind hx)
      · exact h.written ht hf.plain hx
    · cases (hfresh hn hkind').1.symm.trans hx
  · by_cases hn : t.Has u
    · obtain ⟨data, hkind, hdata⟩ := h.exists_type hn hkind'
      have hu₀ := h.bare hd hu (Tree.isType_iff.2 (.inl ⟨data, hkind⟩))
      have hd₀ : (t.kind d).isTypeDeclaration = true := by
        rwa [← (h.kind (has_of_child_eq hu₀)).isTypeDeclaration_eq]
      rw [hdata.shape.category_eq] at hcompound
      obtain ⟨id, hid⟩ := ne_none_iff_exists'.1 (hf.stamped hd₀ hu₀ hkind hcompound)
      rw [hdata.typeId id hid]
      exact some_ne_none id
    · exact absurd hu ((hfresh hn hkind').2.2 d hd)
  · exact h.plainAuto hf.plain fun hn hkind' ↦ (hfresh hn hkind').2.1

theorem Edited.faithful (h : Edited t t₁) (ht : t.Linked) (hf : t.Faithful) : t₁.Faithful :=
  hf.of_kept ht h.toKept (fun hkind hkind' hx ↦ .inl ((h.text hkind hkind').symm.trans hx)) h.fresh

end

end Tree

end ProtocolIR
