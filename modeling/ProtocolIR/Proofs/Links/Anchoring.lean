import ProtocolIR.Proofs.Coercion.Calm

/-!
# What links lead to stays in the tree

Passes take nodes out of the tree, but only expressions, what expressions and literals are made of,
and types that were to be inferred. Declarations other than parameters, statements and items are
*fixtures*. They and the compound types hang on the root by edges of another sort, the *firm* ones,
and an edit is *sparing* if it leaves the firm edges alone.

A region is a set of nodes that is fixed while the tree changes: what was attached at the start, and
whatever is made later. In a *secure* region the fixtures have their places, compound types belong to
declarations, and links lead to what hangs on firm edges. Sparing edits keep a region secure.
-/

namespace ProtocolIR

open Option NodeKind

/-! ## Kinds -/

namespace DeclarationKind.Refines

variable {k k' : DeclarationKind}

theorem isParameter_eq (h : Refines k k') : k'.isParameter = k.isParameter := by cases h <;> rfl

theorem isLabel_eq (h : Refines k k') : k'.isLabel = k.isLabel := by cases h <;> rfl

theorem takesValue_eq (h : Refines k k') : k'.takesValue = k.takesValue := by cases h <;> rfl

end DeclarationKind.Refines

namespace NodeKind

/-- The slots for fixtures. A compound type is not a fixture, but it holds some. -/
def frames : NodeKind → Nat → Bool
  | root, _ | statement _, _ | item .switch, _ | item (.alternative _), _ => true
  | declaration d, i =>
    match d.kind with
    | .module => true
    | .function .. => i != 0
    | _ => false
  | type data, _ => data.shape.category.isCompound
  | _, _ => false

variable {k k' : NodeKind} {i : Nat}

theorem isLoose_iff : k.isLoose = true ↔ k.isFixture = false ∧ k.isCompound = false := by
  simp [isLoose]

theorem isLoose_eq_false_of_isFixture (h : k.isFixture = true) : k.isLoose = false := by
  simp [isLoose, h]

theorem isLoose_eq_false_of_isCompound (h : k.isCompound = true) : k.isLoose = false := by
  simp [isLoose, h]

theorem isLoose_of_isExpression (h : k.isExpression = true) : k.isLoose = true := by
  cases k <;> first | rfl | cases h

/-- Only fixtures and compound types hold fixtures. -/
theorem frames_of_isLoose (h : k.isLoose = true) : k.frames i = false := by
  cases k with
  | root | statement | item => cases h
  | declaration d =>
    obtain ⟨_, _, _, kind⟩ := d
    cases kind <;> first | rfl | cases h
  | type data => exact (isLoose_iff.1 h).2
  | _ => rfl

theorem isFirm_of_frames (h : k.frames i = true) : k.isFirm = true := by
  cases k with
  | root | statement | item | type => rfl
  | declaration d =>
    obtain ⟨_, _, _, kind⟩ := d
    cases kind <;> first | rfl | cases h
  | _ => cases h

theorem isExpression_of_isFixture (h : k.isFixture = true) : k.isExpression = false := by
  cases k <;> first | rfl | cases h

theorem isExpression_of_category {category : NodeCategory} (h : k.category = category)
    (hne : category ≠ .expression) : k.isExpression = false := by
  subst h
  cases k <;> first | rfl | exact absurd rfl hne

theorem isFirm_of_category (h : k.category = .qualified ∨ k.category = .type) : k.isFirm = true := by
  cases k <;> simp_all [isFirm, category]

theorem exists_type_of_isCompound (h : k.isCompound = true) : ∃ data, k = type data := by
  cases k with
  | type data => exact ⟨data, rfl⟩
  | _ => cases h

theorem isFixture_of_isLabel (h : k.isLabel = true) : k.isFixture = true := by
  cases k with
  | declaration d =>
    obtain ⟨_, _, _, kind⟩ := d
    cases kind <;> first | rfl | cases h
  | _ => cases h

theorem isFixture_of_isFunction (h : k.isFunction = true) :
    k.isFixture = true ∧ k.isFirm = true ∧ k.isLabel = false := by
  cases k with
  | declaration d =>
    obtain ⟨_, _, _, kind⟩ := d
    cases kind <;> first | exact ⟨rfl, rfl, rfl⟩ | cases h
  | _ => cases h

theorem isFixture_of_isTypeDeclaration (h : k.isTypeDeclaration = true) :
    k.isFixture = true ∧ k.isFirm = true ∧ k.isLabel = false := by
  obtain ⟨d, rfl, hd⟩ := Tree.isTypeDeclaration_iff.1 h
  simp [isFixture, isFirm, isLabel, declaration?, hd, DeclarationKind.isParameter,
    DeclarationKind.takesValue, DeclarationKind.isLabel]

namespace Refines

variable (h : Refines k k')

include h

theorem isLabel_eq : k'.isLabel = k.isLabel := by
  cases h with
  | declaration hd => exact hd.kind.isLabel_eq
  | _ => rfl

theorem isFixture_eq : k'.isFixture = k.isFixture := by
  cases h with
  | declaration hd => exact congrArg (!·) hd.kind.isParameter_eq
  | _ => rfl

theorem isCompound_eq : k'.isCompound = k.isCompound := by
  cases h with
  | type hdata => exact congrArg TypeCategory.isCompound hdata.shape.category_eq
  | _ => rfl

theorem isLoose_eq : k'.isLoose = k.isLoose := by
  unfold isLoose
  rw [h.isFixture_eq, h.isCompound_eq]

theorem frames_eq (i : Nat) : k'.frames i = k.frames i := by
  cases h with
  | @declaration d d' hd =>
    obtain ⟨_, _, _, kind⟩ := d
    obtain ⟨_, _, _, kind'⟩ := d'
    cases hd.kind <;> rfl
  | type hdata => exact congrArg TypeCategory.isCompound hdata.shape.category_eq
  | _ => rfl

theorem isFirm_eq : k'.isFirm = k.isFirm := by
  cases h with
  | declaration hd => exact congrArg (!·) hd.kind.takesValue_eq
  | _ => rfl

theorem isFunction_eq : k'.isFunction = k.isFunction := by
  cases h with
  | @declaration d d' hd =>
    obtain ⟨_, _, _, kind⟩ := d
    obtain ⟨_, _, _, kind'⟩ := d'
    cases hd.kind <;> rfl
  | _ => rfl

theorem isExpression_eq : k'.isExpression = k.isExpression := by cases h <;> rfl

end Refines

end NodeKind

namespace Tree

variable {t t' : Tree} {n p c u : NodeId} {i : Nat} {region : NodeId → Prop}

theorem Linked.exists_child (ht : t.Linked) (hp : t.parent c = some p) : ∃ i, t.child p i = some c :=
  exists_child_of_held (ht.held hp)

theorem has_of_isCompound (h : (t.kind n).isCompound = true) : t.Has n :=
  has_of_kind fun hroot ↦ by rw [hroot] at h; cases h

theorem has_of_mem_links {link : Link} (h : link ∈ (t.kind n).links) : t.Has n :=
  has_of_kind fun hroot ↦ by rw [hroot] at h; cases h

/-! ## Firm edges -/

/-- A node hangs on the root by firm edges. -/
inductive Anchored (t : Tree) : NodeId → Prop
  | root : Anchored t root
  | child {p c : NodeId} {i : Nat} : Anchored t p → t.child p i = some c → (t.kind p).isFirm = true →
      (t.kind c).isExpression = false → Anchored t c

theorem Anchored.within (ht : t.Linked) (h : t.Anchored n) : t.Within Tree.root n := by
  induction h with
  | root => exact .here
  | child _ hc _ _ ih => exact .beneath (ht.parent_of_child hc) ih

/-- A declaration or an item that hangs on firm edges. -/
structure Lasting (t : Tree) (n : NodeId) : Prop where
  anchored : t.Anchored n
  target : (t.kind n).category = .declaration ∨ (t.kind n).category = .item

/-- A link to something that lasts. The canonical ID that it has captured is the one there is. -/
structure Lasts (t : Tree) (link : Link) : Prop where
  anchored : t.Anchored link.node
  target : (∃ d, t.kind link.node = .declaration d ∧ Settled link.canonicalId d.canonicalId) ∨
    ∃ item, t.kind link.node = .item item

theorem Lasting.lasts (h : t.Lasting n) : t.Lasts (t.linkTo n) where
  anchored := h.anchored
  target := by
    cases hkind : t.kind n with
    | declaration d =>
      refine .inl ⟨d, hkind, ?_⟩
      unfold linkTo
      rw [declaration?_eq_some_iff.2 hkind]
      exact .refl _
    | item item => exact .inr ⟨item, hkind⟩
    | _ => simpa [hkind, category] using h.target

theorem Lasting.of_declaration {d : Declaration} (h : t.Anchored n) (hd : t.declaration? n = some d) :
    t.Lasting n :=
  ⟨h, .inl (by rw [declaration?_eq_some_iff.1 hd]; rfl)⟩

theorem Lasts.linkTarget {link : Link} (h : t.Lasts link) (ht : t.Coherent) :
    t.linkTarget link = some link.node := by
  have hattached : t.isAttached link.node = true :=
    ht.isWithin_iff.2 (h.anchored.within ht.toLinked)
  obtain ⟨d, hkind, hid⟩ | ⟨item, hkind⟩ := h.target
  · have hhas : link.node.index < t.size := has_of_kind (by simp [hkind])
    have hsame : sameOrUnknown link.canonicalId d.canonicalId = true := by
      cases hcaptured : link.canonicalId with
      | none => rfl
      | some id => rw [hid id hcaptured]; exact beq_self_eq_true id
    unfold Tree.linkTarget
    rw [if_pos hhas, hkind]
    simp only [hsame, hattached, Bool.and_self, if_true]
  · have hhas : link.node.index < t.size := has_of_kind (by simp [hkind])
    unfold Tree.linkTarget
    rw [if_pos hhas, hkind]
    simp only [hattached, if_true]

/-- A type is the qualified type of a type declaration. -/
def Owned (t : Tree) (u : NodeId) : Prop :=
  ∃ q ∈ t.parent u, ∃ d ∈ t.parent q, (t.kind d).isTypeDeclaration = true ∧ t.child d 0 = some q ∧
    (t.kind q).category = .qualified ∧ t.child q 0 = some u

instance : Decidable (t.Owned u) := inferInstanceAs (Decidable (∃ q ∈ t.parent u, _))

theorem Linked.owned (ht : t.Linked) {d q : NodeId} (hd : (t.kind d).isTypeDeclaration = true)
    (hq : t.child d 0 = some q) (hkind : (t.kind q).category = .qualified) (hu : t.child q 0 = some u) :
    t.Owned u :=
  ⟨q, ht.parent_of_child hu, d, ht.parent_of_child hq, hd, hq, hkind, hu⟩

/-- The declaration is the one whose name stands for the type. -/
theorem Owned.exists_declarationOf (h : t.Owned u) : ∃ d, Surgery.declarationOf t u = some d := by
  obtain ⟨q, hq, d, hd, hdecl, hchild, hkind, hu⟩ := h
  refine ⟨d, filter_eq_some_iff.2 ⟨bind_eq_some_iff.2 ⟨q, hq, hd⟩, beq_iff_eq.2 ?_⟩⟩
  refine declaredType_eq_some_iff.2 ⟨hdecl, q, hchild, ?_⟩
  cases hqualified : t.kind q with
  | qualified => rw [unqualified_of_qualified hqualified, hu]
  | _ => rw [hqualified] at hkind; cases hkind

/-- The declared type of a function is a qualified type. -/
def Signed (t : Tree) (n : NodeId) : Prop :=
  ∃ q ∈ t.child n 0, (t.kind q).category = .qualified ∧ ∃ f ∈ t.child q 0, (t.kind f).category = .type

instance : Decidable (t.Signed n) := inferInstanceAs (Decidable (∃ q ∈ t.child n 0, _))

/-! ## Secure regions -/

/-- In a region fixtures and compound types have their places, and links lead to what lasts. A label
that is made anew is free for a moment. -/
structure Secure (region : NodeId → Prop) (t : Tree) : Prop extends Linked t where
  new : ∀ {n}, ¬t.Has n → region n
  top : region root
  below : ∀ {n c i}, region n → t.child n i = some c → region c
  above : ∀ {n p}, region n → t.parent n = some p → region p
  framed : ∀ {n c i}, region n → t.child n i = some c → (t.kind c).isFixture = true →
    (t.kind n).frames i = true
  labelled : ∀ {n c i}, region n → t.child n i = some c → (t.kind c).isLabel = true →
    (t.kind n).isCompound = true
  owned : ∀ {u}, region u → (t.kind u).isCompound = true → t.Owned u
  signed : ∀ {n}, region n → (t.kind n).isFunction = true → t.Signed n
  anchored : ∀ {n}, region n → t.Has n → (t.kind n).isLoose = false →
    ((t.kind n).isLabel = true → t.parent n ≠ none) → t.Anchored n
  links : ∀ {n link}, region n → link ∈ (t.kind n).links → t.Lasts link

/-- What may come into a slot: a loose node, or a fixture into a slot for it. -/
structure Fits (region : NodeId → Prop) (t t' : Tree) (n : NodeId) (i : Nat) (c : NodeId) : Prop where
  holder : region n
  held : region c
  fixture : (t'.kind c).isFixture = true →
    t.Anchored n ∧ (t'.kind n).frames i = true ∧ ((t'.kind c).isLabel = true → (t'.kind n).isCompound = true)

/-- An edit that leaves the firm edges alone. -/
structure KeepsFirm (t t' : Tree) : Prop extends Refines t t' where
  spared : ∀ {n c i}, (t.kind n).isFirm = true → t.child n i = some c →
    (t.kind c).isExpression = false → t'.child n i = some c

/-- An edit that moreover makes loose nodes and labels only, and records only links to what lasts. -/
structure Sparing (region : NodeId → Prop) (t t' : Tree) : Prop extends KeepsFirm t t' where
  linked : t'.Linked
  placed : ∀ {n c i}, t'.child n i = some c → t.child n i = some c ∨ Fits region t t' n i c
  made : ∀ {n}, ¬t.Has n → t'.Has n → (t'.kind n).isCompound = false ∧
    ((t'.kind n).isFixture = true → (t'.kind n).isLabel = true)
  links : ∀ {n link}, region n → link ∈ (t'.kind n).links → link ∈ (t.kind n).links ∨ t.Lasts link

theorem Fits.of_isLoose (hn : region n) (hc : region c) (hloose : (t'.kind c).isLoose = true) :
    Fits region t t' n i c where
  holder := hn
  held := hc
  fixture h := by
    rw [(isLoose_iff.1 hloose).1] at h
    cases h

namespace KeepsFirm

variable (h : KeepsFirm t t') (ht : t.Linked)

include h ht

theorem anchored (ha : t.Anchored n) : t'.Anchored n := by
  induction ha with
  | root => exact .root
  | child _ hc hfirm hexpression ih =>
    refine .child ih (h.spared hfirm hc hexpression) ?_ ?_
    · rw [(h.kind (has_of_child_eq hc)).isFirm_eq, hfirm]
    · rw [(h.kind (ht.has_of_child hc)).isExpression_eq, hexpression]

theorem lasting (hn : t.Lasting n) : t'.Lasting n where
  anchored := h.anchored ht hn.anchored
  target := by
    have hhas : t.Has n := has_of_kind fun hroot ↦ by
      simpa [hroot, category] using hn.target
    rw [(h.kind hhas).category_eq]
    exact hn.target

theorem lasts {link : Link} (hlink : t.Lasts link) : t'.Lasts link where
  anchored := h.anchored ht hlink.anchored
  target := by
    obtain ⟨d, hkind, hid⟩ | ⟨item, hkind⟩ := hlink.target
    · have hrefines := h.kind (n := link.node) (has_of_kind (by simp [hkind]))
      rw [hkind] at hrefines
      obtain ⟨d', hkind', hd⟩ := hrefines.of_declaration
      exact .inl ⟨d', hkind', hid.trans hd.canonicalId⟩
    · have hrefines := h.kind (n := link.node) (has_of_kind (by simp [hkind]))
      rw [hkind] at hrefines
      generalize t'.kind link.node = kind at hrefines ⊢
      cases hrefines
      exact .inr ⟨item, rfl⟩

theorem signed (hfunction : (t.kind n).isFunction = true) (hn : t.Signed n) : t'.Signed n := by
  obtain ⟨q, hq, hqualified, f, hf, htype⟩ := hn
  have hfirm := (isFixture_of_isFunction hfunction).2.1
  refine ⟨q, h.spared hfirm hq (isExpression_of_category hqualified (by decide)), ?_, f, ?_, ?_⟩
  · rw [(h.kind (ht.has_of_child hq)).category_eq, hqualified]
  · exact h.spared (isFirm_of_category (.inl hqualified)) hf
      (isExpression_of_category htype (by decide))
  · rw [(h.kind (ht.has_of_child hf)).category_eq, htype]

end KeepsFirm

namespace Sparing

variable {region : NodeId → Prop} (h : Sparing region t t')

include h

/-- Both edges to a compound type of a declaration are firm. -/
theorem owned (hcompound : (t.kind u).isCompound = true) (howned : t.Owned u) : t'.Owned u := by
  obtain ⟨q, hq, d, hd, hdecl, hchild, hkind, hu⟩ := howned
  have hqualified := (h.kind (has_of_child_eq hu)).category_eq
  refine h.linked.owned (q := q) (d := d) ?_ (h.spared ?_ hchild ?_) (hqualified.trans hkind)
    (h.spared ?_ hu ?_)
  · rw [(h.kind (has_of_child_eq hchild)).isTypeDeclaration_eq, hdecl]
  · exact (isFixture_of_isTypeDeclaration hdecl).2.1
  · exact isExpression_of_category hkind (by decide)
  · exact isFirm_of_category (.inl hkind)
  · obtain ⟨data, htype⟩ := exists_type_of_isCompound hcompound
    rw [htype]
    rfl

/-- What has come into a slot for it hangs where its holder hangs. -/
theorem anchored_of_fits (ht : t.Linked) (hc : t'.child n i = some c) (hfits : Fits region t t' n i c)
    (hfixture : (t'.kind c).isFixture = true) : t'.Anchored c := by
  obtain ⟨hanchored, hframes, -⟩ := hfits.fixture hfixture
  exact .child (h.anchored ht hanchored) hc (isFirm_of_frames hframes)
    (isExpression_of_isFixture hfixture)

end Sparing

/-- Sparing edits keep a region secure. -/
theorem Secure.spare (hs : Secure region t) (h : Sparing region t t') :
    Secure region t' where
  toLinked := h.linked
  new hn := hs.new fun hhas ↦ hn (h.has hhas)
  top := hs.top
  below hn hc := (h.placed hc).elim (hs.below hn) Fits.held
  above {n p} hn hp := by
    obtain ⟨i, hc⟩ := h.linked.exists_child hp
    exact (h.placed hc).elim (fun hc ↦ hs.above hn (hs.parent_of_child hc)) Fits.holder
  framed {n c i} hn hc hfixture := by
    rcases h.placed hc with hc | hfits
    · rw [(h.kind (hs.has_of_child hc)).isFixture_eq] at hfixture
      rw [(h.kind (has_of_child_eq hc)).frames_eq]
      exact hs.framed hn hc hfixture
    · exact (hfits.fixture hfixture).2.1
  labelled {n c i} hn hc hlabel := by
    rcases h.placed hc with hc | hfits
    · rw [(h.kind (hs.has_of_child hc)).isLabel_eq] at hlabel
      rw [(h.kind (has_of_child_eq hc)).isCompound_eq]
      exact hs.labelled hn hc hlabel
    · exact (hfits.fixture (isFixture_of_isLabel hlabel)).2.2 hlabel
  owned {u} hu hcompound := by
    by_cases hhas : t.Has u
    · rw [(h.kind hhas).isCompound_eq] at hcompound
      exact h.owned hcompound (hs.owned hu hcompound)
    · rw [(h.made hhas (has_of_isCompound hcompound)).1] at hcompound
      cases hcompound
  signed {n} hn hfunction := by
    obtain ⟨hfixture, -, hlabel⟩ := isFixture_of_isFunction hfunction
    by_cases hhas : t.Has n
    · rw [(h.kind hhas).isFunction_eq] at hfunction
      exact h.signed hs.toLinked hfunction (hs.signed hn hfunction)
    · rw [(h.made hhas (has_of_isFunction hfunction)).2 hfixture] at hlabel
      cases hlabel
  anchored {n} hn hhas' hloose hfree := by
    -- a label that is held now was held before, or has come into its slot
    have hlabel (hlabel : (t'.kind n).isLabel = true) : t'.Anchored n ∨ t.Has n ∧ t.parent n ≠ none := by
      obtain ⟨p, hp⟩ := ne_none_iff_exists'.1 (hfree hlabel)
      obtain ⟨i, hc⟩ := h.linked.exists_child hp
      rcases h.placed hc with hold | hfits
      · refine .inr ⟨hs.has_of_child hold, ?_⟩
        rw [hs.parent_of_child hold]
        exact some_ne_none p
      · exact .inl (h.anchored_of_fits hs.toLinked hc hfits (isFixture_of_isLabel hlabel))
    by_cases hhas : t.Has n
    · rw [(h.kind hhas).isLoose_eq] at hloose
      rw [(h.kind hhas).isLabel_eq] at hlabel
      by_cases hl : (t.kind n).isLabel = true
      · exact (hlabel hl).elim id fun hheld ↦
          h.anchored hs.toLinked (hs.anchored hn hhas hloose fun _ ↦ hheld.2)
      · exact h.anchored hs.toLinked (hs.anchored hn hhas hloose fun hl' ↦ absurd hl' hl)
    · obtain ⟨hplain, hfixture⟩ := h.made hhas hhas'
      have hfix : (t'.kind n).isFixture = true := by simpa [isLoose, hplain] using hloose
      exact (hlabel (hfixture hfix)).resolve_right fun hold ↦ hhas hold.1
  links hn hlink := h.lasts hs.toLinked ((h.links hn hlink).elim (hs.links hn) id)

end Tree

end ProtocolIR
