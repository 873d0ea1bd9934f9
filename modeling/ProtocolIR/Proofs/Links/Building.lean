import ProtocolIR.Proofs.Learning
import ProtocolIR.Proofs.Links.Listing
import ProtocolIR.Proofs.Links.Reading

/-!
# What passes build is loose

References to types are names of declarations, which last, or copies of types without declarations in
them. From these and from new nodes around them passes build types, literals and expressions beside
the tree. No fixture and no compound type is among what is built, so the region stays indexed.
-/

namespace ProtocolIR

open Tree List Option NodeKind

namespace Tree

variable {t t₁ t₂ : Tree} {n c u : NodeId} {i : Nat} {slots : List (Option NodeId)} {region : NodeId → Prop}

/-- The tree has grown by loose pieces for some slots. -/
structure Made (region : NodeId → Prop) (t t' : Tree) (slots : List (Option NodeId)) : Prop extends
    Growth t t', Pieces t t' slots where
  indexed : Indexed region t'
  loose : ∀ {c}, some c ∈ slots → region c ∧ (t'.kind c).isLoose = true

namespace Made

variable {kind : NodeKind}

theorem nil (hi : Indexed region t) : Made region t t [] :=
  ⟨.refl t, .nil t t, hi, fun hc ↦ absurd hc not_mem_nil⟩

theorem none (hi : Indexed region t) : Made region t t [none] :=
  ⟨.refl t, (Pieces.nil t t).cons_none, hi, by simp⟩

/-- One piece after the other. -/
theorem cons {slot : Option NodeId} (h : Made region t t₁ [slot]) (h' : Made region t₁ t₂ slots) :
    Made region t t₂ (slot :: slots) where
  toGrowth := h.toGrowth.trans h'.toGrowth
  toPieces := by
    cases slot with
    | none => exact (h'.toPieces.weaken h.toGrowth).cons_none
    | some c => exact .cons_some (h.piece (mem_singleton_self _)) h.toGrowth h'.toGrowth h'.toPieces
  indexed := h'.indexed
  loose {c} hc := by
    rcases mem_cons.1 hc with rfl | hc
    · have hmem := mem_singleton_self (some c)
      rw [h'.kind_eq (h.piece hmem).has]
      exact h.loose hmem
    · exact h'.loose hc

theorem create {location : Option Location} (h : Made region t t₁ slots)
    (hcreate : t₁.create kind slots location = .ok (c, t₂)) (hkind : kind.isLoose = true)
    (hlinks : ∀ link ∈ kind.links, t₁.Lasts link) : Made region t t₂ [some c] where
  toGrowth := h.toGrowth.create h.toPieces hcreate
  toPieces := .single (piece_create h.toGrowth h.toPieces hcreate)
  indexed := by
    obtain ⟨hfixture, hcompound⟩ := isLoose_iff.1 hkind
    refine h.indexed.create hcreate (fun d hd ↦ ⟨(h.piece hd).has, h.loose hd⟩) h.nodup
      ⟨hcompound, fun hf ↦ ?_⟩ hlinks
    rw [hfixture] at hf
    cases hf
  loose hd := by
    cases mem_singleton.1 hd
    exact ⟨h.indexed.new (not_has_create hcreate), by rwa [kind_create_self hcreate]⟩

variable (h : Made region t t₁ [some c])

include h

/-- A fact about the piece is recorded. -/
theorem setKind (hkind : (t₁.kind c).Refines kind)
    (hlinks : ∀ link ∈ kind.links, link ∈ (t₁.kind c).links ∨ t₁.Lasts link) :
    Made region t (t₁.setKind c kind) [some c] where
  toGrowth := h.toGrowth.setKind (h.piece (mem_singleton_self _)).new kind
  toPieces := .single ((h.piece (mem_singleton_self _)).setKind c kind)
  indexed := h.indexed.setKind hkind hlinks
  loose hd := by
    cases mem_singleton.1 hd
    obtain ⟨hregion, hloose⟩ := h.loose hd
    rw [kind_setKind, if_pos ⟨rfl, (h.piece hd).has⟩, hkind.isLoose_eq]
    exact ⟨hregion, hloose⟩

theorem unifyType : Made region t (t₁.unifyType c).2 [some c] where
  toGrowth := h.toGrowth.unifyType (h.piece (mem_singleton_self _)).new
  toPieces := .single (h.piece (mem_singleton_self _)).unifyType
  indexed := h.indexed.unifyType
  loose hd := by
    cases mem_singleton.1 hd
    obtain ⟨hregion, hloose⟩ := h.loose hd
    rw [((Refines.of_unifyType t₁ c).kind (h.piece hd).has).isLoose_eq]
    exact ⟨hregion, hloose⟩

/-- Comments are not looked at. -/
theorem setComments (comments : List String) :
    Made region t (t₁.setComments c comments) [some c] := by
  have hpiece := h.piece (mem_singleton_self _)
  have hlinks : SameLinks t₁ (t₁.setComments c comments) := ⟨fun m ↦ by simp, fun m ↦ by simp⟩
  have hsize : (t₁.setComments c comments).size = t₁.size := size_modifyNode ..
  refine ⟨h.toGrowth.setComments hpiece.new comments, .single (hpiece.setComments c comments),
    h.indexed.spare (.of_sameLinks h.indexed.toLinked ⟨Nat.le_of_eq hsize.symm, fun {m} _ ↦ ?_⟩ hlinks hsize
      fun hlink ↦ .inl (by simpa using hlink)) rfl, fun hd ↦ by simpa using h.loose hd⟩
  rw [kind_setComments]
  exact .same _

end Made

end Tree

/-! ## Making nodes -/

section

variable {t t₁ t' : Tree} {n c u dst old : NodeId} {slots : List (Option NodeId)}
  {region : NodeId → Prop} {kind : NodeKind} {operands : List NodeId} {location : Option Location}
  {l : Literal}

theorem ensures_unifyType {n : NodeId} {p : Bool → Tree → Prop}
    (h : p (t.unifyType n).1 (t.unifyType n).2) : Ensures (Surgery.unifyType n) t p := by
  intro b t' hrun
  have heq : t.unifyType n = (b, t') := Except.ok.inj hrun
  rwa [heq] at h

theorem ensures_create_made (location : Option Location) (h : Made region t t₁ slots)
    (hkind : kind.isLoose = true) (hlinks : ∀ link ∈ kind.links, t₁.Lasts link) :
    Ensures (Surgery.create kind slots location) t₁ fun c t₂ ↦ Made region t t₂ [some c] :=
  (ensures_create_eq kind slots location).mono fun _ _ hcreate ↦ h.create hcreate hkind hlinks

theorem ensures_create_plain (location : Option Location) (h : Made region t t₁ slots)
    (hkind : kind.isLoose = true) (hlinks : kind.links = []) :
    Ensures (Surgery.create kind slots location) t₁ fun c t₂ ↦ Made region t t₂ [some c] := by
  refine ensures_create_made location h hkind fun link hlink ↦ ?_
  rw [hlinks] at hlink
  cases hlink

theorem ensures_qualified_made (q : Qualifiers) (location : Option Location) (h : Made region t t₁ [some c]) :
    Ensures (Surgery.create (.qualified q) [some c] location) t₁ fun c t₂ ↦ Made region t t₂ [some c] :=
  ensures_create_plain location h rfl rfl

/-! ## Copies -/

/-- A loose node around loose nodes. -/
structure Tree.Portable (region : NodeId → Prop) (t : Tree) (n : NodeId) : Prop where
  region : region n
  loose : (t.kind n).isLoose = true
  parts : ∀ {i c}, t.child n i = some c → (t.kind c).isLoose = true

theorem Tree.Portable.grow (ht : t.Linked) (hg : Growth t t') (h : Portable region t n) :
    Portable region t' n := by
  have hhas : t.Has n := has_of_kind fun hroot ↦ by
    have hloose := h.loose
    rw [hroot] at hloose
    cases hloose
  refine ⟨h.region, by rw [hg.kind_eq hhas]; exact h.loose, fun {i c} hc ↦ ?_⟩
  rw [child_congr (hg.slots_eq hhas)] at hc
  rw [hg.kind_eq (ht.has_of_child hc)]
  exact h.parts hc

theorem Tree.Growth.keepsFirm (hg : Growth t t') : KeepsFirm t t' where
  toRefines := .of_growth hg
  spared _ hc _ := by rwa [child_congr (hg.slots_eq (has_of_child_eq hc))]

theorem Tree.TypeLike.grow (hg : Growth t t') (h : TypeLike region t n) : TypeLike region t' n :=
  ⟨h.region, by rw [hg.kind_eq h.has]; exact h.plain⟩

namespace Tree.Secure

variable (hs : Secure region t)

include hs

/-- The parts of what is held by a loose node are loose: a compound type is held by the qualified type
of a declaration. -/
theorem portable_of_child {i : Nat} (hn : Portable region t n) (hc : t.child n i = some c) :
    Portable region t c := by
  refine ⟨hs.below hn.region hc, hn.parts hc, fun {j d} hd ↦ isLoose_iff.2 ⟨?_, ?_⟩⟩
  · exact hs.isFixture_of_child (hs.below hn.region hc) hd (frames_of_isLoose (hn.parts hc))
  · refine Bool.eq_false_iff.2 fun hcompound ↦ ?_
    obtain ⟨q, hq, p, hp, hdecl, -⟩ := hs.owned (hs.below (hs.below hn.region hc) hd) hcompound
    cases (hs.parent_of_child hd).symm.trans hq
    cases (hs.parent_of_child hc).symm.trans hp
    have hloose := hn.loose
    rw [isLoose_eq_false_of_isFixture (isFixture_of_isTypeDeclaration hdecl).1] at hloose
    cases hloose

/-- A type that no declaration declares can be copied. -/
theorem portable_of_typeLike (hn : TypeLike region t n)
    (hfree : ∀ u, t.unqualified n = some u → Surgery.declarationOf t u = none) : Portable region t n := by
  have howned {u : NodeId} (hu : t.unqualified n = some u) : ¬t.Owned u := fun howned ↦ by
    obtain ⟨d, hd⟩ := howned.exists_declarationOf
    rw [hfree u hu] at hd
    cases hd
  have hloose : (t.kind n).isLoose = true := by
    refine isLoose_iff.2 ⟨hn.plain, Bool.eq_false_iff.2 fun hcompound ↦ ?_⟩
    obtain ⟨data, hkind⟩ := exists_type_of_isCompound hcompound
    exact howned (unqualified_of_type hkind) (hs.owned hn.region hcompound)
  refine ⟨hn.region, hloose, fun {i c} hc ↦ ?_⟩
  refine isLoose_iff.2 ⟨hs.isFixture_of_child hn.region hc (frames_of_isLoose hloose), ?_⟩
  refine Bool.eq_false_iff.2 fun hcompound ↦ ?_
  have hregion := hs.below hn.region hc
  obtain ⟨q, hq, d, -, -, -, hqualified, hu⟩ := hs.owned hregion hcompound
  cases (hs.parent_of_child hc).symm.trans hq
  cases hkind : t.kind n with
  | qualified => exact howned ((unqualified_of_qualified hkind).trans hu) (hs.owned hregion hcompound)
  | _ => rw [hkind] at hqualified; cases hqualified

theorem lasting_of_declarationOf {d : NodeId} (hu : region u) (hd : Surgery.declarationOf t u = some d) :
    t.Lasting d ∧ ∃ data, t.declaration? d = some data := by
  obtain ⟨hparents, hdeclared⟩ := filter_eq_some_iff.1 hd
  obtain ⟨q, hq, hd⟩ := bind_eq_some_iff.1 hparents
  obtain ⟨htype, -⟩ := declaredType_eq_some_iff.1 (eq_of_beq hdeclared)
  obtain ⟨data, hkind, -⟩ := isTypeDeclaration_iff.1 htype
  obtain ⟨hfixture, -, hlabel⟩ := isFixture_of_isTypeDeclaration htype
  have hdata := declaration?_eq_some_iff.2 hkind
  refine ⟨.of_declaration ?_ hdata, data, hdata⟩
  exact hs.anchored_of_kind (hs.above (hs.above hu hq) hd) (by simp [hkind])
    (isLoose_eq_false_of_isFixture hfixture) hlabel

end Tree.Secure

theorem Tree.Duplicated.made {slots' : List (Option NodeId)} (h : Duplicated slots t slots' t') (hi : Indexed region t)
    (hslots : ∀ n, some n ∈ slots → Portable region t n) : Made region t t' slots' := by
  induction h with
  | nil => exact .nil hi
  | empty _ ih => exact Made.cons (.none hi) (ih hi fun n hn ↦ hslots n (mem_cons_of_mem _ hn))
  | @node n _ _ _ _ _ t₁ _ _ _ hcreate _ ihparts ih =>
    have hn := hslots n mem_cons_self
    have hparts := ihparts hi fun c hc ↦
      (exists_child_of_held hc).elim fun _ hchild ↦ hi.portable_of_child hn hchild
    have hnode := (hparts.create hcreate (hn.grow hi.toLinked hparts.toGrowth).loose fun link hlink ↦
      hparts.indexed.links hn.region hlink).setComments (t₁.node n).comments
    exact hnode.cons (ih hnode.indexed fun m hm ↦
      (hslots m (mem_cons_of_mem _ hm)).grow hi.toLinked hnode.toGrowth)

section

variable (hi : Indexed region t)

include hi

theorem ensures_copy_made (hn : Portable region t n) :
    Ensures (Surgery.copy n) t fun c t' ↦ Made region t t' [some c] :=
  (safe_copy n t).ensures.mono fun _ _ h ↦ h.made hi fun m hm ↦ by
    cases mem_singleton.1 hm
    exact hn

/-! ## References to types -/

theorem ensures_typeReference_made (hn : TypeLike region t n) :
    Ensures (Surgery.typeReference n) t fun c t' ↦ Made region t t' [some c] := by
  unfold Surgery.typeReference
  refine ensures_get_bind ?_
  split
  next hnone =>
    refine ensures_copy_made hi (hi.portable_of_typeLike hn fun u hu ↦ ?_)
    rw [hu] at hnone
    exact map_eq_none_iff.1 hnone
  next u decl hsome =>
    obtain ⟨v, hv, hdecl⟩ := bind_eq_some_iff.1 hsome
    obtain ⟨d, hd, heq⟩ := map_eq_some_iff.1 hdecl
    cases heq
    have hregion := (hi.typeLike_unqualified hn.region hv).region
    obtain ⟨hlasting, data, hdata⟩ := hi.lasting_of_declarationOf hregion hd
    rw [hdata]
    refine (ensures_create_made _ (.nil hi) rfl fun link hlink ↦ ?_).bind fun name t₁ hname ↦ ?_
    · cases mem_singleton.1 hlink
      exact hlasting.lasts
    · split
      next q _ => exact ensures_qualified_made q _ hname
      · exact ensures_pure hname

/-- A type without parts and links, as a value. -/
theorem ensures_plainValueType_made {shape : TypeShape} (constness : Constness)
    (hloose : (type { shape }).isLoose = true)
    (hlinks : (type { shape }).links = []) :
    Ensures (Surgery.plainValueType shape constness) t fun c t' ↦ Made region t t' [some c] := by
  refine (ensures_create_plain none (.nil hi) hloose hlinks).bind fun u t₁ hu ↦ ?_
  have hunified := ensures_unifyType (p := fun _ t₂ ↦ Made region t t₂ [some u]) hu.unifyType
  exact (Ensures.map hunified).bind fun _ t₂ hu ↦ ensures_qualified_made _ _ hu

end

/-! ## Results of operators -/

/-- A result that has a type of its own has one without members and links. -/
def ResultRule.isPlain : ResultRule → Bool
  | .type shape => (NodeKind.type { shape }).isLoose && (NodeKind.type { shape }).links.isEmpty
  | _ => true

def Registry.PlainResults (r : Registry) : Prop := ∀ op ∈ r.operators.toList, op.result.isPlain = true

instance (r : Registry) : Decidable r.PlainResults :=
  inferInstanceAs (Decidable (∀ op ∈ r.operators.toList, op.result.isPlain = true))

/-! ## Sources -/

/-- What may be built from in a region. -/
def Tree.linking (region : NodeId → Prop) (t : Tree) : Sources where
  type := TypeLike region t
  literal := Portable region t
  shape shape := (NodeKind.type { shape }).isLoose = true ∧ (NodeKind.type { shape }).links = []

theorem Tree.Secure.portable_of_literal (hs : Secure region t) (hn : region n)
    (hl : t.literal? n = some l) : Portable region t n := by
  have hkind := literal?_eq_some_iff.1 hl
  refine ⟨hn, by rw [hkind]; rfl, fun hc ↦ hs.isLoose_of_child hn hc (by rw [hkind]; rfl) ?_⟩
  rw [hkind]
  exact nofun

/-- What an optional type holds may be taken for a type. -/
theorem Tree.Secure.targets (hs : Secure region t) : (t.linking region).Targets t (TypeLike region t) where
  type {dst t'} hdst hg := by
    rw [unqualified_congr (hg.kind_eq hdst.has) (hg.slots_eq hdst.has)]
    cases hu : t.unqualified dst with
    | none => exact hdst
    | some u => exact hs.typeLike_unqualified hdst.region hu
  element {dst d element} hdst hd hoptional hc := by
    refine hs.typeLike_of_child (hs.typeLike_follow hdst.region hd).region hc ?_
    cases hkind : t.kind d with
    | type data =>
      rw [shape?_eq_some_iff.2 ⟨data, hkind, rfl⟩] at hoptional
      rw [frames, show data.shape = .optional from hoptional]
      rfl
    | _ => simp [shape?, typeData?, hkind] at hoptional

theorem Tree.Indexed.lasts_of_finds {link : Link} (hi : Indexed region t) (h : t.FindsLink link) :
    t.Lasts link := by
  obtain ⟨d, hd, rfl⟩ := h
  exact (hi.listed hd.lists).lasts

/-- What is built beside a tree that has grown from what there was in the region is loose. -/
theorem Crafted.made {t₀ : Tree} {cs : List NodeId} (h : Crafted (t₀.linking region) t t' cs) (ht₀ : t₀.Linked)
    (hg : Growth t₀ t) (hi : Indexed region t) : Made region t t' (cs.map some) := by
  induction h with
  | nil => exact .nil hi
  | reference hn hrun => exact ensures_typeReference_made hi (hn.grow hg) _ _ hrun
  | plain hshape hrun => exact ensures_plainValueType_made hi _ hshape.1 hshape.2 _ _ hrun
  | copy hn hrun => exact ensures_copy_made hi (hn.grow ht₀ hg) _ _ hrun
  | node _ hkind hcreate ih =>
    refine (ih hg hi).create hcreate hkind.loose fun link hlink ↦ ?_
    rw [hkind.links] at hlink
    cases hlink
  | link _ hkind hlink ih =>
    have hmade := ih hg hi
    refine hmade.setKind ?_ fun l hl ↦ .inr ?_
    · rw [hkind]
      exact .type ⟨.name (.of_none _), rfl, .refl _, .refl _⟩
    · cases mem_singleton.1 hl
      exact hmade.toGrowth.keepsFirm.lasts hi.toLinked (hi.lasts_of_finds hlink)
  | cons _ _ ih ih' =>
    have hc := ih hg hi
    exact hc.cons (ih' (hg.trans hc.toGrowth) hc.indexed)
  | part h hsub ih =>
    have hmade := ih hg hi
    exact ⟨hmade.toGrowth, (Crafted.part h hsub).grows.2, hmade.indexed, fun hc ↦
      hmade.loose (map_subset _ hsub.subset hc)⟩

end

/-! ## Visits -/

section Visits

variable {region : NodeId → Prop} {t t₁ t' : Tree} {n : NodeId} {kind : OperatorKind} {choice : Choice}
  {good : Prop} {b : Bool}

theorem Resolution.ensures_bindCallee_indexed {operands : List NodeId} (hi : Indexed region t)
    (hchoice : ∀ f, choice = .function f → t.Lists f) :
    Ensures (bindCallee kind choice operands) t fun _ t' ↦ Indexed region t' ∧ t'.scopes = t.scopes := by
  unfold bindCallee
  split
  next f callee _ =>
    refine ensures_get_bind ?_
    split
    next id hkind =>
      refine ensures_update fun t' hset ↦ ?_
      rw [setResolved_of_name _ hkind] at hset
      cases hset
      refine ⟨hi.setKind ?_ fun link hlink ↦ .inr ?_, rfl⟩
      · rw [hkind]
        exact .name (.of_none _)
      · cases mem_singleton.1 hlink
        exact (hi.listed (hchoice f rfl)).lasts
    · exact ensures_pure ⟨hi, rfl⟩
  · exact ensures_pure ⟨hi, rfl⟩

section

variable {t₂ t₃ t₄ : Tree} {c k : NodeId} {location : Option Location} (h : Made region t t₁ [some c])

include h

/-- What was made can be put into a slot. -/
theorem Tree.Made.isLoose : t₁.Has c ∧ region c ∧ (t₁.kind c).isLoose = true :=
  ⟨(h.piece (mem_singleton_self _)).has, h.loose (mem_singleton_self _)⟩

variable (hn : region n)

include hn

theorem Tree.Made.indexed_typed {e : Expression} (hkind : t.kind n = .expression e)
    (hset : t₁.setChild n 0 (some c) = .ok t') : Indexed region t' := by
  have hhas : t.Has n := has_of_kind (by simp [hkind])
  refine h.indexed.setChild hset (h.has hhas) hn (fun hfirm ↦ ?_) ?_
  · rw [h.kind_eq hhas, hkind] at hfirm
    cases hfirm
  · rintro _ ⟨⟩
    exact h.isLoose

variable (hi : Indexed region t)

include hi

theorem Tree.Made.indexed_replaced {old : NodeId} (hold : t.Yields n old)
    (hreplace : t₁.replaceNode old c = .ok t') : Indexed region t' := by
  have hregion : region old := by
    obtain ⟨rfl | ⟨i, hc⟩, -⟩ | ⟨i, hc, -⟩ := hold
    · exact hn
    · exact hi.below hn hc
    · exact hi.below hn hc
  refine h.indexed.replaceNode hreplace hregion h.isLoose fun p hp hfirm ↦ ?_
  obtain ⟨-, hexpression⟩ | ⟨i, hc, hloose⟩ := hold
  · have hhas : t.Has old := has_of_kind fun hroot ↦ by rw [hroot] at hexpression; cases hexpression
    rwa [h.kind_eq hhas]
  · rw [h.parent_eq (hi.has_of_child hc), hi.parent_of_child hc] at hp
    cases hp
    rw [h.kind_eq (has_of_child_eq hc), hloose] at hfirm
    cases hfirm

/-- The expression is taken out of its slot, and goes back inside a conversion. -/
theorem Tree.Made.indexed_wrapped {p e : NodeId} {i j : Nat}
    (hj : t.child n j = some e) (hexpression : (t.kind e).isExpression = true)
    (hparent : t.parent e = some p) (hchild : t.child p i = some e) (hempty : t₁.setChild p i .none = .ok t₂)
    (hcreate : t₂.create (.expression .coerced) [some e, some c] location = .ok (k, t₃))
    (hset : t₃.setChild p i (some k) = .ok t') : Indexed region t' := by
  have hregion := hi.above (hi.below hn hj) hparent
  have hhas := has_of_parent hparent
  have hholder := h.has (has_of_child_eq hchild)
  rw [← h.kind_eq hhas] at hexpression
  have hkinds := sameKinds_setChild hempty
  have hi₂ := h.indexed.setChild hempty hholder hregion (fun _ m hm ↦ by
    rw [child_congr (h.slots_eq (has_of_child_eq hchild)), hchild] at hm
    cases hm
    exact hexpression) nofun
  have hne : e ≠ c := by
    rintro rfl
    exact (h.piece (mem_singleton_self _)).new hhas
  have hi₃ := hi₂.create hcreate (fun m hm ↦ by
    rw [hkinds.has_iff, hkinds.kind_eq]
    obtain rfl | rfl : m = e ∨ m = c := by simpa using hm
    · exact ⟨h.has hhas, hi.below hn hj, isLoose_of_isExpression hexpression⟩
    · exact h.isLoose) (by simpa using hne) ⟨rfl, nofun⟩ fun _ hlink ↦ nomatch hlink
  have hholder₂ := (hkinds.has_iff _).2 hholder
  refine hi₃.setChild hset ((Refines.of_create hcreate).has hholder₂) hregion (fun _ m hm ↦ ?_) ?_
  · rw [child_congr (slots_create_of_has hcreate hholder₂), child_setChild hempty hholder, if_pos rfl] at hm
    cases hm
  · rintro m ⟨⟩
    exact ⟨has_create hcreate, hi₂.new (not_has_create hcreate), by rw [kind_create_self hcreate]; rfl⟩

variable (hkind : t.kind n = .expression (.unresolved kind))

include hkind

/-- The operands of an operator and a type that was built for its result are loose, and different from
each other. -/
theorem Tree.Made.loose_operands {t₂ : Tree} (hrefines : t₁.Refines t₂) :
    (∀ m, some m ∈ some c :: (t.children n).map some →
      t₂.Has m ∧ region m ∧ (t₂.kind m).isLoose = true) ∧
    ((some c :: (t.children n).map some).filterMap id).Nodup := by
  have hoperand {m : NodeId} (hm : m ∈ t.children n) : t.Has m ∧ region m ∧ (t.kind m).isLoose = true := by
    obtain ⟨i, hchild⟩ := exists_child_of_held (mem_children.1 hm)
    exact ⟨hi.has_of_child hchild, hi.below hn hchild,
      hi.isLoose_of_child hn hchild (by rw [hkind]; rfl) (by rw [hkind]; exact nofun)⟩
  refine ⟨fun m hm ↦ ?_, ?_⟩
  · have hloose : t₁.Has m ∧ region m ∧ (t₁.kind m).isLoose = true := by
      obtain rfl | hm : m = c ∨ m ∈ t.children n := by simpa using hm
      · exact h.isLoose
      · obtain ⟨hm, hregion, hloose⟩ := hoperand hm
        exact ⟨h.has hm, hregion, by rwa [h.kind_eq hm]⟩
    refine ⟨hrefines.has hloose.1, hloose.2.1, ?_⟩
    rw [(hrefines.kind hloose.1).isLoose_eq]
    exact hloose.2.2
  · have hlist : (some c :: (t.children n).map some).filterMap id = c :: t.children n := by
      simp [filterMap_map]
    rw [hlist]
    exact nodup_cons.2
      ⟨fun hc ↦ (h.piece (mem_singleton_self _)).new (hoperand hc).1, hi.nodup_children n⟩

/-- The operands of an operator move to a new node, with the type that was built for its result. -/
theorem Tree.Made.indexed_rebound (hfound : choice.Found t)
    (hcallee : Resolution.bindCallee kind choice (t.children n) t₁ = .ok ((), t₂))
    (hremove : t₂.removeChildren n 0 (t₂.slots n).length = .ok t₃)
    (hcreate : t₃.create (.expression (.resolved kind (choice.target t₃)))
      (some c :: (t.children n).map some) location = .ok (k, t₄))
    (hreplace : t₄.replaceNode n k = .ok t') : Indexed region t' := by
  have hhas : t.Has n := has_of_kind (by simp [hkind])
  have hlists {t' : Tree} (hscopes : t'.scopes = t.scopes) (f : NodeId) (hf : choice = .function f) :
      t'.Lists f := by
    subst hf
    exact hfound.2.lists.congr hscopes.symm
  obtain ⟨hi₂, hscopes₂⟩ := Resolution.ensures_bindCallee_indexed h.indexed (hlists h.scopes_eq) _ _ hcallee
  have hrefines₂ : t₁.Refines t₂ := ((Resolution.safe_bindCallee _ _ _).post_of_ok hcallee).2.toRefines
  have hrefines₃ := hrefines₂.trans (.of_sameKinds (sameKinds_removeChildren hremove))
  have hi₃ := hi₂.removeChildren hremove (hrefines₂.has (h.has hhas)) (by
    rw [(hrefines₂.kind (h.has hhas)).isFirm_eq, h.kind_eq hhas, hkind]
    rfl)
  have hscopes₃ : t₃.scopes = t.scopes := (scopes_removeChildren hremove).trans (hscopes₂.trans h.scopes_eq)
  obtain ⟨hslots, hnodup⟩ := h.loose_operands hn hi hkind hrefines₃
  have hi₄ := hi₃.create hcreate hslots hnodup ⟨rfl, nofun⟩ fun link hlink ↦ by
    cases choice with
    | builtin | field => cases hlink
    | function f =>
      cases mem_singleton.1 hlink
      exact (hi₃.listed (hlists hscopes₃ f rfl)).lasts
  refine hi₄.replaceNode hreplace hn ⟨has_create hcreate, hi₃.new (not_has_create hcreate), ?_⟩ fun _ _ _ ↦ ?_
  · rw [kind_create_self hcreate]
    rfl
  · rw [kind_create_of_has hcreate (hrefines₃.has (h.has hhas)),
      (hrefines₃.kind (h.has hhas)).isExpression_eq, h.kind_eq hhas, hkind]
    rfl

end

/-- A visit of a node of the region that builds from what is there keeps the region indexed. -/
theorem Rewrites.indexed (h : Rewrites (t.linking region) good t n b t') (hi : Indexed region t) (hn : region n) :
    Indexed region t' := by
  have hmade {t₁ c} (h : Crafted (t.linking region) t t₁ [c]) : Made region t t₁ [some c] :=
    h.made hi.toLinked (.refl t) hi
  induction h with
  | idle | stuck => exact hi
  | learnt _ _ hkind _ hlinks _ ih =>
    exact ih.setKind hkind fun link hlink ↦ (hlinks link hlink).imp_right ih.lasts_of_finds
  | emptied _ hkind hset ih =>
    refine ih.setChild hset (has_of_kind (by simp [hkind])) hn (fun hfirm ↦ ?_) nofun
    rw [hkind] at hfirm
    cases hfirm
  | replaced h hold _ _ hreplace => exact (hmade h).indexed_replaced hn hi hold hreplace
  | typed hkind h hset => exact (hmade h).indexed_typed hn hkind hset
  | rebound hkind hfound _ h =>
    obtain ⟨h, hcallee, hremove, hcreate, hreplace⟩ := h
    exact (hmade h).indexed_rebound hn hi hkind hfound hcallee hremove hcreate hreplace
  | wrapped hj hexpression hparent hchild h hempty hcreate hset =>
    exact (hmade h).indexed_wrapped hn hi hj hexpression hparent hchild hempty hcreate hset

end Visits

end ProtocolIR
