import ProtocolIR.Proofs.Links.Edits

/-!
# What readers find in a secure region

From a node of a secure region, the readers of types come to nodes of the region that are no
fixtures, since links lead to anchored nodes and fixtures stand in slots where no types are read. What
a lookup finds, and what an operator is found to stand for, is listed in some scope.
-/

namespace ProtocolIR.Tree

open Tree List Option

variable {t : Tree} {n a c u : NodeId} {i depth : Nat} {region : NodeId → Prop} {s : ScopeId}
  {imports : Bool}

/-- A node of a region that may be taken for a type. -/
structure TypeLike (region : NodeId → Prop) (t : Tree) (n : NodeId) : Prop where
  region : region n
  plain : (t.kind n).isFixture = false

theorem TypeLike.has (h : TypeLike region t n) : t.Has n :=
  has_of_kind fun hroot ↦ by
    have hplain := h.plain
    rw [hroot] at hplain
    cases hplain

theorem typeLike_of_unqualified (hn : region n) (hu : t.unqualified n = some u) : TypeLike region t n := by
  refine ⟨hn, ?_⟩
  obtain ⟨data, hkind, -⟩ | ⟨q, hkind, -⟩ := unqualified_cases hu
  · rw [hkind]
    rfl
  · rw [hkind]
    rfl

namespace Secure

variable (hs : Secure region t) {fuel : Nat}

include hs

theorem typeLike_of_child (hn : region n) (hc : t.child n i = some c)
    (hframes : (t.kind n).frames i = false) : TypeLike region t c :=
  ⟨hs.below hn hc, hs.isFixture_of_child hn hc hframes⟩

theorem region_of_anchored (h : t.Anchored n) : region n := by
  induction h with
  | root => exact hs.top
  | child _ hc _ _ ih => exact hs.below ih hc

theorem region_of_mem_chain (fuel : Nat) {start : Option NodeId} (hstart : ∀ m, start = some m → region m)
    (ha : a ∈ t.chain fuel start) : region a := by
  induction fuel generalizing start with
  | zero => cases start <;> cases ha
  | succ fuel ih =>
    cases start with
    | none => cases ha
    | some m =>
      rcases mem_cons.1 ha with rfl | ha
      · exact hstart a rfl
      · exact ih (fun p hp ↦ hs.above (hstart m rfl) hp) ha

theorem region_of_mem_ancestors (hn : region n) (ha : a ∈ t.ancestors n) : region a :=
  hs.region_of_mem_chain _ (fun _ hp ↦ hs.above hn hp) ha

theorem region_of_within (h : t.Within root n) : region n := by
  induction h with
  | here => exact hs.top
  | beneath hp _ ih =>
    obtain ⟨i, hc⟩ := hs.exists_child hp
    exact hs.below ih hc

/-! ## Types -/

theorem typeLike_unqualified (hn : region n) (hu : t.unqualified n = some u) : TypeLike region t u := by
  obtain ⟨data, hkind, rfl⟩ | ⟨q, hkind, hc⟩ := unqualified_cases hu
  · exact ⟨hn, by rw [hkind]; rfl⟩
  · exact hs.typeLike_of_child hn hc (by rw [hkind]; rfl)

theorem typeLike_declaredType (hn : region n) (hu : t.declaredType n = some u) : TypeLike region t u := by
  obtain ⟨-, c, hc, hu⟩ := declaredType_eq_some_iff.1 hu
  exact hs.typeLike_unqualified (hs.below hn hc) hu

/-- Links of the region lead into the region. -/
theorem region_of_link {link : Link} (hn : region n) (h : link ∈ (t.kind n).links) : region link.node :=
  hs.region_of_anchored (hs.links hn h).anchored

theorem typeLike_followWithin (hn : TypeLike region t n) (hu : t.followWithin fuel n = some u) :
    TypeLike region t u := by
  obtain ⟨s, hf⟩ := followsTo_of_followWithin hu
  clear hu
  induction hf with
  | here => exact hn
  | @name n m u s id link hshape hm _ ih =>
    obtain ⟨data, hkind, hname⟩ := shape?_eq_some_iff.1 hshape
    have hmem : link ∈ (t.kind n).links := by
      rw [hkind]
      simp [NodeKind.links, hname]
    exact ih (hs.typeLike_declaredType (hs.region_of_link hn.region hmem) hm)

variable (hn : region n)

include hn

theorem typeLike_follow (hu : t.follow n = some u) : TypeLike region t u := by
  obtain ⟨m, hm, hu⟩ := bind_eq_some_iff.1 hu
  exact hs.typeLike_followWithin (hs.typeLike_unqualified hn hm) hu

theorem typeLike_elementTypeWithin (hu : t.elementTypeWithin fuel n = some u) :
    TypeLike region t u := by
  induction fuel generalizing n with
  | zero => cases hu
  | succ fuel ih =>
    obtain ⟨m, hm, hu⟩ := bind_eq_some_iff.1 hu
    have hregion := (hs.typeLike_follow hn hm).region
    -- containers that hold their element are no compound types
    have hheld {shape : TypeShape} (hshape : t.shape? m = some shape)
        (hplain : shape.category.isCompound = false) (hc : t.child m 0 = some u) : TypeLike region t u := by
      obtain ⟨data, hkind, rfl⟩ := shape?_eq_some_iff.1 hshape
      exact hs.typeLike_of_child hregion hc (by rw [hkind]; exact hplain)
    split at hu
    · obtain ⟨c, hc, hu⟩ := bind_eq_some_iff.1 hu
      exact ih (hs.below hregion hc) hu
    all_goals first | exact hheld ‹_› rfl hu | cases hu

theorem typeLike_elementType (hu : t.elementType n = some u) : TypeLike region t u :=
  hs.typeLike_elementTypeWithin hn hu

/-- A label stands in a compound type, and that is qualified. -/
theorem typeLike_of_label (hlabel : (t.kind n).isLabel = true)
    (hu : (t.parent n).bind t.parent = some u) : TypeLike region t u := by
  obtain ⟨p, hp, hu⟩ := bind_eq_some_iff.1 hu
  obtain ⟨i, hc⟩ := hs.exists_child hp
  have hregion := hs.above hn hp
  obtain ⟨q, hq, _, -, -, -, hqualified, -⟩ := hs.owned hregion (hs.labelled hregion hc hlabel)
  cases hu.symm.trans hq
  refine ⟨hs.above hregion hu, ?_⟩
  cases hkind : t.kind u with
  | qualified => rfl
  | _ => rw [hkind] at hqualified; cases hqualified

theorem typeLike_declarationType (hu : t.declarationType n = some u) : TypeLike region t u := by
  unfold declarationType at hu
  split at hu
  next d hkind =>
    split at hu
    next hd =>
      refine hs.typeLike_of_label hn ?_ hu
      simp [hkind, NodeKind.isLabel, NodeKind.declaration?, hd, DeclarationKind.isLabel]
    · split at hu
      next hvalue =>
        refine hs.typeLike_of_child hn hu ?_
        rw [hkind]
        cases hd : d.kind <;> simp_all [NodeKind.frames, DeclarationKind.hasValueType]
      · cases hu
  next hkind => exact hs.typeLike_of_child hn hu (by rw [hkind]; rfl)
  next hkind => exact hs.typeLike_of_child hn hu (by rw [hkind]; rfl)
  · cases hu

theorem typeLike_expressionTypeWithin (hu : t.expressionTypeWithin fuel n = some u) :
    TypeLike region t u := by
  induction fuel generalizing n with
  | zero => cases hu
  | succ fuel ih =>
    unfold expressionTypeWithin at hu
    split at hu
    next e hkind =>
      have hpart {i : Nat} {c : NodeId} (hc : t.child n i = some c) : TypeLike region t c :=
        hs.typeLike_of_child hn hc (by rw [hkind]; rfl)
      cases e with
      | name id resolved =>
        cases resolved with
        | none => exact hpart hu
        | some link =>
          obtain ⟨d, hd, hu⟩ := bind_eq_some_iff.1 hu
          cases eq_of_linkTarget hd
          refine hs.typeLike_declarationType (hs.region_of_link hn ?_) hu
          rw [hkind]
          exact mem_singleton_self _
      | literal =>
        obtain ⟨l, hl, hu⟩ := bind_eq_some_iff.1 hu
        have hloose := hs.isLoose_of_child hn hl (by rw [hkind]; rfl) (by rw [hkind]; exact nofun)
        exact hs.typeLike_of_child (hs.below hn hl) hu (NodeKind.frames_of_isLoose hloose)
      | unresolved => cases hu
      | assign | ternary =>
        obtain ⟨c, hc, hu⟩ := bind_eq_some_iff.1 hu
        exact ih (hs.below hn hc) hu
      | resolved | logicalAnd | logicalOr | logicalNot | member | type | keyword | coerced => exact hpart hu
    · cases hu

theorem typeLike_expressionType (hu : t.expressionType n = some u) : TypeLike region t u :=
  hs.typeLike_expressionTypeWithin hn hu

/-! ## Functions and units -/

theorem region_of_mem_parameters (ha : a ∈ t.parameters n) : region a := by
  unfold parameters at ha
  split at ha
  next f hf =>
    obtain ⟨c, hc, hf⟩ := bind_eq_some_iff.1 hf
    have hheld := mem_of_mem_drop (by simpa using (mem_filter.1 ha).1 : some a ∈ (t.slots f).drop 1)
    obtain ⟨i, hi⟩ := exists_child_of_held hheld
    exact hs.below (hs.typeLike_unqualified (hs.below hn hc) hf).region hi
  · cases ha

theorem region_of_resultType (hu : t.resultType n = some u) : region u := by
  obtain ⟨f, hf, hu⟩ := bind_eq_some_iff.1 hu
  obtain ⟨c, hc, hf⟩ := bind_eq_some_iff.1 hf
  exact hs.below (hs.typeLike_unqualified (hs.below hn hc) hf).region hu

theorem region_of_enclosingResultType (hu : t.enclosingResultType n = some u) : region u := by
  obtain ⟨f, hf, hu⟩ := bind_eq_some_iff.1 hu
  exact hs.region_of_resultType (hs.region_of_mem_ancestors hn (mem_of_find?_eq_some hf)) hu

theorem typeLike_selfType (hu : Resolution.selfType t n = some u) : TypeLike region t u := by
  obtain ⟨d, hd, hu⟩ := bind_eq_some_iff.1 hu
  obtain ⟨link, hlink, htarget⟩ := bind_eq_some_iff.1 hd
  obtain ⟨a, ha, howner⟩ := mem_filterMap.1 (mem_of_head? hlink)
  split at howner
  next owner prototype hkind =>
    cases howner
    obtain ⟨d', hd', hfunction⟩ := map_eq_some_iff.1 hkind
    have hmem : link ∈ (t.kind a).links := by
      rw [declaration?_eq_some_iff.1 hd']
      simp [NodeKind.links, hfunction]
    cases eq_of_linkTarget htarget
    exact hs.typeLike_declaredType (hs.region_of_link (hs.region_of_mem_ancestors hn ha) hmem) hu
  · cases howner

/-- The elements of what a field holds, or the type that it declares. -/
theorem typeLike_currentType (hu : Units.Resolution.currentType t n = some u) :
    TypeLike region t u := by
  obtain ⟨field, hfield, hu⟩ := bind_eq_some_iff.1 hu
  obtain ⟨declared, hdeclared, hu⟩ := bind_eq_some_iff.1 hu
  obtain ⟨_, -, hu⟩ := bind_eq_some_iff.1 hu
  have hregion := hs.region_of_mem_ancestors hn (mem_of_find?_eq_some hfield)
  have hitem := find?_some hfield
  split at hu
  · exact hs.typeLike_elementType (hs.below hregion hdeclared) hu
  cases hu
  refine hs.typeLike_of_child hregion hdeclared ?_
  cases hkind : t.kind field with
  | item item =>
    rw [hkind] at hitem
    cases item <;> first | rfl | cases hitem
  | _ => rw [hkind] at hitem; cases hitem

theorem typeLike_keywordType {word : Keyword} {q : Qualifiers}
    (hu : Units.Resolution.keywordType t n word = some (u, q)) : TypeLike region t u := by
  cases word with
  | self =>
    obtain ⟨unit, hunit, heq⟩ := map_eq_some_iff.1 hu
    cases heq
    refine ⟨hs.region_of_mem_ancestors hn (mem_of_find?_eq_some hunit), ?_⟩
    have hshape : (t.shape? u == some .unit) = true :=
      find?_some (p := fun a ↦ t.shape? a == some .unit) hunit
    obtain ⟨data, hkind, -⟩ := shape?_eq_some_iff.1 (eq_of_beq hshape)
    rw [hkind]
    rfl
  | current =>
    obtain ⟨type, htype, heq⟩ := map_eq_some_iff.1 hu
    cases heq
    have hlike := hs.typeLike_currentType hn htype
    cases hunqualified : t.unqualified type with
    | none => exact hlike
    | some v => exact hs.typeLike_unqualified hlike.region hunqualified

end Secure

/-! ## Lookups -/

theorem lists_of_mem_lookupSimple {id : String} (h : a ∈ t.lookupSimple s id imports depth) :
    t.Lists a := by
  unfold lookupSimple at h
  split at h
  · split at h
    · obtain ⟨module, -, h⟩ := mem_flatMap.1 h
      split at h
      · cases h
      next inner _ => exact ⟨inner, id, mem_of_mem_filter h⟩
    · cases h
  · exact ⟨s, id, h⟩

theorem lists_of_mem_lookupSegments {segments : List String}
    (h : a ∈ t.lookupSegments segments s imports depth) : t.Lists a := by
  induction segments generalizing s imports depth with
  | nil => cases h
  | cons first rest ih =>
    cases rest with
    | nil => exact lists_of_mem_lookupSimple h
    | cons second rest =>
      unfold lookupSegments at h
      split at h
      · obtain ⟨head, -, h⟩ := mem_flatMap.1 h
        split at h
        · cases h
        · exact ih h
      · exact ⟨s, _, h⟩

theorem lists_of_mem_lookup {id : QualifiedId} (h : a ∈ t.lookup n id) : t.Lists a := by
  unfold lookup at h
  generalize n :: t.ancestors n = nodes at h
  induction nodes with
  | nil => cases h
  | cons m rest ih =>
    unfold lookupAlong at h
    split at h
    · exact ih h
    · exact ih h
    next hfound =>
      obtain ⟨s, -, hlookup⟩ := map_eq_some_iff.1 hfound
      rw [← hlookup] at h
      exact lists_of_mem_lookupSegments h

theorem lists_of_mem_membersNamed {id : String} (h : a ∈ Selection.membersNamed t n id) : t.Lists a := by
  unfold Selection.membersNamed at h
  split at h
  next s _ => exact ⟨s, id, h⟩
  · cases h

theorem Finds.lists {d : NodeId} (h : t.Finds d) : t.Lists d := by
  rcases h with ⟨n, id, hd⟩ | ⟨type, id, hd⟩
  · exact lists_of_mem_lookup hd
  · exact lists_of_mem_membersNamed hd

end ProtocolIR.Tree
