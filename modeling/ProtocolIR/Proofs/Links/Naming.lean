import ProtocolIR.Proofs.Links.Building

/-!
# Naming and unification keep a region indexed

A pass keeps a region indexed if its visits of nodes of the region do. Naming and unification record
facts that were not known, and so does the numbering of enums, which links labels to the declaration
of their enum and may add a label.
-/

namespace ProtocolIR

open Tree List Option

variable {region : NodeId → Prop} {t : Tree} {w : Workspace} {n : NodeId}

/-! ## Passes -/

/-- A pass that returns leaves the region indexed. -/
def Indexes {α : Type} (region : NodeId → Prop) (m : Pass α) (w : Workspace) : Prop :=
  Ensures m w fun _ w' ↦ Indexed region w'.tree

section Rules

variable {α β : Type}

theorem Indexes.bind {m : Pass α} {k : α → Pass β} (hm : Indexes region m w)
    (hk : ∀ a w', Indexed region w'.tree → Indexes region (k a) w') : Indexes region (m >>= k) w :=
  Ensures.bind hm hk

theorem indexes_pure (hi : Indexed region w.tree) (a : α) : Indexes region (pure a) w := ensures_pure hi

theorem indexes_recordChange (hi : Indexed region w.tree) (stream : Stream) (n : NodeId) (message : String) :
    Indexes region (Pass.recordChange stream n message) w :=
  ensures_recordChange fun _ ↦ hi

/-- A visit of a node of the region that builds from what is there. -/
theorem indexes_of_rewrites {good : Prop} {m : Pass Bool} (hi : Indexed region w.tree) (hn : region n)
    (h : Sure good m w fun b w' ↦ Rewrites (w.tree.linking region) good w.tree n b w'.tree) : Indexes region m w :=
  Ensures.mono h.1 fun _ _ h ↦ h.indexed hi hn

/-- Visits of nodes of the region that keep an invariant keep it together. -/
theorem ensures_walk {visit : α → NodeId → Pass α} {init : α} {p : α → Workspace → Prop} (order : Order)
    (hi : Indexed region w.tree) (hvisit : ∀ a w n, region n → p a w → Ensures (visit a n) w p)
    (h : p init w) : Ensures (Pass.walk order root init visit) w p := by
  refine ensures_tree_bind (ensures_foldlM (fun a w' n hn hp ↦ ensures_tree_bind ?_) h)
  have hregion : region n := by
    refine of_mem_ordered (p := region) (fun hm hc ↦ ?_) hi.top order hn
    obtain ⟨i, hc⟩ := exists_child_of_held hc
    exact hi.below hm hc
  split
  · exact hvisit a w' n hregion hp
  · exact ensures_pure hp

theorem indexes_sweep {visit : NodeId → Pass Bool} (order : Order) (hi : Indexed region w.tree)
    (hvisit : ∀ w n, region n → Indexed region w.tree → Indexes region (visit n) w) :
    Indexes region (Pass.sweep order root visit) w :=
  ensures_walk order hi (fun _ w n hn hi ↦ (hvisit w n hn hi).bind fun _ _ hi ↦ indexes_pure hi _) hi

end Rules

/-! ## Naming -/

instance : IsPreorder Tree fun t t' ↦ Indexed region t → Indexed region t' where
  refl _ := id
  trans _ _ _ h h' := h' ∘ h

namespace CanonicalId

theorem Identifies.indexed {t t' : Tree} {b : Bool} (h : Identifies t b t') (hi : Indexed region t) :
    Indexed region t' := by
  have hlinks {n : NodeId} {kind kind' : NodeKind} (hkind : t.kind n = kind)
      (hsame : kind'.links = kind.links) (hrefines : kind.Refines kind') :
      Indexed region (t.setKind n kind') := by
    subst hkind
    exact hi.setKind hrefines fun link hlink ↦ .inl (hsame ▸ hlink)
  cases h with
  | none => exact hi
  | declaration hkind hnone =>
    exact hlinks hkind rfl (.declaration ⟨rfl, rfl, hnone ▸ .of_none _, .same _⟩)
  | type _ hkind hnone =>
    exact hlinks hkind rfl (.type ⟨.same _, rfl, .refl _, hnone ▸ .of_none _⟩)

theorem indexes_assign (hi : Indexed region w.tree) (start : NodeId) : Indexes region (assign start) w :=
  Ensures.mono (leads_assign (r := fun t t' ↦ Indexed region t → Indexed region t') Identifies.indexed start w)
    fun _ _ h ↦ h hi

end CanonicalId

/-! ## Unification -/

namespace Unification

theorem indexes_unify (hi : Indexed region w.tree) : Indexes region (unify root) w :=
  Ensures.mono (leads_unify (r := fun t t' ↦ Indexed region t → Indexed region t')
    (fun _ _ hi ↦ hi.unifyType) root w) fun _ _ h ↦ h hi

end Unification

/-! ## Enums -/

namespace Enumeration

variable {owner : Option Link} {l : NodeId}

/-- The tree while the labels of an enum are numbered. -/
structure Labelling (region : NodeId → Prop) (n : NodeId) (owner : Option Link) (t : Tree) : Prop where
  indexed : Indexed region t
  compound : (t.kind n).isCompound = true
  owner : ∀ link ∈ owner, t.Lasts link

theorem Labelling.label {t' : Tree} {progress progress' : Progress} (h : Labelling region n owner t)
    (hlabel : Labels owner l progress t progress' t') : Labelling region n owner t' := by
  have hrefines := hlabel.refines
  cases hlabel with
  | none => exact h
  | @write _ _ _ _ _ _ link _ hkind =>
    have hhas : t.Has l := has_of_kind (by simp [hkind])
    have hnew := hrefines.kind hhas
    rw [kind_setKind, if_pos ⟨rfl, hhas⟩] at hnew
    have hsparing := h.indexed.sparing_setKind hnew fun new hnew ↦ by
      have hor : link.or owner = some new := mem_toList.1 hnew
      rcases or_eq_some_iff.1 hor with hlink | ⟨-, howner⟩
      · refine .inl ?_
        rw [hkind]
        simp [NodeKind.links, hlink]
      · exact .inr (h.owner new howner)
    refine ⟨h.indexed.spare hsparing rfl, ?_, fun new hnew ↦ ?_⟩
    · rw [(hsparing.kind (has_of_isCompound h.compound)).isCompound_eq, h.compound]
    · exact hsparing.lasts h.indexed.toLinked (h.owner new hnew)

theorem indexes_addUndef (hi : Indexed region w.tree) (hn : region n)
    (hcompound : (w.tree.kind n).isCompound = true) : Indexes region (addUndef n) w := by
  refine ensures_tree_bind (Ensures.bind (ensures_edit (p := fun c w₁ ↦
    w.tree.create _ _ _ = .ok (c, w₁.tree)) (ensures_create_eq _ _ _)) fun undef w₁ hcreate ↦ ?_)
  have hi₁ : Indexed region w₁.tree :=
    hi.create hcreate (fun _ hc ↦ nomatch hc) nodup_nil ⟨rfl, fun _ ↦ rfl⟩ fun _ hlink ↦ nomatch hlink
  refine Indexes.bind (ensures_edit (ensures_update fun t₂ hadd ↦ ?_)) fun _ w₂ hi₂ ↦
    indexes_recordChange hi₂ .normalizer n _
  refine hi₁.addChild hadd hn ?_ (has_create hcreate) (hi.new (not_has_create hcreate))
  rwa [kind_create_of_has hcreate (has_of_isCompound hcompound)]

theorem indexes_normalizeEnum (hi : Indexed region w.tree) (hn : region n)
    (hcompound : (w.tree.kind n).isCompound = true) : Indexes region (normalizeEnum n) w := by
  have howner : ∀ link ∈ (w.tree.enumOwner n).map w.tree.linkTo, w.tree.Lasts link := by
    intro link hlink
    obtain ⟨d, hd, rfl⟩ := map_eq_some_iff.1 hlink
    obtain ⟨hd, hdeclared⟩ := filter_eq_some_iff.1 hd
    have hof : Surgery.declarationOf w.tree n = some d :=
      filter_eq_some_iff.2 ⟨hd, (Bool.and_eq_true_iff.1 hdeclared).1⟩
    exact (hi.lasting_of_declarationOf hn hof).1.lasts
  refine ensures_tree_bind (Ensures.bind (q := fun _ w' ↦ Labelling region n _ w'.tree)
    (ensures_foldlM (fun progress _ l _ h ↦ Ensures.mono (ends_normalizeLabel _ progress l).1
      fun _ _ hlabel ↦ h.label hlabel) ⟨hi, hcompound, howner⟩) fun progress w₁ h₁ ↦ ?_)
  split
  · exact indexes_pure h₁.indexed _
  · exact (indexes_addUndef h₁.indexed hn h₁.compound).bind fun _ _ hi ↦ indexes_pure hi _

theorem indexes_normalize (hi : Indexed region w.tree) : Indexes region (normalize root) w := by
  refine indexes_sweep .pre hi fun w n hn hi ↦ ensures_tree_bind ?_
  split
  next hshape =>
    obtain ⟨data, hkind, hdata⟩ := shape?_eq_some_iff.1 (eq_of_beq hshape)
    refine indexes_normalizeEnum hi hn ?_
    rw [hkind, NodeKind.isCompound, hdata]
    rfl
  · exact indexes_pure hi _

end Enumeration

end ProtocolIR
