import ProtocolIR.Proofs.Links.Edits
import ProtocolIR.Proofs.Scope.Contents

/-!
# What scopes list lasts

The declarations that modules, functions, blocks and compound types introduce hang on the introducing
node by firm edges, and so do the items of a unit. To build scopes from the root therefore keeps a
region indexed.
-/

namespace ProtocolIR.Tree

open List Option NodeKind

variable {t t' : Tree} {n a c : NodeId} {i : Nat} {region : NodeId → Prop}

/-! ## Changing a scope -/

theorem lists_of_openScope (h : (t.openScope n).2.Lists a) : t.Lists a := by
  cases hscope : t.scopeOf n with
  | some s =>
    have hopen : (t.openScope n).2 = t := by unfold openScope; rw [hscope]
    rwa [hopen] at h
  | none =>
    have hscopes : (t.openScope n).2.scopes = t.scopes.push {} := by
      unfold openScope
      rw [hscope]
      rfl
    obtain ⟨s, key, ha⟩ := h
    unfold scope at ha
    rw [hscopes, Array.getElem?_push] at ha
    split at ha
    · cases ha
    · exact ⟨s, key, ha⟩

/-- What is listed after a change of one scope was listed before, or is listed there now. -/
theorem lists_of_amendScope {f : Scope → Scope} (h : (t.amendScope n f).Lists a) :
    t.Lists a ∨ ∃ scope key, (∀ b ∈ scope.get key, t.Lists b) ∧ a ∈ (f scope).get key := by
  obtain ⟨s, key, ha⟩ := h
  unfold amendScope at ha
  rw [scope_modifyScope] at ha
  split at ha
  · exact .inr ⟨_, key, fun b hb ↦ lists_of_openScope ⟨_, key, hb⟩, ha⟩
  · exact .inl (lists_of_openScope ⟨s, key, ha⟩)

namespace Indexed

theorem amendScope (hi : Indexed region t) (n : NodeId) {f : Scope → Scope}
    (hf : ∀ {scope key a}, a ∈ (f scope).get key → a ∈ scope.get key ∨ t.Lasting a) :
    Indexed region (t.amendScope n f) := by
  have hsame : SameNodes t (t.amendScope n f) :=
    (sameNodes_openScope t n).trans (sameNodes_modifyScope _ _ f)
  have hsparing : Sparing region t (t.amendScope n f) := hsame.sparing hi.toLinked
  refine ⟨hi.toSecure.spare hsparing, fun {a} ha ↦ hsparing.lasting hi.toLinked ?_⟩
  rcases lists_of_amendScope ha with ha | ⟨scope, key, hold, ha⟩
  · exact hi.listed ha
  · exact (hf ha).elim (fun ha ↦ hi.listed (hold a ha)) id

theorem listInScope (hi : Indexed region t) (n : NodeId) {entries : List (String × NodeId)}
    (hentries : ∀ {key a}, (key, a) ∈ entries → t.Lasting a) :
    Indexed region (t.listInScope n entries) := by
  rw [listInScope_eq]
  exact hi.amendScope n fun ha ↦ (Scope.mem_get_insertAll.1 ha).imp_right hentries

/-- Steps that only list something keep a region indexed if each of them does. -/
theorem foldl {ι : Type} {f : Tree → ι → Tree} {l : List ι} (hi : Indexed region t)
    (hsame : ∀ t i, SameNodes t (f t i))
    (hf : ∀ i ∈ l, ∀ {t'}, SameNodes t t' → Indexed region t' → Indexed region (f t' i)) :
    Indexed region (l.foldl f t) := by
  induction l generalizing t with
  | nil => exact hi
  | cons i l ih =>
    refine ih (hf i mem_cons_self (.refl t) hi) fun j hj t' ht' hi' ↦ ?_
    exact hf j (mem_cons_of_mem i hj) ((hsame t i).trans ht') hi'

end Indexed

/-! ## What a node introduces -/

theorem child_of_mem_childrenFrom {category : NodeCategory} {start : Nat}
    (h : a ∈ t.childrenFrom n start category) :
    (∃ i, t.child n i = some a) ∧ (t.kind a).category = category :=
  ⟨exists_child_of_held (mem_slots_of_mem_childrenFrom h), eq_of_beq (mem_filter.1 h).2⟩

namespace Anchored

/-- Declarations that are held firmly last. -/
theorem lasting_of_childrenFrom {start : Nat} (hn : t.Anchored n) (hfirm : (t.kind n).isFirm = true)
    (ha : a ∈ t.childrenFrom n start .declaration) : t.Lasting a := by
  obtain ⟨⟨i, hc⟩, hcategory⟩ := child_of_mem_childrenFrom ha
  exact ⟨.child hn hc hfirm (isExpression_of_category hcategory (by decide)), .inl hcategory⟩

end Anchored

namespace Secure

variable (hs : Secure region t) {d : Declaration}

include hs

variable (hn : region n)

include hn

theorem anchored_of_kind (hroot : t.kind n ≠ .root) (hloose : (t.kind n).isLoose = false)
    (hlabel : (t.kind n).isLabel = false) : t.Anchored n := by
  refine hs.anchored hn (has_of_kind hroot) hloose fun h ↦ ?_
  rw [hlabel] at h
  cases h

theorem anchored_of_isFunction (hfunction : (t.kind n).isFunction = true) : t.Anchored n := by
  obtain ⟨hfixture, -, hlabel⟩ := isFixture_of_isFunction hfunction
  refine hs.anchored_of_kind hn ?_ (isLoose_eq_false_of_isFixture hfixture) hlabel
  intro hroot
  rw [hroot] at hfunction
  cases hfunction

theorem anchored_of_shape {shape : TypeShape} (hshape : t.shape? n = some shape)
    (hcompound : shape.category.isCompound = true) : t.Anchored n := by
  obtain ⟨data, hkind, rfl⟩ := shape?_eq_some_iff.1 hshape
  refine hs.anchored_of_kind hn (by simp [hkind]) (isLoose_eq_false_of_isCompound ?_) ?_
  all_goals rw [hkind]
  · exact hcompound
  · rfl

/-- The parameters of a function are held by its type. -/
theorem lasting_of_parameters (hfunction : (t.kind n).isFunction = true) (ha : a ∈ t.parameters n) :
    t.Lasting a := by
  have hfirm := (isFixture_of_isFunction hfunction).2.1
  obtain ⟨q, hq, hqualified, f, hf, htype⟩ := hs.signed hn hfunction
  have hanchored : t.Anchored f := by
    refine .child (.child (hs.anchored_of_isFunction hn hfunction) hq hfirm ?_) hf ?_ ?_
    · exact isExpression_of_category hqualified (by decide)
    · exact isFirm_of_category (.inl hqualified)
    · exact isExpression_of_category htype (by decide)
  have hunqualified : (t.child n 0).bind t.unqualified = some f := by
    rw [hq]
    cases hkind : t.kind q with
    | qualified => exact (unqualified_of_qualified hkind).trans hf
    | _ => rw [hkind] at hqualified; cases hqualified
  unfold parameters at ha
  rw [hunqualified] at ha
  exact hanchored.lasting_of_childrenFrom (isFirm_of_category (.inr htype)) ha

/-- The statements of a block hold their declarations. -/
theorem lasting_of_blockLocals (hblock : t.kind n = .statement .block) (ha : a ∈ t.blockLocals n)
    (hd : t.declaration? a = some d) : t.Lasting a := by
  obtain ⟨s, hs', hc⟩ := mem_filterMap.1 ha
  obtain ⟨hmem, hstatement⟩ := mem_filter.1 hs'
  have hkind : t.kind s = .statement .declaration := eq_of_beq hstatement
  obtain ⟨i, hchild⟩ := exists_child_of_held (by simpa [children] using hmem : some s ∈ t.slots n)
  have hanchored : t.Anchored n :=
    hs.anchored_of_kind hn (by simp [hblock]) (by rw [hblock]; rfl) (by rw [hblock]; rfl)
  have hheld : t.Anchored s := .child hanchored hchild (by rw [hblock]; rfl) (by rw [hkind]; rfl)
  refine .of_declaration (.child hheld hc (by rw [hkind]; rfl) ?_) hd
  rw [declaration?_eq_some_iff.1 hd]
  rfl

theorem lasting_of_introduced (ha : a ∈ t.introduced n) (hd : t.declaration? a = some d) : t.Lasting a := by
  unfold introduced at ha
  cases hkind : t.kind n with
  | declaration data =>
    obtain ⟨id, linkage, canonicalId, kind⟩ := data
    rw [hkind] at ha
    cases kind with
    | module =>
      have hanchored : t.Anchored n :=
        hs.anchored_of_kind hn (by simp [hkind]) (by rw [hkind]; rfl) (by rw [hkind]; rfl)
      rcases mem_append.1 ha with ha | ha
      · exact hanchored.lasting_of_childrenFrom (by rw [hkind]; rfl) ha
      · cases mem_singleton.1 ha
        exact .of_declaration hanchored hd
    | function => exact hs.lasting_of_parameters hn (by rw [hkind]; rfl) ha
    | _ => cases ha
  | statement s =>
    rw [hkind] at ha
    cases s with
    | block => exact hs.lasting_of_blockLocals hn hkind ha hd
    | _ => cases ha
  | type data =>
    obtain ⟨shape, typeId, unification, wildcard⟩ := data
    have hshape : t.shape? n = some shape := shape?_eq_some_iff.2 ⟨_, hkind, rfl⟩
    have hfirm : (t.kind n).isFirm = true := by rw [hkind]; rfl
    rw [hkind] at ha
    cases shape with
    | enumeration | struct | union =>
      exact (hs.anchored_of_shape hn hshape rfl).lasting_of_childrenFrom hfirm ha
    | _ => cases ha
  | _ => rw [hkind] at ha; cases ha

end Secure

/-- Switches and their cases hold items firmly. -/
theorem lasting_of_itemsWithin {fuel : Nat} (hn : (t.kind n).category = .item → t.Anchored n)
    (ha : a ∈ t.itemsWithin fuel n) : t.Lasting a := by
  induction fuel generalizing n with
  | zero => cases ha
  | succ fuel ih =>
    unfold itemsWithin at ha
    cases hkind : t.kind n with
    | item item =>
      have hanchored : t.Anchored n := hn (by rw [hkind]; rfl)
      have hheld {c : NodeId} {i : Nat} (hc : t.child n i = some c) (hitem : (t.kind c).category = .item) :
          t.Anchored c :=
        .child hanchored hc (by rw [hkind]; rfl) (isExpression_of_category hitem (by decide))
      rw [hkind] at ha
      cases item with
      | switch =>
        obtain ⟨c, hc, ha⟩ := mem_flatMap.1 ha
        obtain ⟨⟨i, hc⟩, -⟩ := child_of_mem_childrenFrom hc
        exact ih (hheld hc) ha
      | alternative =>
        obtain ⟨c, hc, ha⟩ := mem_flatMap.1 ha
        exact ih (hheld (mem_toList.1 hc)) ha
      | _ =>
        cases mem_singleton.1 ha
        exact ⟨hanchored, .inr (by rw [hkind]; rfl)⟩
    | _ => rw [hkind] at ha; cases ha

theorem Secure.lasting_of_unitEntries {key : String} (hs : Secure region t) (hn : region n)
    (hunit : t.shape? n = some .unit) (ha : (key, a) ∈ t.unitEntries n) : t.Lasting a := by
  have hanchored := hs.anchored_of_shape hn hunit rfl
  have hfirm : (t.kind n).isFirm = true := by
    obtain ⟨data, hkind, -⟩ := shape?_eq_some_iff.1 hunit
    rw [hkind]
    rfl
  rcases mem_append.1 ha with ha | ha
  · exact hanchored.lasting_of_childrenFrom hfirm (mem_entries.1 ha).1
  · obtain ⟨b, hb, hentry⟩ := mem_filterMap.1 ha
    obtain ⟨id, -, heq⟩ := map_eq_some_iff.1 hentry
    cases heq
    obtain ⟨item, hitem, hb⟩ := mem_flatMap.1 hb
    obtain ⟨⟨i, hc⟩, hcategory⟩ := child_of_mem_childrenFrom hitem
    refine lasting_of_itemsWithin (fun _ ↦ .child hanchored hc hfirm ?_) hb
    exact isExpression_of_category hcategory (by decide)

/-! ## Building scopes -/

theorem sameNodes_listMethod (t : Tree) (name : String) (method owner : NodeId) :
    SameNodes t (t.listMethod name method owner) := by
  unfold listMethod
  split
  · split
    · exact sameNodes_listInScope _ _ _
    · exact .refl t
  · exact .refl t

namespace Indexed

variable (hi : Indexed region t)

include hi

theorem buildScope (hn : region n) : Indexed region (t.buildScope n) := by
  have hlisted : Indexed region (t.listInScope n (t.entries (t.introduced n))) := by
    refine hi.listInScope n fun ha ↦ ?_
    obtain ⟨ha, d, hd, -⟩ := mem_entries.1 ha
    exact hi.lasting_of_introduced hn ha hd
  rcases buildScope_cases t n with ⟨heq, -⟩ | ⟨heq, -⟩ | heq
  · rwa [heq]
  · rwa [heq]
  · rw [heq]
    exact hlisted.amendScope n fun ha ↦ .inl (by rwa [Scope.get_addImports] at ha)

theorem listMethod {name : String} {method : NodeId} (hmethod : region method)
    (hfunction : (t.kind method).isFunction = true) (owner : NodeId) :
    Indexed region (t.listMethod name method owner) := by
  unfold Tree.listMethod
  split
  next u _ =>
    split
    · refine hi.listInScope u fun ha ↦ ?_
      cases mem_singleton.1 ha
      refine ⟨hi.anchored_of_isFunction hmethod hfunction, .inl ?_⟩
      cases hkind : t.kind method with
      | declaration => rfl
      | _ => rw [hkind] at hfunction; cases hfunction
    · exact hi
  · exact hi

theorem registerMethod (hn : region n) : Indexed region (t.registerMethod n) := by
  unfold Tree.registerMethod
  split
  · exact hi
  next d hd =>
    have hfunction : (t.kind n).isFunction = true := by
      obtain ⟨hd, hfunction⟩ := filter_eq_some_iff.1 hd
      unfold isFunction
      rw [show (t.kind n).declaration? = some d from hd]
      exact hfunction
    split
    · refine hi.foldl (fun t owner ↦ sameNodes_listMethod t _ n owner) fun owner _ t' ht' hi' ↦ ?_
      exact hi'.listMethod hn (by rwa [ht'.kind_eq]) owner
    · exact hi

theorem region_of_mem_subtree (ha : a ∈ t.subtree root) : region a :=
  of_mem_ordered (p := region) (fun hm hc ↦ by
    obtain ⟨i, hc⟩ := exists_child_of_held hc
    exact hi.below hm hc) hi.top .pre ha

theorem buildScopes : Indexed region (t.buildScopes root) := by
  have hscopes : Indexed region ((t.subtree root).foldl Tree.buildScope t) :=
    hi.foldl sameNodes_buildScope fun n hn _ _ hi' ↦ hi'.buildScope (hi.region_of_mem_subtree hn)
  exact hscopes.foldl sameNodes_registerMethod fun n hn _ _ hi' ↦
    hi'.registerMethod (hi.region_of_mem_subtree hn)

theorem buildUnitScopes : Indexed region (t.buildUnitScopes root) := by
  refine hi.foldl (fun t n ↦ sameNodes_listInScope t n _) fun n hn t' ht' hi' ↦ ?_
  obtain ⟨hmem, hunit⟩ := mem_filter.1 hn
  refine hi'.listInScope n fun ha ↦ hi'.lasting_of_unitEntries (hi.region_of_mem_subtree hmem) ?_ ha
  rw [shape?, typeData?, ht'.kind_eq]
  exact eq_of_beq hunit

end Indexed

/-- Without scopes nothing is listed. -/
theorem Secure.clearScopes (hs : Secure region t) : Indexed region t.clearScopes where
  toSecure := hs.spare ((sameNodes_clearScopes t).sparing hs.toLinked)
  listed := by
    rintro a ⟨s, key, ha⟩
    cases ha

end ProtocolIR.Tree
