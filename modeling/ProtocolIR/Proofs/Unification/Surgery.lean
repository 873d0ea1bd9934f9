import ProtocolIR.Proofs.Pass.Scopes
import ProtocolIR.Proofs.Unification.Edits

/-!
# Surgery that keeps texts

The operations that passes edit a tree with: a kind of node is refined, scopes are built, nodes are
made, and slots are refilled. Slots of types are refilled only with one thing that is not written for
another, and those of enums by more labels.
-/

namespace ProtocolIR.Tree

open List

/-! ## Edits of kinds -/

section

variable {t t' : Tree} {n p : NodeId} {kind : NodeKind} {slots : List (Option NodeId)}
  {location : Option Location}

/-- Where the slots are the same and kinds are refined, the same types are declared. -/
theorem declaredType_of_refines (hkind : ∀ m, (t.kind m).Refines (t'.kind m))
    (hslots : ∀ m, t'.slots m = t.slots m) (n : NodeId) : t'.declaredType n = t.declaredType n := by
  have hchild (m : NodeId) : t'.child m 0 = t.child m 0 := child_congr (hslots m) 0
  have hunqualified (m : NodeId) : t'.unqualified m = t.unqualified m := by
    have hrefines := hkind m
    unfold unqualified
    rw [hchild]
    generalize t.kind m = k at hrefines ⊢
    generalize t'.kind m = k' at hrefines ⊢
    cases hrefines <;> rfl
  unfold declaredType
  rw [(hkind n).isTypeDeclaration_eq, hchild, funext hunqualified]

theorem Kept.of_refines (hrefines : Refines t t') (hkind : ∀ m, (t.kind m).Refines (t'.kind m))
    (hslots : ∀ m, t'.slots m = t.slots m)
    (htypeId : ∀ {n data data'}, t.kind n = .type data → t'.kind n = .type data' → ¬t.Declared n →
      data'.typeId = data.typeId)
    (hlabel : ∀ {n p d value isImplicit owner}, some n ∈ t.slots p → (t.kind p).IsType →
      t.shape? p ≠ some .enumeration → t.kind n = .declaration d →
        d.kind = .label value isImplicit owner → ∃ d' owner', t'.kind n = .declaration d' ∧
          d'.id = d.id ∧ d'.kind = .label value isImplicit owner') : Kept t t' where
  toRefines := hrefines
  slots _ _ := by
    rw [hslots]
    exact forall₂_rel_refl (fun _ ↦ .inl rfl) _
  held _ hc _ _ := by rwa [child_congr (hslots _)]
  bare _ hc _ := by rwa [← child_congr (hslots _)]
  undeclared _ := by
    rintro ⟨d, hd⟩
    exact ⟨d, by rwa [← declaredType_of_refines hkind hslots]⟩
  typeId := htypeId
  label := hlabel

theorem Kept.of_setKind (h : (t.kind n).Refines kind)
    (htypeId : ∀ {data data'}, t.kind n = .type data → kind = .type data' → ¬t.Declared n →
      data'.typeId = data.typeId)
    (hlabel : ∀ {p d value isImplicit owner}, some n ∈ t.slots p → (t.kind p).IsType →
      t.shape? p ≠ some .enumeration → t.kind n = .declaration d →
      d.kind = .label value isImplicit owner → ∃ d' owner', kind = .declaration d' ∧ d'.id = d.id ∧
      d'.kind = .label value isImplicit owner') :
    Kept t (t.setKind n kind) := by
  have hrefines : Refines t (t.setKind n kind) := .of_setKind h
  refine .of_refines hrefines (fun m ↦ ?_) (slots_setKind t n · kind) ?_ ?_
  · rw [kind_setKind]
    split
    next hm => rwa [hm.1]
    · exact .same _
  · intro m data data' hm hm'
    rw [kind_setKind] at hm'
    split at hm'
    next heq =>
      obtain ⟨rfl, -⟩ := heq
      exact htypeId hm hm'
    · cases hm.symm.trans hm'
      exact fun _ ↦ rfl
  · intro m p d value isImplicit owner hmem hp hshape hm hd
    rw [kind_setKind]
    split
    next heq =>
      obtain ⟨rfl, -⟩ := heq
      exact hlabel hmem hp hshape hm hd
    · exact ⟨d, owner, hm, rfl, hd⟩

/-- A kind that says nothing new about a text. -/
theorem Edited.of_setKind (h : Kept t (t.setKind n kind))
    (htext : ∀ {data data'}, t.kind n = .type data → kind = .type data' →
      data'.unification = data.unification) :
    Edited t (t.setKind n kind) where
  toKept := h
  text {m data data'} hm hm' := by
    rw [kind_setKind] at hm'
    split at hm'
    next heq =>
      obtain ⟨rfl, -⟩ := heq
      exact htext hm hm'
    · cases hm.symm.trans hm'
      rfl
  fresh {m data} hm hm' := by
    refine absurd (has_of_kind (t := t.setKind n kind) (n := m) (by simp [hm'])) ?_
    rwa [has_setKind]

/-- A kind of node that is neither a type nor a label. -/
theorem Edited.of_setKind_other (h : (t.kind n).Refines kind)
    (htype : ∀ data, t.kind n ≠ .type data)
    (hlabel : ∀ d value isImplicit owner, t.kind n = .declaration d → d.kind ≠ .label value isImplicit owner) :
    Edited t (t.setKind n kind) :=
  .of_setKind (.of_setKind h (fun hn ↦ absurd hn (htype _))
    fun _ _ _ hn hd ↦ absurd hd (hlabel _ _ _ _ hn)) fun hn ↦ absurd hn (htype _)

/-- A type name is resolved. -/
theorem Edited.of_resolved {data : TypeData} {id : QualifiedId} (hn : t.kind n = .type data)
    (hshape : data.shape = .name id none) (link : Link) :
    Edited t (t.setKind n (.type { data with shape := .name id (some link) })) := by
  refine .of_setKind (.of_setKind ?_ ?_ ?_) ?_
  · rw [hn]
    refine .type ⟨?_, rfl, .refl _, .refl _⟩
    rw [hshape]
    exact .name (.of_none _)
  · intro data₁ data' hn₁ heq _
    cases hn.symm.trans hn₁
    cases heq
    rfl
  · intro p d value isImplicit owner _ _ _ hd
    cases hn.symm.trans hd
  · intro data₁ data' hn₁ heq
    cases hn.symm.trans hn₁
    cases heq
    rfl

theorem Edited.of_sameNodes (h : SameNodes t t') : Edited t t' where
  toKept := by
    refine .of_refines (.of_sameKinds ⟨h.size_eq, h.kind_eq⟩) (fun m ↦ ?_) h.sameLinks.slots ?_ ?_
    · rw [h.kind_eq]
      exact .same _
    · intro n data data' hn hn'
      rw [h.kind_eq, hn] at hn'
      cases hn'
      exact fun _ ↦ rfl
    · intro n p d value isImplicit owner _ _ _ hn hd
      exact ⟨d, owner, by rw [h.kind_eq, hn], rfl, hd⟩
  text hn hn' := by
    rw [h.kind_eq, hn] at hn'
    cases hn'
    rfl
  fresh hn hn' := by
    rw [h.kind_eq, kind_of_not_has hn] at hn'
    cases hn'

/-! ## Edits of slots -/

/-- The slots of one node are refilled, and new nodes are made. -/
structure Refilled (t t' : Tree) (p : NodeId) : Prop where
  size_le : t.size ≤ t'.size
  kind_eq : ∀ {m}, t.Has m → t'.kind m = t.kind m
  slots_eq : ∀ {m}, t.Has m → m ≠ p → t'.slots m = t.slots m
  type : (t.kind p).IsType → t.shape? p ≠ some .enumeration →
    List.Forall₂ (Option.Rel (Swapped t t')) (t.slots p) (t'.slots p)
  held : ∀ {c d}, t.kind p = .declaration d → t.child p 0 = some c → (t.kind c).IsType →
    (d.kind.IsInferred → t.Known c) → t'.child p 0 = some c
  before : ∀ {c}, (t.kind p).isTypeDeclaration = true ∨ (t.kind p).IsType →
    t.shape? p ≠ some .enumeration → t'.child p 0 = some c → (t'.kind c).IsType → t.child p 0 = some c

/-- It is enough to look at the node whose slots are refilled. -/
theorem Kept.of_refilled (ht : t.Linked) (h : Refilled t t' p)
    (hnew : ∀ {m}, ¬t.Has m → (t'.kind m).isTypeDeclaration = false) : Kept t t' := by
  obtain ⟨hsize, hkinds, hslots, htype, hheld, hback⟩ := h
  have hold {d} (hd : (t'.kind d).isTypeDeclaration = true) : t.Has d := by
    by_contra hnot
    rw [hnew hnot] at hd
    cases hd
  have hshape {n : NodeId} (hn : ¬∃ data, t.kind n = .type data) : t.shape? n ≠ some .enumeration := by
    intro hs
    obtain ⟨data, hkind, -⟩ := shape?_eq_some_iff.1 hs
    exact hn ⟨data, hkind⟩
  -- what is held by something declared, or by a qualified type, was held by it before
  have hbefore {n c : NodeId} (hn : t.Has n)
      (hkind : (t.kind n).isTypeDeclaration = true ∨ ∃ q, t.kind n = .qualified q)
      (hc : t'.child n 0 = some c) (hct : (t'.kind c).IsType) : t.child n 0 = some c := by
    by_cases hnp : n = p
    · subst hnp
      refine hback (hkind.imp_right fun h ↦ isType_iff.2 (.inr h)) (hshape ?_) hc hct
      rintro ⟨data, hdata⟩
      rw [hdata] at hkind
      simp [NodeKind.isTypeDeclaration, NodeKind.declaration?] at hkind
    · rwa [child_congr (hslots hn hnp)] at hc
  refine ⟨⟨hsize, fun hn ↦ by rw [hkinds hn]; exact .same _⟩, ?_, ?_, ?_, ?_, ?_, ?_⟩
  · intro n hn hs
    by_cases hnp : n = p
    · subst hnp
      exact htype hn hs
    · rw [hslots (has_of_isType hn) hnp]
      exact forall₂_rel_refl (fun _ ↦ .inl rfl) _
  · intro n c d hn hc hct hknown
    by_cases hnp : n = p
    · subst hnp
      exact hheld hn hc hct hknown
    · rwa [child_congr (hslots (has_of_child_eq hc) hnp)]
  · intro n c hn hc hct
    refine hbefore (hold hn) (.inl ?_) hc ?_
    · rwa [← hkinds (hold hn)]
    · rwa [hkinds (has_of_isType hct)]
  · rintro n hn ⟨d, hd⟩
    obtain ⟨hdecl, c, hc, hu⟩ := declaredType_eq_some_iff.1 hd
    have hdecl₀ : (t.kind d).isTypeDeclaration = true := by rwa [← hkinds (hold hdecl)]
    have hc₀ := hbefore (hold hdecl) (.inl hdecl₀) hc (isType_of_unqualified hu)
    have hhas := ht.has_of_child hc₀
    refine ⟨d, declaredType_eq_some_iff.2 ⟨hdecl₀, c, hc₀, ?_⟩⟩
    obtain ⟨data, hkind, rfl⟩ | ⟨q, hkind, hn'⟩ := unqualified_cases hu
    · rw [hkinds hhas] at hkind
      exact unqualified_of_type hkind
    · rw [hkinds hhas] at hkind
      rw [unqualified_of_qualified hkind]
      exact hbefore hhas (.inr ⟨q, hkind⟩) hn' (by rwa [hkinds (has_of_isType hn)])
  · intro n data data' hn hn' _
    rw [hkinds (has_of_kind (by simp [hn])), hn] at hn'
    cases hn'
    rfl
  · intro n q d value isImplicit owner _ _ _ hn hd
    exact ⟨d, owner, by rw [hkinds (has_of_kind (by simp [hn])), hn], rfl, hd⟩

section

variable (h : t.create kind slots location = .ok (n, t'))

include h

theorem kind_create_self : t'.kind n = kind := by
  obtain ⟨-, rfl, rfl⟩ := create_eq_ok_iff.1 h
  rw [kind_setParents]
  unfold Tree.kind
  rw [node_push]
  simp

theorem slots_create_self : t'.slots n = slots := by
  obtain ⟨-, rfl, rfl⟩ := create_eq_ok_iff.1 h
  rw [slots_setParents]
  unfold Tree.slots
  rw [node_push]
  simp

theorem has_of_has_create {m : NodeId} (hm : t'.Has m) (hne : m ≠ n) : t.Has m := by
  have hindex := index_create h
  have hsize := size_create h
  have hne' : m.index ≠ n.index := fun heq ↦ hne (by cases m; cases n; exact congrArg NodeId.mk heq)
  unfold Has at hm ⊢
  omega

end

theorem Edited.of_create (ht : t.Linked) (h : t.create kind slots location = .ok (n, t'))
    (hplain : kind.Plain) : Edited t t' := by
  have hkind := kind_create_self h
  have hcases {m : NodeId} (hm : ¬t.Has m) : m = n ∨ t'.kind m = .root := by
    by_cases hmn : m = n
    · exact .inl hmn
    · exact .inr (kind_of_not_has fun hm' ↦ hm (has_of_has_create h hm' hmn))
  have hnew {m : NodeId} (hm : ¬t.Has m) : (t'.kind m).isTypeDeclaration = false := by
    obtain rfl | hroot := hcases hm
    · rw [hkind, hplain.undeclared]
    · rw [hroot]
      rfl
  have hn : t.kind n = .root := kind_of_not_has (not_has_create h)
  refine ⟨.of_refilled (p := n) ht ⟨by rw [size_create h]; exact Nat.le_succ _, kind_create_of_has h,
    fun hm _ ↦ slots_create_of_has h hm, ?_, ?_, ?_⟩ hnew, ?_, ?_⟩
  · intro htype
    rw [hn] at htype
    obtain ⟨data, htype⟩ | ⟨q, htype⟩ := isType_iff.1 htype <;> cases htype
  · intro c d hd
    cases hn.symm.trans hd
  · intro c hor
    rw [hn] at hor
    obtain hd | htype := hor
    · cases hd
    · obtain ⟨data, htype⟩ | ⟨q, htype⟩ := isType_iff.1 htype <;> cases htype
  · intro m data data' hm hm'
    rw [kind_create_of_has h (has_of_kind (by simp [hm])), hm] at hm'
    cases hm'
    rfl
  · intro m data hm hm'
    obtain rfl | hroot := hcases hm
    · obtain ⟨htext, hwildcard⟩ := hplain.unwritten data (hkind.symm.trans hm')
      refine ⟨htext, hwildcard, fun d hd hc ↦ hm ?_⟩
      have hhas : t.Has d := by
        by_contra hnot
        rw [hnew hnot] at hd
        cases hd
      rw [child_congr (slots_create_of_has h hhas)] at hc
      exact ht.has_of_child hc
    · cases hm'.symm.trans hroot

/-- An edit of the slots of one node that makes nothing that is written. -/
theorem Edited.of_refilled (ht : t.Linked) (h : Refilled t t' p)
    (hnew : ∀ {m}, ¬t.Has m → (t'.kind m).Inert) : Edited t t' where
  toKept := .of_refilled ht h fun hm ↦ (hnew hm).plain.undeclared
  text hn hn' := by
    rw [h.kind_eq (has_of_kind (by simp [hn])), hn] at hn'
    cases hn'
    rfl
  fresh hn hn' := absurd (.inl (by rw [hn']; rfl)) (hnew hn).1

/-- Slots are refilled at a node of which nothing is written, or at an enum. -/
theorem Edited.of_sameKinds (ht : t.Linked) (h : SameKinds t t')
    (hslots : ∀ {m}, m ≠ p → t'.slots m = t.slots m)
    (hp : (t.kind p).Inert ∨ t.shape? p = some .enumeration) : Edited t t' := by
  have hno {q : Prop} (htype : (t.kind p).IsType) (hshape : t.shape? p ≠ some .enumeration) : q :=
    (hp.elim (fun hinert ↦ hinert.1 htype) hshape).elim
  have hdecl {d : Declaration} (hd : t.kind p = .declaration d) : False := by
    obtain hinert | hshape := hp
    · rw [hd] at hinert
      exact not_inert_of_declaration hinert
    · obtain ⟨data, hkind, -⟩ := shape?_eq_some_iff.1 hshape
      cases hd.symm.trans hkind
  refine .of_refilled (p := p) ht ⟨Nat.le_of_eq h.size_eq.symm, fun _ ↦ h.kind_eq _,
    fun _ ↦ hslots, hno, fun hd ↦ (hdecl hd).elim, ?_⟩ fun hm ↦ ?_
  · rintro c (hd | htype) hshape
    · obtain ⟨d, hd, -⟩ := isTypeDeclaration_iff.1 hd
      exact (hdecl hd).elim
    · exact hno htype hshape
  · rw [h.kind_eq]
    exact inert_of_not_has hm

/-- Something that is not written takes the place of something else that is not written. -/
theorem Edited.of_swap {i : Nat} {old new : NodeId} (ht : t.Linked) (hsize : t.size ≤ t'.size)
    (hkinds : ∀ {m}, t.Has m → t'.kind m = t.kind m) (hnew : ∀ {m}, ¬t.Has m → (t'.kind m).Inert)
    (hslots : ∀ {m}, t.Has m → m ≠ p → t'.slots m = t.slots m)
    (hset : t'.slots p = (t.slots p).set i (some new)) (hold : t.child p i = some old)
    (hinert : (t.kind old).Inert) (hhas : t'.Has new) (hinert' : (t'.kind new).Inert) :
    Edited t t' := by
  have hget {j : Nat} (hj : j ≠ i) : t'.child p j = t.child p j := by
    unfold child
    rw [hset, getElem?_set_ne (Ne.symm hj)]
  have hnew' : t'.child p i = some new := by
    unfold child
    rw [hset, getElem?_set_self]
    · rfl
    · exact (List.getElem?_eq_some_iff.1 (child_eq_some_iff.1 hold)).1
  refine .of_refilled (p := p) ht ⟨hsize, hkinds, hslots, fun _ _ ↦ ?_, ?_, ?_⟩ hnew
  · rw [hset]
    refine forall₂_iff_get.2 ⟨by simp, fun j hj hj' ↦ ?_⟩
    by_cases hji : j = i
    · subst hji
      have hold' : (t.slots p).get ⟨j, hj⟩ = some old := by
        rw [get_eq_getElem]
        exact (List.getElem?_eq_some_iff.1 (child_eq_some_iff.1 hold)).2
      rw [hold']
      simp only [get_eq_getElem, getElem_set_self]
      exact .some (.inr ⟨hinert, hhas, hinert'⟩)
    · simp only [get_eq_getElem, getElem_set_ne (Ne.symm hji)]
      cases (t.slots p)[j] with
      | none => exact .none
      | some c => exact .some (.inl rfl)
  · intro c d _ hc htype _
    have hi : 0 ≠ i := by
      rintro rfl
      cases hold.symm.trans hc
      exact hinert.1 htype
    rw [hget hi, hc]
  · intro c _ _ hc htype
    have hi : 0 ≠ i := by
      rintro rfl
      cases hnew'.symm.trans hc
      exact hinert'.1 htype
    rwa [← hget hi]

end

/-! ## Surgery -/

section

variable {t t' : Tree} {n old new : NodeId} {i : Nat} {child : Option NodeId}

theorem slots_setChild_of_ne (h : t.setChild n i child = .ok t') {m : NodeId} (hm : m ≠ n) :
    t'.slots m = t.slots m := by
  obtain ⟨-, rfl⟩ := setChild_eq_ok_iff.1 h
  simp [slots_setSlots, hm]

theorem replaceNode_eq_ok (h : t.replaceNode old new = .ok t') :
    ∃ p i, t.parent old = some p ∧ t.child p i = some old ∧ t.setChild p i (some new) = .ok t' := by
  unfold replaceNode at h
  split at h
  · cases h
  next p hp =>
    obtain ⟨i, hi, hset⟩ := replaceChild_eq_ok h
    exact ⟨p, i, hp, hi, hset⟩

namespace Edited

variable {p : NodeId}

theorem of_setChild (ht : t.Linked) (h : t.setChild n i child = .ok t') (hn : (t.kind n).Inert) :
    Edited t t' :=
  .of_sameKinds (p := n) ht (sameKinds_setChild h) (slots_setChild_of_ne h) (.inl hn)

theorem of_addChild (ht : t.Linked) (h : t.addChild n child = .ok t')
    (hn : t.shape? n = some .enumeration) : Edited t t' := by
  refine .of_sameKinds (p := n) ht (sameKinds_addChild h) (fun hm ↦ ?_) (.inr hn)
  obtain ⟨-, rfl⟩ := addChild_eq_ok_iff.1 h
  simp [slots_setSlots, hm]

theorem of_removeChildren {start stop : Nat} (ht : t.Linked)
    (h : t.removeChildren n start stop = .ok t') (hn : (t.kind n).Inert) : Edited t t' := by
  refine .of_sameKinds (p := n) ht (sameKinds_removeChildren h) (fun hm ↦ ?_) (.inl hn)
  unfold removeChildren at h
  dsimp only at h
  split at h
  · cases h
    simp [slots_setSlots, hm]
  · cases h

theorem putSlot_of_child {c : NodeId} (hc : t.child p i = some c) :
    putSlot (t.slots p) i child = (t.slots p).set i child := by
  unfold putSlot
  rw [if_pos (List.getElem?_eq_some_iff.1 (child_eq_some_iff.1 hc)).1]

/-- What is not written takes the place of what is not written. -/
theorem of_replaceNode (ht : t.Linked) (h : t.replaceNode old new = .ok t') (hold : (t.kind old).Inert)
    (hhas : t.Has new) (hnew : (t.kind new).Inert) : Edited t t' := by
  obtain ⟨p, i, -, hi, hset⟩ := replaceNode_eq_ok h
  have hkinds := sameKinds_setChild hset
  refine .of_swap (p := p) ht (Nat.le_of_eq hkinds.size_eq.symm) (fun _ ↦ hkinds.kind_eq _)
    (fun hm ↦ ?_) (fun _ ↦ slots_setChild_of_ne hset) ?_ hi hold ((hkinds.has_iff new).2 hhas) ?_
  · rw [hkinds.kind_eq]
    exact inert_of_not_has hm
  · rw [slots_setChild hset (has_of_child_eq hi), putSlot_of_child hi]
  · rwa [hkinds.kind_eq]

/-- The type of something that is not written is replaced. -/
theorem of_replaceNode_inert (ht : t.Linked) (h : t.replaceNode old new = .ok t')
    (hp : ∀ p, t.parent old = some p → (t.kind p).Inert) : Edited t t' := by
  obtain ⟨p, i, hparent, -, hset⟩ := replaceNode_eq_ok h
  exact .of_setChild ht hset (hp p hparent)

/-- The type of a variable that is to be inferred is replaced. -/
theorem of_replaceNode_inferred {d : Declaration} (ht : t.Linked)
    (h : t.replaceNode old new = .ok t') (hp : t.kind p = .declaration d) (hd : d.kind.IsInferred)
    (hold : t.child p 0 = some old) (hauto : t.isAuto old = true) : Edited t t' := by
  obtain ⟨p', i, hparent, -, hset⟩ := replaceNode_eq_ok h
  cases (ht.parent_of_child hold).symm.trans hparent
  have hkinds := sameKinds_setChild hset
  have htype : ¬(t.kind p).IsType := by
    rw [hp]
    simp [NodeKind.IsType, NodeKind.category]
  refine .of_refilled (p := p) ht ⟨Nat.le_of_eq hkinds.size_eq.symm, fun _ ↦ hkinds.kind_eq _,
    fun _ ↦ slots_setChild_of_ne hset, fun h ↦ absurd h htype, ?_, ?_⟩ fun hm ↦ ?_
  · intro c d' hd' hc _ hknown
    cases hp.symm.trans hd'
    cases hold.symm.trans hc
    cases (hknown hd).isAuto.symm.trans hauto
  · rintro c (hdecl | h) _ _ _
    · obtain ⟨d', hd', hkind⟩ := isTypeDeclaration_iff.1 hdecl
      cases hp.symm.trans hd'
      rw [hkind] at hd
      cases hd
    · exact absurd h htype
  · rw [hkinds.kind_eq]
    exact inert_of_not_has hm

/-- A new node that is not written takes the slot of one that is not, which it may hold. -/
theorem of_enclosed {t₁ t₂ t₃ : Tree} {kind : NodeKind} {slots : List (Option NodeId)}
    {location : Option Location} (ht : t.Linked) (hold : t.child p i = some old)
    (hinert : (t.kind old).Inert) (hkinds : SameKinds t t₁)
    (hslots : ∀ {m}, m ≠ p → t₁.slots m = t.slots m)
    (hset : putSlot (t₁.slots p) i (some new) = (t.slots p).set i (some new))
    (hcreate : t₁.create kind slots location = .ok (new, t₂)) (hkind : kind.Inert)
    (hplace : t₂.setChild p i (some new) = .ok t₃) : Edited t t₃ := by
  have hp : t₁.Has p := (hkinds.has_iff p).2 (has_of_child_eq hold)
  have hkinds₃ := sameKinds_setChild hplace
  have hrefines := Refines.of_create hcreate
  have hkind₃ : (t₃.kind new).Inert := by
    rw [hkinds₃.kind_eq, kind_create_self hcreate]
    exact hkind
  refine .of_swap (p := p) ht ?_ (fun {m} hm ↦ ?_) (fun {m} hm ↦ ?_) (fun {m} hm hne ↦ ?_) ?_ hold hinert
    ?_ hkind₃
  · rw [hkinds₃.size_eq, ← hkinds.size_eq]
    exact hrefines.size_le
  · rw [hkinds₃.kind_eq, kind_create_of_has hcreate ((hkinds.has_iff m).2 hm), hkinds.kind_eq]
  · by_cases hmn : m = new
    · rwa [hmn]
    · rw [hkinds₃.kind_eq]
      refine inert_of_not_has fun hm₂ ↦ hm ?_
      exact (hkinds.has_iff m).1 (has_of_has_create hcreate hm₂ hmn)
  · rw [slots_setChild_of_ne hplace hne, slots_create_of_has hcreate ((hkinds.has_iff m).2 hm),
      hslots hne]
  · rw [slots_setChild hplace (hrefines.has hp), slots_create_of_has hcreate hp, hset]
  · exact (hkinds₃.has_iff new).2 (has_create hcreate)

end Edited

end

end ProtocolIR.Tree
