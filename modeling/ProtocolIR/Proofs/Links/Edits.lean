import ProtocolIR.Proofs.Links.Anchoring

/-!
# Sparing edits

The operations that passes are made of are sparing edits where the passes use them. New nodes hold
loose nodes; a slot is filled anew if what it held was an expression, or if its node is not firm;
labels are added to enums; and what is recorded in a node are facts that were not known.

Names are looked up in scopes, so what the scopes list has to last as well. A region is *indexed* if
it is secure and this is the case.
-/

namespace ProtocolIR.Tree

open List NodeKind

variable {t t' : Tree} {n c : NodeId} {i j : Nat} {region : NodeId → Prop}

/-- Some scope lists a node. -/
def Lists (t : Tree) (a : NodeId) : Prop := ∃ s key, a ∈ (t.scope s).get key

theorem Lists.congr {a : NodeId} (hscopes : t'.scopes = t.scopes) (h : t'.Lists a) : t.Lists a := by
  obtain ⟨s, key, ha⟩ := h
  unfold scope at ha
  rw [hscopes] at ha
  exact ⟨s, key, ha⟩

/-- A secure region, and scopes that list only what lasts. -/
structure Indexed (region : NodeId → Prop) (t : Tree) : Prop extends Secure region t where
  listed : ∀ {a}, t.Lists a → t.Lasting a

theorem Indexed.spare (hi : Indexed region t) (h : Sparing region t t') (hscopes : t'.scopes = t.scopes) :
    Indexed region t' where
  toSecure := hi.toSecure.spare h
  listed ha := h.lasting hi.toLinked (hi.listed (ha.congr hscopes))

/-! ## What is held where -/

namespace Secure

theorem isFixture_of_child (hs : Secure region t) (hn : region n) (hc : t.child n i = some c)
    (hframes : (t.kind n).frames i = false) : (t.kind c).isFixture = false := by
  refine Bool.eq_false_iff.2 fun hfixture ↦ ?_
  rw [hs.framed hn hc hfixture] at hframes
  cases hframes

/-- Compound types are held by qualified types, and fixtures by the slots for them. -/
theorem isLoose_of_child (hs : Secure region t) (hn : region n) (hc : t.child n i = some c)
    (hframes : (t.kind n).frames i = false) (hkind : (t.kind n).category ≠ .qualified) :
    (t.kind c).isLoose = true := by
  refine isLoose_iff.2 ⟨hs.isFixture_of_child hn hc hframes, Bool.eq_false_iff.2 fun hcompound ↦ ?_⟩
  obtain ⟨q, hq, _, -, -, -, hqualified, -⟩ := hs.owned (hs.below hn hc) hcompound
  cases (hs.parent_of_child hc).symm.trans hq
  exact hkind hqualified

end Secure

/-! ## Surgery -/

@[simp] theorem scopes_setSlots (t : Tree) (n : NodeId) (slots : List (Option NodeId)) :
    (t.setSlots n slots).scopes = t.scopes := rfl

theorem scopes_removeChildren {start stop : Nat} (h : t.removeChildren n start stop = .ok t') :
    t'.scopes = t.scopes := by
  unfold Tree.removeChildren at h
  dsimp only at h
  split at h
  · cases h
    simp
  · cases h

theorem child_setChild {child : Option NodeId} (h : t.setChild n i child = .ok t') (hn : t.Has n) (j : Nat) :
    t'.child n j = if j = i then child else t.child n j := by
  unfold Tree.child
  rw [slots_setChild h hn]
  unfold putSlot
  split
  next hlt =>
    rw [getElem?_set]
    by_cases hj : i = j
    · subst hj
      simp [hlt]
    · rw [if_neg hj, if_neg fun heq ↦ hj heq.symm]
  next hlt =>
    by_cases hj : j = i
    · subst hj
      rw [if_pos rfl, getElem?_append_right (by simp; omega)]
      have hindex : j - (t.slots n ++ List.replicate (j - (t.slots n).length) none).length = 0 := by
        simp; omega
      rw [hindex]
      rfl
    · rw [if_neg hj, append_assoc]
      by_cases hin : j < (t.slots n).length
      · rw [getElem?_append_left hin]
      · -- behind the old slots there are empty ones
        have hnone : (t.slots n)[j]?.join = none := by rw [getElem?_eq_none (by omega)]; rfl
        rw [hnone, getElem?_append_right (by omega)]
        by_cases hpad : j - (t.slots n).length < i - (t.slots n).length
        · rw [getElem?_append_left (by simpa using hpad), getElem?_replicate, if_pos hpad]
          rfl
        · rw [getElem?_eq_none (by simp; omega)]
          rfl

/-- An edit that only puts nodes into slots, or takes them out. -/
theorem Sparing.of_sameKinds (h : SameKinds t t') (linked : t'.Linked)
    (spared : ∀ {n c i}, (t.kind n).isFirm = true → t.child n i = some c →
      (t.kind c).isExpression = false → t'.child n i = some c)
    (placed : ∀ {n c i}, t'.child n i = some c → t.child n i = some c ∨ Fits region t t' n i c) :
    Sparing region t t' where
  toRefines := .of_sameKinds h
  spared := spared
  linked := linked
  placed := placed
  made hm hm' := absurd ((h.has_iff _).1 hm') hm
  links _ hlink := .inl (by rwa [h.kind_eq] at hlink)

/-- An edit that leaves the links between the nodes as they were. -/
theorem Sparing.of_sameLinks (ht : t.Linked) (h : Refines t t') (hsame : SameLinks t t')
    (hsize : t'.size = t.size)
    (hlinks : ∀ {n link}, link ∈ (t'.kind n).links → link ∈ (t.kind n).links ∨ t.Lasts link) :
    Sparing region t t' where
  toRefines := h
  spared _ hc _ := by rwa [child_congr (hsame.slots _)]
  linked := hsame.linked ht
  placed hc := .inl (by rwa [child_congr (hsame.slots _)] at hc)
  made {m} hm hm' := absurd (by unfold Has at hm' ⊢; rwa [hsize] at hm') hm
  links _ hlink := hlinks hlink

/-- Scopes are no part of what is secure. -/
theorem SameNodes.sparing (h : SameNodes t t') (ht : t.Linked) : Sparing region t t' :=
  .of_sameLinks ht ⟨Nat.le_of_eq h.size_eq.symm, fun _ ↦ by rw [h.kind_eq]; exact .same _⟩ h.sameLinks
    h.size_eq fun hlink ↦ .inl (by rwa [h.kind_eq] at hlink)

namespace Indexed

variable {kind : NodeKind}

variable (hi : Indexed region t)

include hi

/-- A new node around loose nodes. -/
theorem create {slots : List (Option NodeId)} {location : Option Location}
    (h : t.create kind slots location = .ok (n, t'))
    (hslots : ∀ c, some c ∈ slots → t.Has c ∧ region c ∧ (t.kind c).isLoose = true)
    (hnodup : (slots.filterMap id).Nodup)
    (hkind : kind.isCompound = false ∧ (kind.isFixture = true → kind.isLabel = true))
    (hlinks : ∀ link ∈ kind.links, t.Lasts link) : Indexed region t' := by
  have hself := kind_create_self h
  have hnew : region n := hi.new (not_has_create h)
  refine hi.spare { Refines.of_create h with
    linked := (reslotted_create h (fun c hc ↦ (hslots c hc).1) hnodup).linked hi.toLinked
    spared := fun {m c i} _ hc _ ↦ by rw [child_congr (slots_create_of_has h (has_of_child_eq hc)), hc]
    placed := fun {m c i} hc ↦ ?_
    made := fun {m} hm hm' ↦ ?_
    links := fun {m link} _ hlink ↦ ?_ } (scopes_create h)
  · by_cases hmn : m = n
    · subst hmn
      have hmem := mem_slots_of_child hc
      rw [slots_create_self h] at hmem
      obtain ⟨hhas, hregion, hloose⟩ := hslots c hmem
      exact .inr (.of_isLoose hnew hregion (by rwa [kind_create_of_has h hhas]))
    · have hhas := has_of_has_create h (has_of_child_eq hc) hmn
      exact .inl (by rwa [child_congr (slots_create_of_has h hhas)] at hc)
  · by_cases hmn : m = n
    · rw [hmn, hself]
      exact hkind
    · exact absurd (has_of_has_create h hm' hmn) hm
  · by_cases hmn : m = n
    · rw [hmn, hself] at hlink
      exact .inr (hlinks link hlink)
    · by_cases hm : t.Has m
      · rw [kind_create_of_has h hm] at hlink
        exact .inl hlink
      · rw [kind_of_not_has fun hm' ↦ hm (has_of_has_create h hm' hmn)] at hlink
        cases hlink

/-- A slot is filled anew, or emptied. -/
theorem setChild {child : Option NodeId} (h : t.setChild n i child = .ok t') (hhas : t.Has n)
    (hn : region n)
    (hold : (t.kind n).isFirm = true → ∀ c, t.child n i = some c → (t.kind c).isExpression = true)
    (hchild : ∀ c, child = some c → t.Has c ∧ region c ∧ (t.kind c).isLoose = true) :
    Indexed region t' := by
  have hkinds := sameKinds_setChild h
  have hother {m j : _} (hm : m ≠ n) : t'.child m j = t.child m j :=
    child_congr (slots_setChild_of_ne h hm) j
  have hlinked : t'.Linked := (reslotted_setChild hi.toLinked h hhas fun c hc ↦
    (hchild c (Option.mem_toList.1 hc)).1).linked hi.toLinked
  refine hi.spare (.of_sameKinds hkinds hlinked (fun {m c j} hfirm hc hexpression ↦ ?_)
    fun {m c j} hc ↦ ?_) ?_
  · by_cases hm : m = n
    · subst hm
      rw [child_setChild h hhas, if_neg, hc]
      rintro rfl
      rw [hold hfirm c hc] at hexpression
      cases hexpression
    · rw [hother hm, hc]
  · by_cases hm : m = n
    · subst hm
      rw [child_setChild h hhas] at hc
      split at hc
      · obtain ⟨-, hregion, hloose⟩ := hchild c hc
        exact .inr (.of_isLoose hn hregion (by rwa [hkinds.kind_eq]))
      · exact .inl hc
    · rw [hother hm] at hc
      exact .inl hc
  · obtain ⟨-, rfl⟩ := setChild_eq_ok_iff.1 h
    simp

/-- A loose node takes the place of an expression, or of a node that is not held firmly. -/
theorem replaceNode {old new : NodeId} (h : t.replaceNode old new = .ok t') (hregion : region old)
    (hnew : t.Has new ∧ region new ∧ (t.kind new).isLoose = true)
    (hold : ∀ p, t.parent old = some p → (t.kind p).isFirm = true → (t.kind old).isExpression = true) :
    Indexed region t' := by
  obtain ⟨p, i, hp, hc, hset⟩ := replaceNode_eq_ok h
  refine hi.setChild hset (has_of_child_eq hc) (hi.above hregion hp) (fun hfirm c hc' ↦ ?_) ?_
  · cases hc.symm.trans hc'
    exact hold p hp hfirm
  · rintro c ⟨⟩
    exact hnew

/-- All slots of a node that is not firm are taken out. -/
theorem removeChildren (h : t.removeChildren n 0 (t.slots n).length = .ok t') (hhas : t.Has n)
    (hn : (t.kind n).isFirm = false) : Indexed region t' := by
  have hkinds := sameKinds_removeChildren h
  have hslots : ∀ m, t'.slots m = if m = n then [] else t.slots m := by
    unfold Tree.removeChildren at h
    rw [if_pos ⟨Nat.zero_le _, Nat.le_refl _⟩] at h
    cases h
    simp [slots_setSlots, hhas]
  have hlinked : t'.Linked := (reslotted_removeChildren hi.toLinked hhas h).linked hi.toLinked
  refine hi.spare (.of_sameKinds hkinds hlinked (fun {m c j} hfirm hc _ ↦ ?_) fun {m c j} hc ↦ .inl ?_)
    (scopes_removeChildren h)
  · have hm : m ≠ n := by
      rintro rfl
      rw [hn] at hfirm
      cases hfirm
    have hslot : t'.slots m = t.slots m := by rw [hslots, if_neg hm]
    rw [child_congr hslot, hc]
  · have hmem := mem_slots_of_child hc
    rw [hslots] at hmem
    split at hmem
    · cases hmem
    next hm =>
      have hslot : t'.slots m = t.slots m := by rw [hslots, if_neg hm]
      rwa [child_congr hslot] at hc

/-- A node comes into a compound type, such as a label into an enum. -/
theorem addChild (h : t.addChild n (some c) = .ok t') (hn : region n)
    (hcompound : (t.kind n).isCompound = true) (hc : t.Has c) (hregion : region c) :
    Indexed region t' := by
  obtain ⟨data, hkind⟩ := exists_type_of_isCompound hcompound
  have hhas := has_of_isCompound hcompound
  have hkinds := sameKinds_addChild h
  have hslots : t'.scopes = t.scopes ∧
      ∀ m, t'.slots m = if m = n then t.slots n ++ [some c] else t.slots m := by
    obtain ⟨-, rfl⟩ := addChild_eq_ok_iff.1 h
    simp [slots_setSlots, hhas]
  have hanchored : t.Anchored n := by
    refine hi.anchored hn hhas (isLoose_eq_false_of_isCompound hcompound) fun hl ↦ ?_
    rw [hkind] at hl
    cases hl
  have hlinked : t'.Linked := (reslotted_addChild h hhas (by simpa using hc)).linked hi.toLinked
  refine hi.spare (.of_sameKinds hkinds hlinked (fun {m d j} _ hd _ ↦ ?_) fun {m d j} hd ↦ ?_) hslots.1
  · rw [child_eq_some_iff] at hd ⊢
    rw [hslots.2]
    split
    next hm =>
      subst hm
      rw [getElem?_append_left (List.getElem?_eq_some_iff.1 hd).1, hd]
    · exact hd
  · rw [child_eq_some_iff, hslots.2] at hd
    split at hd
    next hm =>
      subst hm
      rw [getElem?_append] at hd
      split at hd
      · exact .inl (child_eq_some_iff.2 hd)
      cases mem_singleton.1 (mem_of_getElem? hd)
      refine .inr ⟨hn, hregion, fun _ ↦ ⟨hanchored, ?_, fun _ ↦ ?_⟩⟩
      · rw [hkinds.kind_eq, hkind]
        rwa [hkind] at hcompound
      · rwa [hkinds.kind_eq]
    · exact .inl (child_eq_some_iff.2 hd)

/-! ## Facts -/

theorem sparing_setKind (h : (t.kind n).Refines kind)
    (hlinks : ∀ link ∈ kind.links, link ∈ (t.kind n).links ∨ t.Lasts link) :
    Sparing region t (t.setKind n kind) := by
  refine .of_sameLinks hi.toLinked (.of_setKind h) (sameLinks_setKind t n kind) (size_setKind ..)
    fun {m link} hlink ↦ ?_
  rw [kind_setKind] at hlink
  split at hlink
  next hm => exact hm.1 ▸ hlinks link hlink
  · exact .inl hlink

theorem setKind (h : (t.kind n).Refines kind)
    (hlinks : ∀ link ∈ kind.links, link ∈ (t.kind n).links ∨ t.Lasts link) :
    Indexed region (t.setKind n kind) :=
  hi.spare (hi.sparing_setKind h hlinks) rfl

theorem unifyType : Indexed region (t.unifyType n).2 := by
  obtain heq | ⟨data, text, hkind, hnone, -, heq⟩ := unifyType_cases t n
  · rwa [heq]
  · rw [heq]
    refine hi.setKind ?_ fun link hlink ↦ .inl ?_
    · rw [hkind]
      exact .type ⟨.same _, rfl, by rw [hnone]; exact .of_none _, .refl _⟩
    · rwa [hkind]

end Indexed

end ProtocolIR.Tree
