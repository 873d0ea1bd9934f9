import ProtocolIR.Proofs.Ensures
import ProtocolIR.Proofs.Unification.Surgery

/-!
# Copies keep texts

A copy of a type has the recorded texts of what it is a copy of. They are allowed in the copy as
well: it is built like its source, node by node, and what it refers to by name is the same. So a
tree that grows by copies, and by new nodes without a text, stays faithful.
-/

namespace ProtocolIR

open Tree List

namespace Tree

/-! ## Copies of subtrees -/

/-- Some new nodes are copies of nodes of `s`, with copies in their slots; `r` says of which. -/
structure Replicas (s t t' : Tree) (r : NodeId → NodeId → Prop) : Prop where
  new : ∀ {a b}, r a b → ¬t.Has b
  present : ∀ {a b}, r a b → t'.Has b
  kind : ∀ {a b}, r a b → t'.kind b = s.kind a
  slots : ∀ {a b}, r a b → List.Forall₂ (Option.Rel r) (s.slots a) (t'.slots b)
  unique : ∀ {a a' b}, r a b → r a' b → a = a'

/-- All new nodes are copies. -/
structure Copies (s t t' : Tree) (r : NodeId → NodeId → Prop) : Prop extends Replicas s t t' r where
  total : ∀ {b}, ¬t.Has b → t'.Has b → ∃ a, r a b

theorem forall₂_rel_mono {r r' : NodeId → NodeId → Prop} (h : ∀ {a b}, r a b → r' a b)
    {l l' : List (Option NodeId)} (hl : List.Forall₂ (Option.Rel r) l l') :
    List.Forall₂ (Option.Rel r') l l' := by
  refine hl.imp fun slot slot' hrel ↦ ?_
  cases hrel with
  | none => exact .none
  | some hr => exact .some (h hr)

variable {s t t₁ t₂ : Tree} {r r' : NodeId → NodeId → Prop} {n c : NodeId}
  {slots : List (Option NodeId)}

namespace Replicas

theorem nothing (s t t' : Tree) : Replicas s t t' fun _ _ ↦ False :=
  ⟨False.elim, False.elim, False.elim, False.elim, fun h ↦ h.elim⟩

/-- Where copies stay what they are, they stay copies. -/
theorem congr (h : Replicas s t t₁ r) (hhas : ∀ {a b}, r a b → t₂.Has b)
    (hkind : ∀ {a b}, r a b → t₂.kind b = t₁.kind b) (hslots : ∀ {a b}, r a b → t₂.slots b = t₁.slots b) :
    Replicas s t t₂ r where
  new := h.new
  present := hhas
  kind hr := (hkind hr).trans (h.kind hr)
  slots hr := hslots hr ▸ h.slots hr
  unique := h.unique

/-- Copies that are made one after the other. -/
theorem append (h : Replicas s t t₁ r) (h' : Replicas s t₁ t₂ r') (hg : Growth t t₁)
    (hg' : Growth t₁ t₂) : Replicas s t t₂ fun a b ↦ r a b ∨ r' a b where
  new := by
    rintro a b (hr | hr)
    · exact h.new hr
    · exact fun hb ↦ h'.new hr (hg.has hb)
  present := by
    rintro a b (hr | hr)
    · exact hg'.has (h.present hr)
    · exact h'.present hr
  kind := by
    rintro a b (hr | hr)
    · rw [hg'.kind_eq (h.present hr), h.kind hr]
    · exact h'.kind hr
  slots := by
    rintro a b (hr | hr)
    · rw [hg'.slots_eq (h.present hr)]
      exact forall₂_rel_mono .inl (h.slots hr)
    · exact forall₂_rel_mono .inr (h'.slots hr)
  unique := by
    rintro a a' b (hr | hr) (hr' | hr')
    · exact h.unique hr hr'
    · exact absurd (h.present hr) (h'.new hr')
    · exact absurd (h.present hr') (h'.new hr)
    · exact h'.unique hr hr'

end Replicas

namespace Copies

theorem nothing (s t : Tree) : Copies s t t fun _ _ ↦ False :=
  ⟨.nothing s t t, fun h h' ↦ absurd h' h⟩

theorem append (h : Copies s t t₁ r) (h' : Copies s t₁ t₂ r') (hg : Growth t t₁)
    (hg' : Growth t₁ t₂) : Copies s t t₂ fun a b ↦ r a b ∨ r' a b where
  toReplicas := h.toReplicas.append h'.toReplicas hg hg'
  total {b} hb hb' := by
    by_cases hb₁ : t₁.Has b
    · exact (h.total hb hb₁).imp fun _ ↦ .inl
    · exact (h'.total hb₁ hb').imp fun _ ↦ .inr

/-- The node around copies is the copy of the node around their sources. -/
theorem node {kind : NodeKind} {location : Option Location} (h : Copies s t t₁ r) (hg : Growth t t₁)
    (hkind : kind = s.kind n)
    (hslots : List.Forall₂ (Option.Rel r) (s.slots n) slots)
    (hcreate : t₁.create kind slots location = .ok (c, t₂)) :
    Copies s t t₂ fun a b ↦ r a b ∨ a = n ∧ b = c := by
  have hc : ¬t₁.Has c := not_has_create hcreate
  have hold {a : NodeId} (hr : r a c) : False := hc (h.present hr)
  refine ⟨⟨?_, ?_, ?_, ?_, ?_⟩, fun {b} hb hb' ↦ ?_⟩
  · rintro a b (hr | ⟨-, rfl⟩)
    · exact h.new hr
    · exact fun hb ↦ hc (hg.has hb)
  · rintro a b (hr | ⟨-, rfl⟩)
    · exact (Refines.of_create hcreate).has (h.present hr)
    · exact has_create hcreate
  · rintro a b (hr | ⟨rfl, rfl⟩)
    · rw [kind_create_of_has hcreate (h.present hr), h.kind hr]
    · rw [kind_create_self hcreate, hkind]
  · rintro a b (hr | ⟨rfl, rfl⟩)
    · rw [slots_create_of_has hcreate (h.present hr)]
      exact forall₂_rel_mono .inl (h.slots hr)
    · rw [slots_create_self hcreate]
      exact forall₂_rel_mono .inl hslots
  · rintro a a' b (hr | ⟨rfl, rfl⟩) (hr' | ⟨rfl, hb⟩)
    · exact h.unique hr hr'
    · exact (hold (hb ▸ hr)).elim
    · exact (hold hr').elim
    · rfl
  · by_cases hbc : b = c
    · exact ⟨n, .inr ⟨rfl, hbc⟩⟩
    · exact (h.total hb (has_of_has_create hcreate hb' hbc)).imp fun _ ↦ .inl

/-- Comments are not looked at. -/
theorem setComments (h : Copies s t t₁ r) (c : NodeId) (comments : List String) :
    Copies s t (t₁.setComments c comments) r where
  toReplicas := h.toReplicas.congr (fun hr ↦ by simpa using h.present hr) (fun _ ↦ by simp) fun _ ↦ by simp
  total hb hb' := h.total hb (by simpa using hb')

/-! ## Texts of copies -/

/-- A node of the tree, or a copy of one. -/
def Origin (t : Tree) (r : NodeId → NodeId → Prop) (a b : NodeId) : Prop := t.Has a ∧ a = b ∨ r a b

section

variable (h : Copies t t t₁ r) {a b p : NodeId}

include h

theorem exists_origin (hb : t₁.Has b) : ∃ a, Origin t r a b := by
  by_cases hold : t.Has b
  · exact ⟨b, .inl ⟨hold, rfl⟩⟩
  · exact (h.total hold hb).imp fun _ ↦ .inr

theorem origin_unique {a' : NodeId} (ho : Origin t r a b) (ho' : Origin t r a' b) : a = a' := by
  obtain ⟨ha, rfl⟩ | hr := ho
  · obtain ⟨-, rfl⟩ | hr' := ho'
    · rfl
    · exact absurd ha (h.new hr')
  · obtain ⟨ha', rfl⟩ | hr' := ho'
    · exact absurd ha' (h.new hr)
    · exact h.unique hr hr'

variable (hg : Growth t t₁)

include hg

theorem kind_of_origin (ho : Origin t r a b) : t₁.kind b = t.kind a := by
  obtain ⟨ha, rfl⟩ | hr := ho
  · exact hg.kind_eq ha
  · exact h.kind hr

variable (ht : t.Linked)

include ht

theorem slots_of_origin (ho : Origin t r a b) :
    List.Forall₂ (Option.Rel (Origin t r)) (t.slots a) (t₁.slots b) := by
  obtain ⟨ha, rfl⟩ | hr := ho
  · rw [hg.slots_eq ha, forall₂_same]
    rintro (_ | c) hc
    · exact .none
    · exact .some (.inl ⟨ht.has_of_held hc, rfl⟩)
  · exact forall₂_rel_mono .inr (h.slots hr)

/-- What holds a copy is a copy of what holds its source. -/
theorem holder_of_origin (ho : Origin t r a b) {i : Nat} (hb : t₁.child p i = some b) :
    ∃ q, Origin t r q p ∧ t.child q i = some a := by
  obtain ⟨q, hq⟩ := h.exists_origin (has_of_child_eq hb)
  have hflip : List.Forall₂ (Option.Rel fun b a ↦ Origin t r a b) (t₁.slots p) (t.slots q) := by
    refine (h.slots_of_origin hg ht hq).flip.imp fun slot slot' hrel ↦ ?_
    cases hrel with
    | none => exact .none
    | some ho => exact .some ho
  obtain ⟨a', ha', ho'⟩ := Carries.child_of_forall₂ hflip hb
  cases h.origin_unique ho ho'
  exact ⟨q, hq, ha'⟩

theorem declared_of_origin {data : TypeData} (ho : Origin t r a b) (ha : t.kind a = .type data)
    (hb : t₁.Declared b) : t.Declared a := by
  obtain ⟨d, hd⟩ := hb
  obtain ⟨hdecl, c, hc, hu⟩ := declaredType_eq_some_iff.1 hd
  obtain ⟨data', -, rfl⟩ | ⟨q, hq, hcb⟩ := unqualified_cases hu
  · obtain ⟨d', hd', ha'⟩ := h.holder_of_origin hg ht ho hc
    rw [h.kind_of_origin hg hd'] at hdecl
    exact ⟨d', declaredType_eq_some_iff.2 ⟨hdecl, a, ha', unqualified_of_type ha⟩⟩
  · obtain ⟨c', hc', ha'⟩ := h.holder_of_origin hg ht ho hcb
    obtain ⟨d', hd', hcd⟩ := h.holder_of_origin hg ht hc' hc
    rw [h.kind_of_origin hg hd'] at hdecl
    rw [h.kind_of_origin hg hc'] at hq
    exact ⟨d', declaredType_eq_some_iff.2 ⟨hdecl, c', hcd, by rw [unqualified_of_qualified hq, ha']⟩⟩

/-- The texts of a type are allowed in its copies. -/
theorem carries : Carries t t₁ (Origin t r) where
  same ha := .inl ⟨ha, rfl⟩
  type {a b data} ho ha := ⟨data, by rw [h.kind_of_origin hg ho, ha], .same _, rfl, .refl _, fun _ ↦ rfl⟩
  qualified ho ha := by rw [h.kind_of_origin hg ho, ha]
  declaration {a b d} ho ha :=
    ⟨d, by rw [h.kind_of_origin hg ho, ha], rfl, rfl, .refl _, .same _⟩
  inert ho ha := by rwa [h.kind_of_origin hg ho]
  slots ho _ _ := h.slots_of_origin hg ht ho
  held ho _ hc _ _ := Carries.child_of_forall₂ (h.slots_of_origin hg ht ho) hc
  undeclared ho ha hnot hb := hnot (h.declared_of_origin hg ht ho ha hb)
  label {a b p d value isImplicit owner} ho _ _ _ ha hd :=
    ⟨d, owner, by rw [h.kind_of_origin hg ho, ha], rfl, hd⟩

theorem faithful (hf : t.Faithful) : t₁.Faithful where
  written {n data x} hn hx := by
    obtain ⟨a, ho⟩ := h.exists_origin (has_of_kind (n := n) (by simp [hn]))
    rw [h.kind_of_origin hg ho] at hn
    exact (h.carries hg ht).written hf.plain (hf.written hn hx) ho
  stamped {d u data} hd hu hdata hcompound := by
    obtain ⟨a, ho⟩ := h.exists_origin (has_of_kind (n := u) (by simp [hdata]))
    obtain ⟨d', hd', ha⟩ := h.holder_of_origin hg ht ho hu
    rw [h.kind_of_origin hg hd'] at hd
    rw [h.kind_of_origin hg ho] at hdata
    exact hf.stamped hd ha hdata hcompound
  plain n data hn hauto := by
    obtain ⟨a, ho⟩ := h.exists_origin (has_of_kind (n := n) (by simp [hn]))
    rw [h.kind_of_origin hg ho] at hn
    exact hf.plain a data hn hauto

end

end Copies

end Tree

/-! ## Copying -/

theorem ensures_create_eq {t : Tree} (kind : NodeKind) (slots : List (Option NodeId))
    (location : Option Location) : Ensures (Surgery.create kind slots location) t fun c t' ↦
      t.create kind slots location = .ok (c, t') := fun _ _ h ↦ h

namespace Tree

/-- What is at a node, but for its place in the tree. -/
def data (t : Tree) (n : NodeId) : Node := { t.node n with slots := [], parent := none }

/-- The second node is like the first, but for a scope and findings. -/
def Resembles (s t : Tree) (a b : NodeId) : Prop := t.data b = { s.data a with scope := none, findings := [] }

section

variable {s t t₁ t₂ : Tree} {a b n c : NodeId} {slots : List (Option NodeId)}

theorem Resembles.keep (h : Resembles s t a b) (hg : Growth t t₁) (hb : t.Has b) : Resembles s t₁ a b := by
  unfold Resembles data
  rw [hg.node_eq hb]
  exact h

/-- The node that goes around copies does not change them, and comments are copied with the rest. -/
theorem Resembles.create {r : NodeId → NodeId → Prop} (hlike : ∀ {a b}, r a b → Resembles s t₁ a b)
    (hhas : ∀ {a b}, r a b → t₁.Has b) (hn : t₁.node n = s.node n) (hself : some c ∉ slots)
    (hcreate : t₁.create (t₁.kind n) slots (t₁.location n) = .ok (c, t₂)) :
    ∀ a b, r a b ∨ a = n ∧ b = c → Resembles s (t₂.setComments c (t₁.node n).comments) a b := by
  unfold Resembles data setComments at *
  rintro a b (hr | ⟨rfl, rfl⟩)
  · have hne : ¬(b = c ∧ t₂.Has c) := fun heq ↦ not_has_create hcreate (heq.1 ▸ hhas hr)
    rw [node_modifyNode, if_neg hne, node_create_of_has hcreate (hhas hr)]
    split <;> exact hlike hr
  · rw [node_modifyNode, if_pos ⟨rfl, has_create hcreate⟩, node_create_self hcreate hself]
    unfold kind location
    rw [hn]

end

end Tree

namespace Tree.Duplicated

variable {s t t' : Tree} {slots slots' : List (Option NodeId)} {n c : NodeId}

/-- Here `s` is the tree at the start, whose nodes stay as they are while their copies are made. -/
theorem copies (hs : s.Linked) (h : Duplicated slots t slots' t') (hg : Growth s t)
    (hslots : ∀ n, some n ∈ slots → s.Has n) :
    ∃ r, Copies s t t' r ∧ List.Forall₂ (Option.Rel r) slots slots' ∧
      ∀ {a b}, r a b → Resembles s t' a b := by
  induction h with
  | nil t => exact ⟨_, .nothing s t, .nil, False.elim⟩
  | empty _ ih =>
    obtain ⟨r, hr, hcopies, hlike⟩ := ih hg fun n hn ↦ hslots n (mem_cons_of_mem _ hn)
    exact ⟨r, hr, .cons .none hcopies, hlike⟩
  | @node n c _ _ _ t t₁ _ _ hparts hcreate hrest ihparts ih =>
    have hn := hslots n mem_cons_self
    have hg₁ := hparts.pieces.1
    rw [hg.slots_eq hn] at ihparts
    obtain ⟨r, hr, hcopies, hlike⟩ := ihparts hg fun _ ↦ hs.has_of_held
    have hnode := (hr.node hg₁ ((hg.trans hg₁).kind_eq hn) hcopies hcreate).setComments c
      (t₁.node n).comments
    have hlikes := Resembles.create hlike (fun hab ↦ (hr.present hab)) ((hg.trans hg₁).node_eq hn)
      (fun hself ↦ not_has_create hcreate (hparts.pieces.2.piece hself).has) hcreate
    have hg₂ := (Duplicated.node hparts hcreate (.nil _)).pieces.1
    obtain ⟨r', hr', hcopies', hlike'⟩ :=
      ih (hg.trans hg₂) fun m hm ↦ hslots m (mem_cons_of_mem _ hm)
    refine ⟨_, hnode.append hr' hg₂ hrest.pieces.1,
      .cons (.some (.inl (.inr ⟨rfl, rfl⟩))) (forall₂_rel_mono .inr hcopies'), ?_⟩
    rintro a b (hab | hab)
    · exact (hlikes a b hab).keep hrest.pieces.1 (hnode.present hab)
    · exact hlike' hab

/-- What is not in the tree counts as a node without children. -/
theorem copies_self (ht : t.Linked) (h : Duplicated [some n] t [some c] t') :
    ∃ r, Copies t t t' r ∧ r n c := by
  cases h with
  | @node _ _ _ _ _ _ t₁ _ _ hparts hcreate hnil =>
    cases hnil
    have hkind : t₁.kind n = t.kind n := by
      by_cases hn : t.Has n
      · exact hparts.pieces.1.kind_eq hn
      · rw [slots_of_not_has hn] at hparts
        cases hparts
        rfl
    obtain ⟨r, hr, hcopies, -⟩ := hparts.copies ht (.refl t) fun _ ↦ ht.has_of_held
    exact ⟨_, (hr.node hparts.pieces.1 hkind hcopies hcreate).setComments c _, .inr ⟨rfl, rfl⟩⟩

end Tree.Duplicated

end ProtocolIR
