import ProtocolIR.Proofs.Safety
import ProtocolIR.Proofs.Tree.Surgery

/-!
# Growing trees

Types and expressions are built beside the tree: new nodes are made, wired to one another, and
only then placed. While that goes on nothing changes at the nodes there were, which `Growth` says,
and what has been built is a `Piece`: a new node without a parent. Copies of subtrees and
references to types are pieces, whatever they are copies of, and making them is safe.
-/

namespace ProtocolIR.Tree

open List

variable {t t₁ t₂ : Tree} {n c : NodeId} {slots : List (Option NodeId)}

/-- `t'` is `t` with further nodes; the old ones are as they were. -/
structure Growth (t t' : Tree) : Prop where
  size_le : t.size ≤ t'.size
  node_eq : ∀ {n : NodeId}, t.Has n → t'.node n = t.node n
  scopes_eq : t'.scopes = t.scopes
  linked : t.Linked → t'.Linked
  coherent : t.Coherent → t'.Coherent

/-- A node that is new in `t'` and that no slot holds. -/
structure Piece (t t' : Tree) (c : NodeId) : Prop where
  new : ¬t.Has c
  has : t'.Has c
  free : t'.parent c = none

/-- Slots to be filled with different pieces. -/
structure Pieces (t t' : Tree) (slots : List (Option NodeId)) : Prop where
  piece : ∀ {c : NodeId}, some c ∈ slots → Piece t t' c
  nodup : (slots.filterMap id).Nodup

namespace Growth

theorem refl (t : Tree) : Growth t t := ⟨Nat.le_refl _, fun _ ↦ rfl, rfl, id, id⟩

variable (h : Growth t t₁)

include h

theorem has (hn : t.Has n) : t₁.Has n :=
  Nat.lt_of_lt_of_le hn h.size_le

theorem trans (h' : Growth t₁ t₂) : Growth t t₂ where
  size_le := Nat.le_trans h.size_le h'.size_le
  node_eq hn := by rw [h'.node_eq (h.has hn), h.node_eq hn]
  scopes_eq := by rw [h'.scopes_eq, h.scopes_eq]
  linked ht := h'.linked (h.linked ht)
  coherent ht := h'.coherent (h.coherent ht)

theorem kind_eq (hn : t.Has n) : t₁.kind n = t.kind n := by
  unfold kind
  rw [h.node_eq hn]

theorem slots_eq (hn : t.Has n) : t₁.slots n = t.slots n := by
  unfold slots
  rw [h.node_eq hn]

theorem parent_eq (hn : t.Has n) : t₁.parent n = t.parent n := by
  unfold parent
  rw [h.node_eq hn]

/-- The way up from an old node stays among the old nodes. -/
theorem within_of_has (ht : t.Linked) {a : NodeId} (hn : t.Has n) (hwithin : t₁.Within a n) :
    t.Has a ∧ t.Within a n := by
  induction hwithin with
  | here => exact ⟨hn, .here⟩
  | beneath hp _ ih =>
    rw [h.parent_eq hn] at hp
    obtain ⟨ha, hwithin⟩ := ih (ht.has_parent hp)
    exact ⟨ha, .beneath hp hwithin⟩

theorem not_within (ht : t.Linked) {c : NodeId} (hn : t.Has n) (hc : ¬t.Has c) : ¬t₁.Within c n :=
  fun hwithin ↦ hc (h.within_of_has ht hn hwithin).1

end Growth

theorem Piece.weaken (h : Growth t t₁) (hc : Piece t₁ t₂ c) : Piece t t₂ c :=
  ⟨fun hold ↦ hc.new (h.has hold), hc.has, hc.free⟩

theorem Piece.keep (hc : Piece t t₁ c) (h : Growth t₁ t₂) : Piece t t₂ c :=
  ⟨hc.new, h.has hc.has, by rw [h.parent_eq hc.has, hc.free]⟩

namespace Pieces

theorem nil (t t₁ : Tree) : Pieces t t₁ [] := ⟨fun hc ↦ absurd hc not_mem_nil, nodup_nil⟩

theorem single (hc : Piece t t₁ c) : Pieces t t₁ [some c] where
  piece hd := by
    cases mem_singleton.1 hd
    exact hc
  nodup := nodup_singleton c

theorem cons_none (h : Pieces t t₁ slots) : Pieces t t₁ (none :: slots) where
  piece hd := h.piece ((mem_cons.1 hd).resolve_left (by simp))
  nodup := by
    rw [filterMap_cons_none rfl]
    exact h.nodup

/-- A piece goes in front of pieces that were made after it. -/
theorem cons_some (hc : Piece t t₁ c) (hgrowth : Growth t t₁) (hg : Growth t₁ t₂)
    (h : Pieces t₁ t₂ slots) : Pieces t t₂ (some c :: slots) where
  piece hd := by
    cases mem_cons.1 hd with
    | inl heq => cases heq; exact hc.keep hg
    | inr hmem => exact (h.piece hmem).weaken hgrowth
  nodup := by
    have hcons : (some c :: slots).filterMap id = c :: slots.filterMap id := rfl
    rw [hcons]
    refine nodup_cons.2 ⟨fun hmem ↦ ?_, h.nodup⟩
    exact (h.piece (by simpa using hmem)).new hc.has

theorem pair {d : NodeId} (hc : Piece t t₁ c) (hd : Piece t t₁ d) (hne : c ≠ d) :
    Pieces t t₁ [some c, some d] where
  piece he := by
    rcases mem_cons.1 he with heq | hmem
    · cases heq
      exact hc
    · cases mem_singleton.1 hmem
      exact hd
  nodup := by simpa using hne

theorem weaken (hg : Growth t t₁) (h : Pieces t₁ t₂ slots) : Pieces t t₂ slots :=
  ⟨fun hc ↦ (h.piece hc).weaken hg, h.nodup⟩

end Pieces

/-! ## Making and changing new nodes -/

section Steps

variable {kind : NodeKind} {location : Option Location} {f : Node → Node}

/-- Changing a new node, but not its links, does not disturb the growth. -/
theorem Growth.modifyNode (h : Growth t t₁) (hn : ¬t.Has n)
    (hslots : ∀ data, (f data).slots = data.slots) (hparent : ∀ data, (f data).parent = data.parent) :
    Growth t (t₁.modifyNode n f) := by
  have hlinks : SameLinks t₁ (t₁.modifyNode n f) :=
    ⟨fun m ↦ field_modifyNode Node.slots t₁ n m f hslots,
      fun m ↦ field_modifyNode Node.parent t₁ n m f hparent⟩
  refine ⟨by simpa using h.size_le, fun {m} hm ↦ ?_, h.scopes_eq,
    fun ht ↦ hlinks.linked (h.linked ht), fun ht ↦ hlinks.coherent (h.coherent ht)⟩
  have hne : ¬(m = n ∧ t₁.Has n) := fun hmn ↦ hn (hmn.1 ▸ hm)
  rw [node_modifyNode, if_neg hne, h.node_eq hm]

theorem Piece.modifyNode (h : Piece t t₁ c) (hparent : ∀ data, (f data).parent = data.parent) :
    Piece t (t₁.modifyNode n f) c :=
  ⟨h.new, by simpa using h.has,
    (field_modifyNode Node.parent t₁ n c f hparent).trans h.free⟩

theorem Growth.setKind (h : Growth t t₁) (hn : ¬t.Has n) (kind : NodeKind) :
    Growth t (t₁.setKind n kind) :=
  h.modifyNode hn (fun _ ↦ rfl) fun _ ↦ rfl

theorem Piece.setKind (h : Piece t t₁ c) (n : NodeId) (kind : NodeKind) :
    Piece t (t₁.setKind n kind) c :=
  h.modifyNode fun _ ↦ rfl

theorem Growth.setComments (h : Growth t t₁) (hn : ¬t.Has n) (comments : List String) :
    Growth t (t₁.setComments n comments) :=
  h.modifyNode hn (fun _ ↦ rfl) fun _ ↦ rfl

theorem Piece.setComments (h : Piece t t₁ c) (n : NodeId) (comments : List String) :
    Piece t (t₁.setComments n comments) c :=
  h.modifyNode fun _ ↦ rfl

theorem Growth.create (h : Growth t t₁) (hpieces : Pieces t t₁ slots)
    (hcreate : t₁.create kind slots location = .ok (n, t₂)) : Growth t t₂ := by
  have hhas : ∀ c, some c ∈ slots → t₁.Has c := fun c hc ↦ (hpieces.piece hc).has
  have hreslot := reslotted_create hcreate hhas hpieces.nodup
  refine ⟨?_, fun {m} hm ↦ ?_, by rw [scopes_create hcreate, h.scopes_eq],
    fun ht ↦ hreslot.linked (h.linked ht),
    fun ht ↦ coherent_create (h.coherent ht) hcreate hhas hpieces.nodup⟩
  · have hsize := size_create hcreate
    have hle := h.size_le
    omega
  · rw [node_create_of_has hcreate (h.has hm), if_neg fun hmem ↦ (hpieces.piece hmem).new hm,
      h.node_eq hm]

theorem piece_create (h : Growth t t₁) (hpieces : Pieces t t₁ slots)
    (hcreate : t₁.create kind slots location = .ok (n, t₂)) : Piece t t₂ n := by
  have hnot := not_has_create hcreate
  exact ⟨fun hn ↦ hnot (h.has hn), has_create hcreate,
    parent_create_self hcreate fun c hc ↦ (hpieces.piece hc).has⟩

end Steps

end Tree

open Tree

/-! ## Builders -/

/-- A computation that, started anywhere, builds one piece beside the tree. -/
def Builder (m : Surgery NodeId) : Prop := ∀ t, Safe m t fun c t' ↦ Growth t t' ∧ Piece t t' c

variable {t t₁ t₂ : Tree} {slots slots' : List (Option NodeId)}

theorem returns_create (kind : NodeKind) (location : Option Location)
    (hfree : ∀ c, some c ∈ slots → t.parent c = none) :
    Returns (Surgery.create kind slots location) t fun c t' ↦
      t.create kind slots location = .ok (c, t') := by
  obtain ⟨t', hcreate⟩ := exists_create kind location hfree
  exact ⟨_, t', hcreate, hcreate⟩

/-! ## Copies -/

/-- The second slots hold copies of what the first hold, made one after the other. What a node holds is
copied before it. -/
inductive Tree.Duplicated : List (Option NodeId) → Tree → List (Option NodeId) → Tree → Prop where
  | nil (t : Tree) : Duplicated [] t [] t
  | empty {slots slots' : List (Option NodeId)} {t t' : Tree} : Duplicated slots t slots' t' →
    Duplicated (none :: slots) t (none :: slots') t'
  | node {n c : NodeId} {parts slots slots' : List (Option NodeId)} {t t₁ t₂ t₃ : Tree} :
    Duplicated (t.slots n) t parts t₁ → t₁.create (t₁.kind n) parts (t₁.location n) = .ok (c, t₂) →
    Duplicated slots (t₂.setComments c (t₁.node n).comments) slots' t₃ →
    Duplicated (some n :: slots) t (some c :: slots') t₃

theorem Tree.Duplicated.pieces (h : Duplicated slots t slots' t₁) : Growth t t₁ ∧ Pieces t t₁ slots' := by
  induction h with
  | nil t => exact ⟨.refl t, .nil t t⟩
  | empty _ ih => exact ⟨ih.1, ih.2.cons_none⟩
  | @node n _ _ _ _ _ t₁ _ _ _ hcreate _ ihparts ih =>
    have hpiece := piece_create ihparts.1 ihparts.2 hcreate
    have hgrowth := (ihparts.1.create ihparts.2 hcreate).setComments hpiece.new (t₁.node n).comments
    exact ⟨hgrowth.trans ih.1, .cons_some (hpiece.setComments _ _) hgrowth ih.1 ih.2⟩

theorem Tree.Duplicated.append {slot slot' : Option NodeId} (h : Duplicated [slot] t [slot'] t₁)
    (h' : Duplicated slots t₁ slots' t₂) : Duplicated (slot :: slots) t (slot' :: slots') t₂ := by
  cases h with
  | empty hnil => cases hnil; exact .empty h'
  | node hparts hcreate hnil => cases hnil; exact .node hparts hcreate h'

theorem safe_mapM_copied {copy : Option NodeId → Surgery (Option NodeId)}
    (hcopy : ∀ slot t, Safe (copy slot) t fun slot' t' ↦ Duplicated [slot] t [slot'] t')
    (slots : List (Option NodeId)) (t : Tree) :
    Safe (slots.mapM copy) t fun slots' t' ↦ Duplicated slots t slots' t' := by
  induction slots generalizing t with
  | nil => exact .nil t
  | cons slot slots ih =>
    rw [List.mapM_cons]
    exact (hcopy slot t).bind fun slot' t₁ h ↦ (ih t₁).bind fun slots' t₂ h' ↦ h.append h'

theorem safe_copyWithin (fuel : Nat) (n : NodeId) (t : Tree) :
    Safe (Surgery.copyWithin fuel n) t fun c t' ↦ Duplicated [some n] t [some c] t' := by
  induction fuel generalizing n t with
  | zero => exact fun h ↦ h
  | succ fuel ih =>
    unfold Surgery.copyWithin
    refine safe_bind.2 (safe_get.2 ((safe_mapM_copied (fun slot t ↦ ?_) (t.slots n) t).bind ?_))
    · cases slot with
      | none => exact .empty (.nil t)
      | some c => exact safe_map.2 (ih c t)
    · intro parts t₁ hparts
      refine safe_bind.2 (safe_get.2 ?_)
      refine (returns_create _ _ fun c hc ↦ (hparts.pieces.2.piece hc).free).safe.bind
        fun c t₂ hcreate ↦ ?_
      exact .node hparts hcreate (.nil _)

theorem safe_copy (n : NodeId) (t : Tree) :
    Safe (Surgery.copy n) t fun c t' ↦ Duplicated [some n] t [some c] t' :=
  safe_copyWithin t.size n t

theorem builder_copy (n : NodeId) : Builder (Surgery.copy n) := fun t ↦
  (safe_copy n t).mono fun _ _ h ↦ ⟨h.pieces.1, h.pieces.2.piece (List.mem_singleton_self _)⟩

end ProtocolIR
