import ProtocolIR.Proofs.Node.Refinement
import ProtocolIR.Proofs.Text
import ProtocolIR.Proofs.Tree.Growth
import ProtocolIR.Proofs.Tree.Paths

/-!
# Steps of a pass

A step of a pass says whether it changed something. `Step` is what all of them have in common:
the tree stays coherent, what was known of a node stays as it was, a step that reports no change
left every node alone, and one that reports a change has made a node or learnt a fact. Steps
compose, so a walk through a tree whose visits are steps is a step.
-/

namespace ProtocolIR

/-- A node but for the number of its scope. -/
def Node.unscoped (data : Node) : Node := { data with scope := none }

/-- Types and qualified types. -/
def NodeKind.IsType (kind : NodeKind) : Prop := kind.category = .type ∨ kind.category = .qualified

namespace Tree

/-- A coherent tree with its root node. -/
structure Rooted (t : Tree) : Prop extends Coherent t where
  has_root : t.Has root
  kind_root : t.kind root = .root

/-- The old nodes are as they were, and the new ones are types that no old node holds. -/
structure Idle (t t' : Tree) : Prop where
  size_le : t.size ≤ t'.size
  node_eq : ∀ {n : NodeId}, t.Has n → (t'.node n).unscoped = (t.node n).unscoped
  new_type : ∀ {n : NodeId}, ¬t.Has n → t'.Has n → (t'.kind n).IsType

/-- Either there are more nodes, or something has become known about an old one. -/
def Advanced (t t' : Tree) : Prop := t.size < t'.size ∨ ∃ n, t.Has n ∧ t'.kind n ≠ t.kind n

/-- Nodes stay, and nothing that was known of one has changed. -/
structure Refines (t t' : Tree) : Prop where
  size_le : t.size ≤ t'.size
  kind : ∀ {n : NodeId}, t.Has n → (t.kind n).Refines (t'.kind n)

structure Step (t : Tree) (changed : Bool) (t' : Tree) : Prop extends Refines t t' where
  coherent : t'.Coherent
  idle : changed = false → Idle t t'
  advanced : changed = true → Advanced t t'

namespace Refines

variable {t t₁ t₂ : Tree} {n : NodeId} {kind : NodeKind}

theorem refl (t : Tree) : Refines t t := ⟨Nat.le_refl _, fun _ ↦ .same _⟩

theorem has (h : Refines t t₁) (hn : t.Has n) : t₁.Has n := Nat.lt_of_lt_of_le hn h.size_le

theorem trans (h : Refines t t₁) (h' : Refines t₁ t₂) : Refines t t₂ where
  size_le := Nat.le_trans h.size_le h'.size_le
  kind hn := (h.kind hn).trans (h'.kind (h.has hn))

theorem of_growth (h : Growth t t₁) : Refines t t₁ where
  size_le := h.size_le
  kind hn := by rw [h.kind_eq hn]; exact .same _

theorem of_sameKinds (h : SameKinds t t₁) : Refines t t₁ where
  size_le := Nat.le_of_eq h.size_eq.symm
  kind _ := by rw [h.kind_eq]; exact .same _

theorem of_setKind (h : (t.kind n).Refines kind) : Refines t (t.setKind n kind) where
  size_le := Nat.le_of_eq (size_setKind t n kind).symm
  kind {m} _ := by
    rw [kind_setKind]
    split
    next hm => rw [hm.1]; exact h
    · exact .same _

theorem of_create {slots : List (Option NodeId)} {location : Option Location}
    (h : t.create kind slots location = .ok (n, t₁)) : Refines t t₁ where
  size_le := by rw [size_create h]; exact Nat.le_succ _
  kind hm := by rw [kind_create_of_has h hm]; exact .same _

end Refines

namespace Idle

variable {t t₁ t₂ : Tree} {n : NodeId}

theorem refl (t : Tree) : Idle t t := ⟨Nat.le_refl _, fun _ ↦ rfl, fun h h' ↦ absurd h' h⟩

variable (h : Idle t t₁)

include h

theorem has (hn : t.Has n) : t₁.Has n := Nat.lt_of_lt_of_le hn h.size_le

theorem kind_eq (hn : t.Has n) : t₁.kind n = t.kind n := by
  have heq := congrArg Node.kind (h.node_eq hn)
  exact heq

theorem slots_eq (hn : t.Has n) : t₁.slots n = t.slots n := by
  have heq := congrArg Node.slots (h.node_eq hn)
  exact heq

theorem parent_eq (hn : t.Has n) : t₁.parent n = t.parent n := by
  have heq := congrArg Node.parent (h.node_eq hn)
  exact heq

theorem trans (h' : Idle t₁ t₂) : Idle t t₂ where
  size_le := Nat.le_trans h.size_le h'.size_le
  node_eq hn := by rw [h'.node_eq (h.has hn), h.node_eq hn]
  new_type {n} hnew hn := by
    by_cases hn₁ : t₁.Has n
    · rw [h'.kind_eq hn₁]
      exact h.new_type hnew hn₁
    · exact h'.new_type hn₁ hn

end Idle

namespace Step

variable {t t₁ t₂ : Tree} {b b' : Bool} {n : NodeId}

theorem refl (ht : t.Coherent) : Step t false t :=
  ⟨.refl t, ht, fun _ ↦ Idle.refl t, fun h ↦ by cases h⟩

theorem rooted (h : Step t b t₁) (ht : t.Rooted) : t₁.Rooted where
  toCoherent := h.coherent
  has_root := h.has ht.has_root
  kind_root := by
    have hrefines := h.kind ht.has_root
    rw [ht.kind_root] at hrefines
    generalize t₁.kind root = k at hrefines
    cases hrefines
    rfl

/-- What has become known does not become unknown again. -/
theorem advanced_left (h : Advanced t t₁) (hs : Step t b t₁) (hs' : Step t₁ b' t₂) :
    Advanced t t₂ := by
  rcases h with hlt | ⟨n, hn, hne⟩
  · exact .inl (Nat.lt_of_lt_of_le hlt hs'.size_le)
  · refine .inr ⟨n, hn, fun heq ↦ hne ?_⟩
    have hback := hs'.kind (hs.has hn)
    rw [heq] at hback
    exact hback.antisymm (hs.kind hn)

theorem advanced_right (h : Advanced t₁ t₂) (hs : Step t b t₁) (hs' : Step t₁ b' t₂) :
    Advanced t t₂ := by
  rcases h with hlt | ⟨n, hn, hne⟩
  · exact .inl (Nat.lt_of_le_of_lt hs.size_le hlt)
  · by_cases hn₀ : t.Has n
    · refine .inr ⟨n, hn₀, fun heq ↦ hne ?_⟩
      have hback := hs.kind hn₀
      rw [← heq] at hback
      exact hback.antisymm (hs'.kind hn)
    · refine .inl (Nat.lt_of_lt_of_le ?_ hs'.size_le)
      have hlt : n.index < t₁.size := hn
      have hle : ¬n.index < t.size := hn₀
      omega

theorem trans (h : Step t b t₁) (h' : Step t₁ b' t₂) : Step t (b || b') t₂ where
  toRefines := h.toRefines.trans h'.toRefines
  coherent := h'.coherent
  idle hb := by
    obtain ⟨hb, hb'⟩ := Bool.or_eq_false_iff.1 hb
    exact (h.idle hb).trans (h'.idle hb')
  advanced hb := by
    rcases Bool.or_eq_true_iff.1 hb with hb | hb
    · exact advanced_left (h.advanced hb) h h'
    · exact advanced_right (h'.advanced hb) h h'

/-- The same step with its report put in another way. -/
theorem report {changed : Bool} (h : Step t b t₁) (heq : changed = b) : Step t changed t₁ :=
  heq ▸ h

/-- A node was made. -/
theorem of_size_lt (ht₁ : t₁.Coherent) (h : Refines t t₁) (hlt : t.size < t₁.size) :
    Step t true t₁ :=
  ⟨h, ht₁, fun hb ↦ Bool.noConfusion hb, fun _ ↦ .inl hlt⟩

/-- New nodes were made and then some put into place. -/
theorem of_growth (hgrowth : Growth t t₁) (hsize : t.size < t₁.size) (hkinds : SameKinds t₁ t₂)
    (ht₂ : t₂.Coherent) : Step t true t₂ :=
  of_size_lt ht₂ ((Refines.of_growth hgrowth).trans (.of_sameKinds hkinds))
    (by rw [hkinds.size_eq]; exact hsize)

/-- A fact was learnt about one node. -/
theorem of_setKind {kind : NodeKind} (ht : t.Coherent) (hn : t.Has n)
    (hrefines : (t.kind n).Refines kind) (hne : kind ≠ t.kind n) : Step t true (t.setKind n kind) where
  toRefines := .of_setKind hrefines
  coherent := (sameLinks_setKind t n kind).coherent ht
  idle h := by cases h
  advanced _ := .inr ⟨n, hn, by rw [kind_setKind, if_pos ⟨rfl, hn⟩]; exact hne⟩

/-- After a change, slots are refilled; that is part of the change. -/
theorem then_reslot (h : Step t true t₁) (hkinds : SameKinds t₁ t₂) (ht₂ : t₂.Coherent) :
    Step t true t₂ where
  toRefines := h.toRefines.trans (.of_sameKinds hkinds)
  coherent := ht₂
  idle h := by cases h
  advanced _ := by
    rcases h.advanced rfl with hlt | ⟨n, hn, hne⟩
    · exact .inl (by rw [hkinds.size_eq]; exact hlt)
    · exact .inr ⟨n, hn, by rw [hkinds.kind_eq]; exact hne⟩

end Step

theorem Piece.size_lt {t t₁ : Tree} {c : NodeId} (h : Piece t t₁ c) : t.size < t₁.size := by
  have hnew : ¬c.index < t.size := h.new
  have hhas : c.index < t₁.size := h.has
  omega

/-! ## Walks -/

/-- A node beneath the root that is not a root node has a parent. -/
theorem Rooted.exists_parent {t : Tree} (ht : t.Rooted) {n : NodeId} (h : t.Within root n)
    (hkind : t.kind n ≠ .root) : ∃ p, t.parent n = some p := by
  cases h with
  | here => exact absurd ht.kind_root hkind
  | beneath hp _ => exact ⟨_, hp⟩

end Tree

open Tree

/-- A pass that is a step wherever it starts. -/
def IsStep (m : Pass Bool) : Prop :=
  ∀ w : Workspace, w.tree.Rooted → Safe m w fun b w' ↦ Step w.tree b w'.tree

/-- One step after another. -/
theorem IsStep.seq {m m' : Pass Bool} (h : IsStep m) (h' : IsStep m') :
    IsStep (m >>= fun b ↦ m' >>= fun b' ↦ pure (b || b')) := by
  intro w ht
  refine (h w ht).bind fun b w₁ hb ↦ (h' w₁ (hb.rooted ht)).bind fun b' w₂ hb' ↦ ?_
  exact hb.trans hb'

/-! ## Putting a piece into place -/

section Placing

variable {t t₁ t₂ : Tree} {n c old new p : NodeId} {i : Nat} {w : Workspace} {stream : Stream}
  {message : String}

section

variable (ht : t.Coherent) (hgrowth : Growth t t₁) (hc : Piece t t₁ c)

include ht hgrowth hc

/-- A piece goes into a slot of an old node. -/
theorem step_of_placed {out : List NodeId} (hn : t.Has n) (hkinds : SameKinds t₁ t₂)
    (hreslot : Reslotted t₁ t₂ n out [c]) : Step t true t₂ := by
  refine .of_growth hgrowth hc.size_lt hkinds (hreslot.coherent (hgrowth.coherent ht) fun c' hc' ↦ ?_)
  cases List.mem_singleton.1 hc'
  exact hgrowth.not_within ht.toLinked hn hc.new

theorem step_setChild (hn : t.Has n) (hset : t₁.setChild n i (some c) = .ok t₂) : Step t true t₂ :=
  step_of_placed ht hgrowth hc hn (sameKinds_setChild hset)
    (reslotted_setChild (hgrowth.coherent ht).toLinked hset (hgrowth.has hn) (by simpa using hc.has))

theorem step_addChild (hn : t.Has n) (hadd : t₁.addChild n (some c) = .ok t₂) : Step t true t₂ :=
  step_of_placed ht hgrowth hc hn (sameKinds_addChild hadd)
    (reslotted_addChild hadd (hgrowth.has hn) (by simpa using hc.has))

end

/-- A node that is held can be replaced by a free one. -/
theorem replaceNode_of_free (ht : t.Linked) (hp : t.parent old = some p) (hnew : t.Has new)
    (hfree : t.parent new = none) :
    ∃ t', t.replaceNode old new = .ok t' ∧ SameKinds t t' ∧ Reslotted t t' p [old] [new] := by
  obtain ⟨i, hindex⟩ := exists_slotIndex ht hp
  have hfind : (t.slots p).findIdx? (· == some old) = some i := by
    unfold slotIndex at hindex
    rw [hp] at hindex
    exact hindex
  obtain ⟨t', hset⟩ : ∃ t', t.setChild p i (some new) = .ok t' :=
    exists_setChild (by simpa using hfree)
  have hreplace : t.replaceNode old new = .ok t' := by
    unfold replaceNode replaceChild
    rw [hp]
    dsimp only
    rw [hfind]
    exact hset
  obtain ⟨q, hq, hreslot⟩ := reslotted_replaceNode ht hreplace hnew
  rw [hp] at hq
  cases hq
  exact ⟨t', hreplace, sameKinds_setChild hset, hreslot⟩

/-- Replacing a node returns unless the report of it cannot be written. -/
theorem replaceNode_of_ok {t' : Tree} (h : w.tree.replaceNode old new = .ok t') :
    Pass.replaceNode stream old new message w =
      w.tree.changeLine old (some new) message >>= fun line ↦
        .ok ((), ⟨t', w.log.push (.debug stream line)⟩) := by
  have hedit : Surgery.replaceNode old new w.tree = .ok ((), t') := by
    unfold Surgery.replaceNode
    rw [h]
    rfl
  refine Pass.tree_bind.trans ?_
  cases w.tree.changeLine old (some new) message with
  | error f => rfl
  | ok line =>
    refine (bind_of_ok (m := (pure line : Pass String)) rfl).trans ?_
    exact bind_of_ok (edit_of_ok hedit)

theorem safe_replaceNode {post : Unit → Workspace → Prop} {t' : Tree}
    (hreplace : w.tree.replaceNode old new = .ok t') (h : ∀ log, post () ⟨t', log⟩) :
    Safe (Pass.replaceNode stream old new message) w post := by
  refine safe_tree_bind.2 (safe_bind.2 (safe_lift_pass (sound_changeLine _ _ _ _) fun line _ ↦ ?_))
  exact safe_bind.2 (safe_edit (safe_update hreplace (safe_debug.2 (h _))))

/-- A piece takes the place of an old node. -/
theorem exists_replaceWith (ht : t.Coherent) (hgrowth : Growth t t₁) (hc : Piece t t₁ c)
    (hp : t.parent old = some p) : ∃ t₂, t₁.replaceNode old c = .ok t₂ ∧ Step t true t₂ := by
  have hp₁ : t₁.parent old = some p := by rw [hgrowth.parent_eq (has_of_parent hp), hp]
  obtain ⟨t₂, hreplace, hkinds, hreslot⟩ :=
    replaceNode_of_free (hgrowth.coherent ht).toLinked hp₁ hc.has hc.free
  exact ⟨t₂, hreplace, step_of_placed ht hgrowth hc (ht.has_parent hp) hkinds hreslot⟩

end Placing

end ProtocolIR
