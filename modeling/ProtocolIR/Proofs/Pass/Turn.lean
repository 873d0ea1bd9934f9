import ProtocolIR.Proofs.Pass.Naming
import ProtocolIR.Proofs.Unification.Copies

/-!
# Turns

A turn is a step that keeps a tree faithful: the texts that are recorded after it are allowed if those
before it were. What is built beside a tree keeps it faithful as well, since it has no text, or is a
copy, or is unified as soon as it is made. A walk whose visits are turns is a turn.
-/

namespace ProtocolIR

open Tree

namespace Tree

/-- A growth that keeps a tree faithful. -/
structure Grows (t t' : Tree) : Prop extends Growth t t' where
  faithful : t.Coherent → t.Faithful → t'.Faithful

/-- A step that keeps a tree faithful. -/
structure Turn (t : Tree) (b : Bool) (t' : Tree) : Prop extends Step t b t' where
  faithful : t.Faithful → t'.Faithful

variable {t t₁ t₂ : Tree} {n c : NodeId} {slots : List (Option NodeId)} {b b' : Bool}

/-- To record the text of a type keeps a tree faithful. -/
theorem Faithful.unifyType (hf : t.Faithful) (ht : t.Linked) (n : NodeId) :
    (t.unifyType n).2.Faithful := by
  obtain heq | ⟨data, text, hkind, hnone, htext, heq⟩ := unifyType_cases t n
  · rw [heq]
    exact hf
  · rw [heq]
    have hrefines : (t.kind n).Refines (.type { data with unification := some text }) := by
      rw [hkind]
      exact .type ⟨.same _, rfl, by rw [hnone]; exact .of_none _, .refl _⟩
    refine hf.of_kept ht (.of_setKind hrefines ?_ ?_) ?_ ?_
    · intro data₁ data' hkind₁ heq _
      cases hkind.symm.trans hkind₁
      cases heq
      rfl
    · intro p d value isImplicit owner _ _ _ hd
      cases hkind.symm.trans hd
    · intro m data₁ data' x hm hm' hx
      rw [kind_setKind] at hm'
      split at hm'
      next hmn =>
        obtain ⟨rfl, -⟩ := hmn
        cases hm'
        cases hx
        exact .inr (hf.written_of_serializeWithin ht htext)
      · cases hm.symm.trans hm'
        exact .inl hx
    · intro m data' hm hm'
      rw [kind_of_not_has (by rwa [has_setKind])] at hm'
      cases hm'

/-- Unifying a new type does not disturb the growth. -/
theorem Growth.unifyType (h : Growth t t₁) (hn : ¬t.Has n) : Growth t (t₁.unifyType n).2 := by
  rcases unifyType_cases t₁ n with heq | ⟨data, text, -, -, -, heq⟩
  · rw [heq]
    exact h
  · rw [heq]
    exact h.setKind hn _

theorem Piece.unifyType {c : NodeId} (h : Piece t t₁ c) : Piece t (t₁.unifyType n).2 c := by
  rcases unifyType_cases t₁ n with heq | ⟨data, text, -, -, -, heq⟩
  · rw [heq]
    exact h
  · rw [heq]
    exact h.setKind n _

namespace Grows

theorem refl (t : Tree) : Grows t t := ⟨.refl t, fun _ hf ↦ hf⟩

theorem trans (h : Grows t t₁) (h' : Grows t₁ t₂) : Grows t t₂ :=
  ⟨h.toGrowth.trans h'.toGrowth, fun ht hf ↦ h'.faithful (h.coherent ht) (h.faithful ht hf)⟩

/-- New nodes are made or edited. -/
theorem edit (h : Grows t t₁) (hg : Growth t t₂) (hedit : t₁.Linked → Edited t₁ t₂) : Grows t t₂ := by
  refine ⟨hg, fun ht hf ↦ ?_⟩
  have ht₁ := (h.coherent ht).toLinked
  exact (hedit ht₁).faithful ht₁ (h.faithful ht hf)

theorem create {kind : NodeKind} {location : Option Location} (h : Grows t t₁)
    (hpieces : Pieces t t₁ slots) (hplain : kind.Plain)
    (hcreate : t₁.create kind slots location = .ok (n, t₂)) : Grows t t₂ :=
  h.edit (h.toGrowth.create hpieces hcreate) fun ht₁ ↦ .of_create ht₁ hcreate hplain

theorem unifyType (h : Grows t t₁) (hn : ¬t.Has n) : Grows t (t₁.unifyType n).2 :=
  ⟨h.toGrowth.unifyType hn, fun ht hf ↦ (h.faithful ht hf).unifyType (h.coherent ht).toLinked n⟩

/-- What was built is put into place. -/
theorem turn (h : Grows t t₁) (ht : t.Coherent) (hstep : Step t b t₂)
    (hedit : t₁.Linked → Edited t₁ t₂) : Turn t b t₂ := by
  have ht₁ := (h.coherent ht).toLinked
  exact ⟨hstep, fun hf ↦ (hedit ht₁).faithful ht₁ (h.faithful ht hf)⟩

end Grows

namespace Turn

theorem refl (ht : t.Coherent) : Turn t false t := ⟨.refl ht, id⟩

theorem of_edited (ht : t.Coherent) (hstep : Step t b t₁) (hedit : Edited t t₁) : Turn t b t₁ :=
  ⟨hstep, hedit.faithful ht.toLinked⟩

theorem trans (h : Turn t b t₁) (h' : Turn t₁ b' t₂) : Turn t (b || b') t₂ :=
  ⟨h.toStep.trans h'.toStep, fun hf ↦ h'.faithful (h.faithful hf)⟩

/-- The same turn with its report put in another way. -/
theorem report {changed : Bool} (h : Turn t b t₁) (heq : changed = b) : Turn t changed t₁ := heq ▸ h

end Turn

end Tree

/-! ## Walks -/

/-- A pass that is a turn wherever it starts. -/
def IsTurn (m : Pass Bool) : Prop :=
  ∀ w : Workspace, w.tree.Rooted → Safe m w fun b w' ↦ Turn w.tree b w'.tree

theorem IsTurn.isStep {m : Pass Bool} (h : IsTurn m) : IsStep m := fun w ht ↦
  (h w ht).mono fun _ _ hturn ↦ hturn.toStep

/-- A visit that is a turn at every node beneath the root. -/
def IsVisit (visit : NodeId → Pass Bool) : Prop :=
  ∀ (w : Workspace) (n : NodeId), w.tree.Rooted → w.tree.Within root n →
    Safe (visit n) w fun b w' ↦ Turn w.tree b w'.tree

/-- A walk keeps what its visits keep. -/
theorem safe_walk {σ : Type} {order : Order} {visit : σ → NodeId → Pass σ} {init : σ}
    (changed : σ → Bool) {w : Workspace} (ht : w.tree.Rooted) (hinit : changed init = false)
    (hvisit : ∀ (state : σ) (w' : Workspace) (n : NodeId), Turn w.tree (changed state) w'.tree →
      w'.tree.Within root n →
        Safe (visit state n) w' fun state' w'' ↦ Turn w.tree (changed state') w''.tree) :
    Safe (Pass.walk order root init visit) w fun state w' ↦ Turn w.tree (changed state) w'.tree := by
  refine safe_tree_bind.2 (safe_foldlM (fun state w' n _ hturn ↦ ?_) ?_)
  · refine safe_tree_bind.2 ?_
    split
    next hwithin => exact hvisit state w' n hturn (hturn.coherent.isWithin_iff.1 hwithin)
    · exact hturn
  · exact (Turn.refl ht.toCoherent).report hinit

theorem IsVisit.sweep {visit : NodeId → Pass Bool} (h : IsVisit visit) (order : Order) :
    IsTurn (Pass.sweep order root visit) := by
  intro w ht
  refine safe_walk id ht rfl fun changed w' n hturn hwithin ↦ ?_
  refine (h w' n (hturn.rooted ht) hwithin).bind fun b w'' hb ↦ ?_
  exact (hturn.trans hb).report (Bool.or_comm b changed)

/-! ## Unification -/

theorem Unification.isTurn_unify : IsTurn (unify root) := by
  refine IsVisit.sweep (fun w n ht _ ↦ ?_) .post
  have hfaithful := fun hf : w.tree.Faithful ↦ hf.unifyType ht.toLinked n
  refine safe_bind.2 (safe_edit ?_)
  rcases unifyType_cases w.tree n with heq | ⟨data, text, hkind, hnone, -, heq⟩
  · exact Safe.of_ok (congrArg Except.ok heq) (.refl ht.toCoherent)
  · rw [heq] at hfaithful
    refine Safe.of_ok (congrArg Except.ok heq) (safe_tree_bind.2 ?_)
    dsimp only
    rw [unification_setKind hkind]
    refine safe_bind.2 (Pass.safe_recordChange fun _ ↦ ?_)
    exact ⟨Step.of_unification text ht.toCoherent hkind hnone, hfaithful⟩

end ProtocolIR
