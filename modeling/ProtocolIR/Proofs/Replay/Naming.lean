import ProtocolIR.Enumeration
import ProtocolIR.Proofs.Padding.Typing
import ProtocolIR.Proofs.Pass.Naming
import ProtocolIR.Proofs.Tree.Orders

/-!
# Quiet naming, unification and numbering are replayed

Where no ID, no serialization, no label value and no implicit label is missing in one padding,
none is missing in another.
-/

namespace ProtocolIR

open Tree

variable {b s s' : Tree} {n : NodeId}

/-! ## Canonical IDs and type IDs -/

namespace CanonicalId

theorem typeToStamp_eq (h : Padded b s) (n : NodeId) : s.typeToStamp n = b.typeToStamp n := by
  unfold typeToStamp
  rw [h.declaredType_eq]
  cases hu : b.declaredType n with
  | none => rfl
  | some u =>
    unfold Option.filter
    simp only [h.typeData?_eq (h.base.has_of_declaredType hu)]

theorem stays_stamp (h : Later b s s') (n : NodeId) : StaysQuiet b (stamp n) (stamp n) s s' := by
  refine replays_tree_bind ?_
  rw [h.left.declaration?_eq, h.right.declaration?_eq, typeToStamp_eq h.left, typeToStamp_eq h.right]
  split
  · exact Loud.replays (loud_bind fun _ ↦ loud_bind fun _ ↦ reports_true)
  · exact stays_false h

/-- No ID was missing so far. -/
def Complete (state : List String × Bool) : Prop := state.2 = false

theorem replays_assignOne (h : Later b s s') (taken taken' : List String) (n : NodeId) :
    Replays Complete (fun t t' _ r' ↦ Complete r' ∧ Later b t t') (assignOne taken n)
      (assignOne taken' n) s s' := by
  refine replays_tree_bind ?_
  rw [h.left.declaration?_eq, h.right.declaration?_eq]
  split
  · exact Loud.replays (loud_bind fun _ ↦ loud_bind fun _ ↦ loud_pure Bool.noConfusion)
  · exact replays_pure fun _ ↦ ⟨rfl, h⟩

theorem replays_assignStep (h : Later b s s') {state state' : List String × Bool}
    (hstate' : Complete state') (n : NodeId) :
    Replays Complete (fun t t' _ r' ↦ Complete r' ∧ Later b t t') (assignStep state n)
      (assignStep state' n) s s' := by
  refine (replays_assignOne h state.1 state'.1 n).bind ?_ ?_
  · rintro ⟨taken, assigned⟩ hassigned
    refine loud_bind fun stamped ↦ loud_pure fun hquiet ↦ hassigned ?_
    simp only [Complete, Bool.or_eq_false_iff] at hquiet
    exact hquiet.1.2
  · rintro s₁ s₁' ⟨taken, assigned⟩ ⟨taken', assigned'⟩ - ⟨hassigned', hlater⟩
    refine Replays.bind (stays_stamp hlater n) (fun stamped hstamped ↦ loud_pure fun hquiet ↦ ?_) ?_
    · simp only [Complete, Bool.or_eq_false_iff] at hquiet
      exact hstamped hquiet.2
    · rintro s₂ s₂' stamped stamped' - ⟨hstamped', hlater⟩
      refine replays_pure fun _ ↦ ⟨?_, hlater⟩
      simp_all [Complete]

/-- A step after an ID was missing says so too. -/
theorem loud_assignStep {state : List String × Bool} (hstate : ¬Complete state) (n : NodeId) :
    Loud Complete (assignStep state n) := by
  refine loud_bind ?_
  rintro ⟨taken, assigned⟩
  refine loud_bind fun stamped ↦ loud_pure fun hquiet ↦ hstate ?_
  simp only [Complete, Bool.or_eq_false_iff] at hquiet
  exact hquiet.1.1

theorem stays_assign (h : Later b s s') : StaysQuiet b (assign root) (assign root) s s' := by
  have hroot := h.left.rooted.has_root
  have hfold : ∀ taken taken', Replays Complete (fun t t' _ r' ↦ Complete r' ∧ Later b t t')
      ((b.subtree root).foldlM assignStep (taken, false))
      ((b.subtree root).foldlM assignStep (taken', false)) s s' :=
    fun taken taken' ↦ replays_foldlM (fun _ n hstate ↦ loud_assignStep hstate n)
      (fun _ _ _ _ n _ _ hrelated ↦ replays_assignStep hrelated.2 hrelated.1 n) fun _ ↦ ⟨rfl, h⟩
  refine replays_tree_bind ?_
  rw [h.left.subtree_eq hroot, h.right.subtree_eq hroot]
  refine (hfold _ _).bind (fun _ hstate ↦ loud_pure hstate) ?_
  exact fun _ _ _ _ _ hrelated ↦ replays_pure fun _ ↦ hrelated

end CanonicalId

/-! ## Serializations -/

namespace Unification

theorem unifyType_eq (h : Padded b s) (hn : b.Has n) : (s.unifyType n).1 = (b.unifyType n).1 := by
  unfold unifyType
  rw [h.typeData?_eq hn, h.serialize_eq hn]
  split
  · rfl
  split
  · rfl
  · rfl

theorem stays_unifyNode (h : Later b s s') (hn : b.Has n) :
    StaysQuiet b (unifyNode n) (unifyNode n) s s' := by
  have hagree : (s.unifyType n).1 = (s'.unifyType n).1 := by
    rw [unifyType_eq h.left hn, unifyType_eq h.right hn]
  refine replays_edit_bind fun changed t hrun ↦ ?_
  have hrun : s.unifyType n = (changed, t) := Except.ok.inj hrun
  rcases unifyType_cases s n with hset | ⟨data, text, hkind, -, -, hset⟩
  · rw [hset] at hagree hrun
    cases hrun
    rcases unifyType_cases s' n with hset' | ⟨_, _, -, -, -, hset'⟩
    · exact .inr ⟨false, s', congrArg Except.ok hset', stays_false h⟩
    · rw [hset'] at hagree
      cases hagree
  · rw [hset] at hagree hrun
    cases hrun
    rcases unifyType_cases s' n with hset' | ⟨_, _, -, -, -, hset'⟩
    · rw [hset'] at hagree
      cases hagree
    · refine .inr ⟨true, _, congrArg Except.ok hset', replays_tree_bind ?_⟩
      rw [unification_setKind hkind]
      exact Loud.replays (loud_bind fun _ ↦ reports_true)

theorem stays_unify (h : Later b s s') : StaysQuiet b (unify root) (unify root) s s' :=
  stays_sweep (fun _ _ _ h hn ↦ stays_unifyNode h hn) h

end Unification

/-! ## Enums -/

namespace Enumeration

variable {progress : Progress} {owner : Option Link}

theorem labels_eq (h : Padded b s) (hn : b.Has n) : s.labels n = b.labels n := by
  have hlabel : s.isLabel = b.isLabel := by
    funext l
    unfold isLabel
    rw [h.declaration?_eq]
  unfold labels
  rw [h.childrenFrom_eq hn, hlabel]

theorem enumOwner_eq (h : Padded b s) (hn : b.Has n) : s.enumOwner n = b.enumOwner n := by
  have hgrand : (b.parent n).bind s.parent = (b.parent n).bind b.parent :=
    Option.bind_congr fun p hp ↦ h.parent_eq (h.base.has_parent hp)
  unfold enumOwner
  simp only [h.parent_eq hn, hgrand, h.declaredType_eq, h.declaration?_eq]

/-- Nothing was changed so far. -/
def Unchanged (progress : Progress) : Prop := progress.changed = false

theorem loud_reportLabel {previous : Int64} {value newValue : Option Int64}
    {link newLink : Option Link} (hprogress : ¬Unchanged progress) :
    Loud Unchanged (do
      if newValue ≠ value then
        Pass.recordChange .normalizer n ("numbered " ++ toString previous.toInt)
      if newLink ≠ link then
        Pass.recordChange .normalizer n "linked to enum"
      return progress) := by
  have hlink : Loud Unchanged (do
      if newLink ≠ link then
        Pass.recordChange .normalizer n "linked to enum"
      return progress) := by
    split
    · exact loud_bind fun _ ↦ loud_pure hprogress
    · exact loud_pure hprogress
  dsimp only
  split
  · exact loud_bind fun _ ↦ hlink
  · exact hlink

theorem loud_normalizeLabel (hprogress : ¬Unchanged progress) (n : NodeId) :
    Loud Unchanged (normalizeLabel owner progress n) := by
  have hchanged : progress.changed = true := Bool.eq_true_of_not_eq_false hprogress
  refine loud_bind fun t ↦ ?_
  split
  · split
    · refine loud_bind ?_
      rintro ⟨newValue, previous⟩
      exact loud_bind fun _ ↦ loud_reportLabel (by simp [Unchanged, hchanged])
    · exact loud_pure hprogress
  · exact loud_pure hprogress

theorem replays_normalizeLabel (h : Later b s s') (progress : Progress) (n : NodeId) :
    Replays Unchanged (fun t t' c c' ↦ c' = c ∧ Later b t t') (normalizeLabel owner progress n)
      (normalizeLabel owner progress n) s s' := by
  refine replays_tree_bind ?_
  rw [h.left.declaration?_eq, h.right.declaration?_eq]
  split
  next d hd =>
    split
    next value isImplicit link hkind =>
      refine replays_lift_bind (.refl _) ?_
      rintro ⟨newValue, previous⟩ -
      by_cases hsame : newValue = value ∧ link.or owner = link
      · -- the label is written as it was
        obtain ⟨rfl, hlink⟩ := hsame
        have hself : Declaration.mk d.id d.linkage d.canonicalId (.label newValue isImplicit link) = d := by
          rw [← hkind]
        have hn := has_of_declaration hd
        have hb := declaration?_eq_some_iff.1 hd
        refine replays_modifyTree_bind ?_
        rw [hlink, hself, setKind_self ((h.left.kind_eq hn).trans hb),
          setKind_self ((h.right.kind_eq hn).trans hb)]
        simp only [ne_eq, not_true_eq_false, if_false]
        exact replays_pure fun _ ↦ ⟨rfl, h⟩
      · refine Loud.replays (loud_bind fun _ ↦ loud_reportLabel fun hquiet ↦ hsame ?_)
        simp only [Unchanged, Bool.or_eq_false_iff, decide_eq_false_iff_not, not_not] at hquiet
        exact ⟨hquiet.1.2, hquiet.2⟩
    · exact replays_pure fun _ ↦ ⟨rfl, h⟩
  · exact replays_pure fun _ ↦ ⟨rfl, h⟩

theorem stays_normalizeEnum (h : Later b s s') (hn : b.Has n) :
    StaysQuiet b (normalizeEnum n) (normalizeEnum n) s s' := by
  have hlink : ∀ {t : Tree}, Padded b t → t.linkTo = b.linkTo := fun ht ↦ funext ht.linkTo_eq
  refine replays_tree_bind ?_
  rw [enumOwner_eq h.left hn, enumOwner_eq h.right hn, labels_eq h.left hn, labels_eq h.right hn,
    hlink h.left, hlink h.right]
  have hfold : Replays Unchanged (fun t t' c c' ↦ c' = c ∧ Later b t t')
      ((b.labels n).foldlM (normalizeLabel ((b.enumOwner n).map b.linkTo)) {})
      ((b.labels n).foldlM (normalizeLabel ((b.enumOwner n).map b.linkTo)) {}) s s' := by
    refine replays_foldlM (fun _ l hprogress ↦ loud_normalizeLabel hprogress l) ?_ fun _ ↦ ⟨rfl, h⟩
    rintro t t' progress _ l - - ⟨rfl, hlater⟩
    exact replays_normalizeLabel hlater _ l
  refine hfold.bind (fun progress hprogress ↦ ?_) ?_
  · split
    · exact loud_pure hprogress
    · exact loud_bind fun _ ↦ reports_true
  · rintro t t' progress _ hquiet ⟨rfl, hlater⟩
    split
    · exact replays_pure fun _ ↦ ⟨hquiet, hlater⟩
    · exact Loud.replays (loud_bind fun _ ↦ reports_true)

theorem stays_normalize (h : Later b s s') : StaysQuiet b (normalize root) (normalize root) s s' := by
  refine stays_sweep (fun t t' n hlater hn ↦ ?_) h
  refine replays_tree_bind ?_
  rw [hlater.left.shape?_eq hn, hlater.right.shape?_eq hn]
  split
  · exact stays_normalizeEnum hlater hn
  · exact stays_false hlater

end Enumeration

end ProtocolIR
