import ProtocolIR.CanonicalId
import ProtocolIR.Proofs.Ensures

/-!
# Naming and unification are steps

Canonical IDs, type IDs and serializations are written into nodes that have none, and every one
that is written is reported.
-/

namespace ProtocolIR

open Tree Option

variable {t : Tree} {n : NodeId} {data : TypeData}

/-! ## Facts about one node -/

section Facts

variable {t : Tree} {n : NodeId} {d : Declaration} {data : TypeData}

theorem Tree.modifyDeclaration_of_kind (h : t.kind n = .declaration d)
    (f : Declaration → Declaration) :
    t.modifyDeclaration n f = t.setKind n (.declaration (f d)) := by
  unfold modifyDeclaration
  rw [h]

theorem Tree.modifyType_of_kind (h : t.kind n = .type data) (f : TypeData → TypeData) :
    t.modifyType n f = t.setKind n (.type (f data)) := by
  unfold modifyType
  rw [h]

theorem Tree.Step.of_setDeclaration {d' : Declaration} (ht : t.Coherent)
    (h : t.kind n = .declaration d) (hrefines : d.Refines d') (hne : d' ≠ d) :
    Step t true (t.setKind n (.declaration d')) := by
  refine Step.of_setKind ht (has_of_kind (by rw [h]; simp)) ?_ ?_
  · rw [h]
    exact .declaration hrefines
  · rw [h]
    simpa using hne

theorem Tree.Step.of_setType {data' : TypeData} (ht : t.Coherent) (h : t.kind n = .type data)
    (hrefines : data.Refines data') (hne : data' ≠ data) :
    Step t true (t.setKind n (.type data')) := by
  refine Step.of_setKind ht (has_of_kind (by rw [h]; simp)) ?_ ?_
  · rw [h]
    exact .type hrefines
  · rw [h]
    simpa using hne

end Facts

/-! ## Canonical IDs and type IDs -/

namespace CanonicalId

variable {w : Workspace}

/-- Nothing is done to a tree, or an ID is written into a declaration, or into a declared type, that
has none. -/
inductive Identifies (t : Tree) : Bool → Tree → Prop
  | none : Identifies t false t
  | declaration {n : NodeId} {d : Declaration} {id : String} : t.kind n = .declaration d →
      d.canonicalId = none →
      Identifies t true (t.setKind n (.declaration { d with canonicalId := some id }))
  | type {n u : NodeId} {data : TypeData} {id : String} : t.declaredType n = some u →
      t.kind u = .type data → data.typeId = none →
      Identifies t true (t.setKind u (.type { data with typeId := some id }))

theorem Identifies.step {t' : Tree} {b : Bool} (h : Identifies t b t') (ht : t.Coherent) : Step t b t' := by
  cases h with
  | none => exact .refl ht
  | @declaration n d id hkind hnone =>
    refine .of_setDeclaration ht hkind ⟨rfl, rfl, hnone ▸ .of_none _, .same _⟩ fun heq ↦ ?_
    cases hnone.symm.trans (congrArg Declaration.canonicalId heq).symm
  | @type n u data id _ hkind hnone =>
    refine .of_setType ht hkind ⟨.same _, rfl, .refl _, hnone ▸ .of_none _⟩ fun heq ↦ ?_
    cases hnone.symm.trans (congrArg TypeData.typeId heq).symm

theorem safe_assignOne (taken : List String) (n : NodeId) :
    Safe (assignOne taken n) w fun r w' ↦ Identifies w.tree r.2 w'.tree := by
  refine safe_tree_bind.2 ?_
  split
  next h =>
    obtain ⟨d, hd, hnone⟩ := (any_eq_true _ _).1 h
    have hkind := declaration?_eq_some_iff.1 hd
    refine safe_bind.2 (safe_modifyTree.2 (safe_bind.2 (Pass.safe_recordChange fun _ ↦ ?_)))
    show Identifies w.tree true (w.tree.modifyDeclaration n _)
    rw [modifyDeclaration_of_kind hkind]
    exact .declaration hkind (isNone_iff_eq_none.1 hnone)
  · exact Identifies.none

theorem safe_stamp (n : NodeId) : Safe (stamp n) w fun b w' ↦ Identifies w.tree b w'.tree := by
  refine safe_tree_bind.2 ?_
  split
  next id u _ hu =>
    obtain ⟨hdeclared, hany⟩ := filter_eq_some_iff.1 hu
    obtain ⟨data, hdata, hcond⟩ := (any_eq_true _ _).1 hany
    have hkind := typeData?_eq_some_iff.1 hdata
    refine safe_bind.2 (safe_modifyTree.2 (safe_bind.2 (Pass.safe_recordChange fun _ ↦ ?_)))
    show Identifies w.tree true (w.tree.modifyType u _)
    rw [modifyType_of_kind hkind]
    exact .type hdeclared hkind (isNone_iff_eq_none.1 (Bool.and_eq_true_iff.1 hcond).2)
  · exact Identifies.none

section Leads

variable {r : Tree → Tree → Prop} [IsPreorder Tree r] (h : ∀ {t b t'}, Identifies t b t' → r t t')

include h

theorem leads_assignStep (state : List String × Bool) (n : NodeId) (w : Workspace) :
    Leads r (assignStep state n) w :=
  Leads.bind ((safe_assignOne state.1 n).ensures.mono fun _ _ ↦ h) fun _ _ ↦
    Leads.bind ((safe_stamp n).ensures.mono fun _ _ ↦ h) fun _ _ ↦ leads_pure _

theorem leads_assign (start : NodeId) (w : Workspace) : Leads r (assign start) w :=
  leads_tree_bind ((leads_foldlM (leads_assignStep h) _ _).bind fun _ _ ↦ leads_pure _)

end Leads

theorem safe_assignStep {w' : Workspace} {state : List String × Bool} (n : NodeId)
    (h : Step w.tree state.2 w'.tree) :
    Safe (assignStep state n) w' fun state' w'' ↦ Step w.tree state'.2 w''.tree := by
  refine (safe_assignOne state.1 n).bind fun r w₁ hassign ↦ ?_
  have h₁ := h.trans (hassign.step h.coherent)
  exact (safe_stamp n).bind fun stamped w₂ hstamp ↦ h₁.trans (hstamp.step h₁.coherent)

theorem isStep_assign : IsStep (assign root) := by
  intro w ht
  refine safe_tree_bind.2 (safe_bind.2 ?_)
  have hstep : ∀ (state : List String × Bool) (w' : Workspace),
      ∀ n ∈ w.tree.subtree root, Step w.tree state.2 w'.tree →
        Safe (assignStep state n) w' fun state' w'' ↦ Step w.tree state'.2 w''.tree :=
    fun _ _ n _ h ↦ safe_assignStep n h
  exact safe_foldlM hstep (Step.refl ht.toCoherent)

end CanonicalId

/-! ## Serializations -/

/-- What unification of one type does: nothing, or it records the serialization. -/
theorem Tree.unifyType_cases (t : Tree) (n : NodeId) :
    t.unifyType n = (false, t) ∨
      ∃ data text, t.kind n = .type data ∧ data.unification = none ∧ t.serialize n = some text ∧
        t.unifyType n = (true, t.setKind n (.type { data with unification := some text })) := by
  unfold unifyType
  split
  · exact .inl rfl
  next data hdata =>
    split
    next text hnone htext =>
      exact .inr ⟨data, text, typeData?_eq_some_iff.1 hdata, hnone, htext, rfl⟩
    · exact .inl rfl

theorem Tree.Step.of_unification (text : String) (ht : t.Coherent) (hkind : t.kind n = .type data)
    (hnone : data.unification = none) :
    Step t true (t.setKind n (.type { data with unification := some text })) := by
  refine Step.of_setType ht hkind ⟨.same _, rfl, ?_, .refl _⟩ fun heq ↦ ?_
  · rw [hnone]
    exact .of_none _
  · have := congrArg TypeData.unification heq
    rw [hnone] at this
    cases this

theorem Tree.unification_setKind {text : String} (hkind : t.kind n = .type data) :
    ((t.setKind n (.type { data with unification := some text })).typeData? n).bind
      TypeData.unification = some text := by
  have hhas : t.Has n := has_of_kind (by rw [hkind]; simp)
  have hnew : (t.setKind n (.type { data with unification := some text })).kind n =
      .type { data with unification := some text } := by
    rw [kind_setKind, if_pos ⟨rfl, hhas⟩]
  rw [typeData?_eq_some_iff.2 hnew]
  rfl

namespace Unification

/-- Unification does to a tree what recording one text after another does. -/
theorem leads_unify {r : Tree → Tree → Prop} [IsPreorder Tree r] (h : ∀ t n, r t (t.unifyType n).2)
    (start : NodeId) (w : Workspace) : Leads r (unify start) w := by
  refine leads_sweep fun n w ↦ ?_
  have hunify : Ensures (Surgery.unifyType n) w.tree fun _ t' ↦ r w.tree t' := by
    intro a t' hrun
    have ht' : (w.tree.unifyType n).2 = t' := congrArg Prod.snd (Except.ok.inj hrun)
    exact ht' ▸ h w.tree n
  refine (leads_edit hunify).bind fun changed w ↦ ?_
  split
  · refine leads_tree_bind ?_
    split
    · exact (leads_recordChange .unifier n _).bind fun _ _ ↦ leads_pure _
    · exact leads_pure _
  · exact leads_pure _

end Unification

end ProtocolIR
