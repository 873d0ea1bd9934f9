import ProtocolIR.Compiler
import ProtocolIR.Proofs.Ensures

/-!
# Findings

Checks and products attach findings to nodes and leave the tree as it is otherwise. An error that is
attached to a node beneath the root is among the errors of the tree from then on, so a tree without
errors has passed every check.
-/

namespace ProtocolIR.Tree

open List

/-- The second tree is the first, with more findings at some nodes. -/
structure Annotated (t t' : Tree) : Prop where
  size_eq : t'.size = t.size
  node_eq : ∀ n, (t'.node n).silent = (t.node n).silent
  scopes_eq : t'.scopes = t.scopes
  findings : ∀ n, (t.node n).findings ⊆ (t'.node n).findings

/-- Some error is attached to a node. -/
def HasError (t : Tree) (n : NodeId) : Prop := ∃ f ∈ (t.node n).findings, f.severity = .error

namespace Annotated

variable {t t₁ t₂ : Tree} {n : NodeId}

theorem refl (t : Tree) : Annotated t t := ⟨rfl, fun _ ↦ rfl, rfl, fun _ ↦ List.Subset.refl _⟩

variable (h : Annotated t t₁)

include h

theorem trans (h' : Annotated t₁ t₂) : Annotated t t₂ where
  size_eq := h'.size_eq.trans h.size_eq
  node_eq n := (h'.node_eq n).trans (h.node_eq n)
  scopes_eq := h'.scopes_eq.trans h.scopes_eq
  findings n := List.Subset.trans (h.findings n) (h'.findings n)

theorem kind_eq (n : NodeId) : t₁.kind n = t.kind n := by
  have heq := congrArg Node.kind (h.node_eq n)
  exact heq

theorem sameLinks : SameLinks t t₁ where
  slots n := by
    have heq := congrArg Node.slots (h.node_eq n)
    exact heq
  parent n := by
    have heq := congrArg Node.parent (h.node_eq n)
    exact heq

theorem has_iff (n : NodeId) : t₁.Has n ↔ t.Has n := by
  unfold Has
  rw [h.size_eq]

theorem rooted (ht : t.Rooted) : t₁.Rooted where
  toCoherent := h.sameLinks.coherent ht.toCoherent
  has_root := (h.has_iff root).2 ht.has_root
  kind_root := (h.kind_eq root).trans ht.kind_root

theorem hasError (hn : t.HasError n) : t₁.HasError n := by
  obtain ⟨f, hf, herror⟩ := hn
  exact ⟨f, h.findings n hf, herror⟩

end Annotated

/-- No reader of the tree sees the findings. -/
theorem Padded.annotate {b s t : Tree} (h : Padded b s) (ht : Annotated s t) : Padded b t where
  rooted := h.rooted
  linked := ht.sameLinks.linked h.linked
  size_le := by rw [ht.size_eq]; exact h.size_le
  node_eq hn := (congrArg Node.unscoped (ht.node_eq _)).trans (h.node_eq hn)
  scopes_eq := ht.scopes_eq.trans h.scopes_eq
  extra_type hn hn' := by
    rw [ht.kind_eq]
    exact h.extra_type hn ((ht.has_iff _).1 hn')
  scopeOf_eq n := by
    have heq := congrArg Node.scope (ht.node_eq n)
    exact heq.trans (h.scopeOf_eq n)

instance : IsPreorder Tree Annotated where
  refl := .refl
  trans _ _ _ := .trans

section AddErrors

variable {t : Tree} {n : NodeId}

theorem annotated_addError (t : Tree) (n : NodeId) (message : String) (phase : Phase) :
    Annotated t (t.addError n message phase) where
  size_eq := size_modifyNode ..
  node_eq m := by
    unfold addError addFinding
    rw [node_modifyNode]
    split
    next hm => rw [hm.1]; rfl
    · rfl
  scopes_eq := scopes_modifyNode ..
  findings m := by
    unfold addError addFinding
    rw [node_modifyNode]
    split
    next hm => rw [hm.1]; exact subset_append_left _ _
    · exact List.Subset.refl _

theorem hasError_addError (hn : t.Has n) (message : String) (phase : Phase) :
    (t.addError n message phase).HasError n := by
  refine ⟨⟨message, .error, phase⟩, ?_, rfl⟩
  unfold addError addFinding
  rw [node_modifyNode, if_pos ⟨rfl, hn⟩]
  exact mem_append_right _ (mem_singleton_self _)

theorem annotated_addErrors (t : Tree) (errors : List (NodeId × String)) (phase : Phase) :
    Annotated t (t.addErrors errors phase) := by
  induction errors generalizing t with
  | nil => exact .refl t
  | cons error rest ih => exact (annotated_addError t error.1 error.2 phase).trans (ih _)

theorem hasError_addErrors {errors : List (NodeId × String)} {message : String} (phase : Phase)
    (hn : t.Has n) (h : (n, message) ∈ errors) : (t.addErrors errors phase).HasError n := by
  induction errors generalizing t with
  | nil => cases h
  | cons error rest ih =>
    have hfirst := annotated_addError t error.1 error.2 phase
    rcases mem_cons.1 h with rfl | h
    · exact (annotated_addErrors _ rest phase).hasError (hasError_addError hn message phase)
    · exact ih ((hfirst.has_iff n).2 hn) h

/-- A tree without errors beneath a node has no node with an error there. -/
theorem not_hasError {start : NodeId} (h : Compilation.errorsBeneath t start = [])
    (hn : n ∈ t.subtree start) : ¬t.HasError n := by
  rintro ⟨f, hf, herror⟩
  have hmem : Diagnostic.mk f.message (t.nearestLocation n) f.severity f.phase ∈ t.diagnostics start :=
    mem_flatMap.2 ⟨n, hn, mem_map_of_mem hf⟩
  have hnone := filter_eq_nil_iff.1 h _ hmem
  simp [Diagnostic.isError, herror] at hnone

end AddErrors

end ProtocolIR.Tree
