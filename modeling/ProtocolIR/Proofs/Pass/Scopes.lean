import ProtocolIR.Proofs.Pass.Step
import ProtocolIR.Units.Basic

/-!
# Building scopes leaves the nodes alone

Scopes are forgotten and built anew in every round. All that this changes of a node is the number
of its scope.
-/

namespace ProtocolIR.Tree

/-- The trees differ in their scopes only. -/
structure SameNodes (t t' : Tree) : Prop where
  size_eq : t'.size = t.size
  node_eq : ∀ n, (t'.node n).unscoped = (t.node n).unscoped

namespace SameNodes

variable {t t₁ t₂ : Tree}

theorem refl (t : Tree) : SameNodes t t := ⟨rfl, fun _ ↦ rfl⟩

section

variable (h : SameNodes t t₁)

include h

theorem trans (h' : SameNodes t₁ t₂) : SameNodes t t₂ :=
  ⟨h'.size_eq.trans h.size_eq, fun n ↦ (h'.node_eq n).trans (h.node_eq n)⟩

theorem symm : SameNodes t₁ t := ⟨h.size_eq.symm, fun n ↦ (h.node_eq n).symm⟩

theorem sameLinks : SameLinks t t₁ :=
  ⟨fun n ↦ by have heq := congrArg Node.slots (h.node_eq n); exact heq,
    fun n ↦ by have heq := congrArg Node.parent (h.node_eq n); exact heq⟩

theorem kind_eq (n : NodeId) : t₁.kind n = t.kind n := by
  have heq := congrArg Node.kind (h.node_eq n)
  exact heq

theorem has_iff (n : NodeId) : t₁.Has n ↔ t.Has n := by
  unfold Has
  rw [h.size_eq]

theorem idle : Idle t t₁ where
  size_le := Nat.le_of_eq h.size_eq.symm
  node_eq {n} _ := h.node_eq n
  new_type hnew hn := absurd ((h.has_iff _).1 hn) hnew

theorem step (ht : t.Coherent) : Step t false t₁ where
  size_le := Nat.le_of_eq h.size_eq.symm
  kind {n} _ := by rw [h.kind_eq n]; exact .same _
  coherent := h.sameLinks.coherent ht
  idle _ := h.idle
  advanced hb := by cases hb

theorem rooted (ht : t.Rooted) : t₁.Rooted := (h.step ht.toCoherent).rooted ht

end

theorem foldl {ι : Type} {f : Tree → ι → Tree} (hf : ∀ t i, SameNodes t (f t i)) (l : List ι)
    (t : Tree) : SameNodes t (l.foldl f t) := by
  induction l generalizing t with
  | nil => exact refl t
  | cons i l ih => exact (hf t i).trans (ih (f t i))

end SameNodes

theorem sameNodes_modifyScope (t : Tree) (s : ScopeId) (f : Scope → Scope) :
    SameNodes t (t.modifyScope s f) := ⟨rfl, fun _ ↦ rfl⟩

theorem sameNodes_openScope (t : Tree) (n : NodeId) : SameNodes t (t.openScope n).2 := by
  unfold openScope
  split
  · exact .refl t
  refine ⟨size_modifyNode _ n _, fun m ↦ ?_⟩
  exact field_modifyNode Node.unscoped _ n m _ fun _ ↦ rfl

theorem sameNodes_listInScope (t : Tree) (owner : NodeId) (entries : List (String × NodeId)) :
    SameNodes t (t.listInScope owner entries) :=
  (sameNodes_openScope t owner).trans (sameNodes_modifyScope _ _ _)

theorem sameNodes_clearScopes (t : Tree) : SameNodes t t.clearScopes := by
  refine ⟨by simp [clearScopes, size], fun n ↦ ?_⟩
  unfold clearScopes node
  rw [Array.getElem?_map]
  cases t.nodes[n.index]? <;> rfl

theorem sameNodes_buildScope (t : Tree) (n : NodeId) : SameNodes t (t.buildScope n) := by
  unfold buildScope
  split
  · split
    · exact (sameNodes_listInScope _ _ _).trans <| (sameNodes_openScope _ n).trans <|
        sameNodes_modifyScope _ _ _
    · exact sameNodes_listInScope _ _ _
    · exact .refl t
  · exact sameNodes_listInScope _ _ _
  · split
    · exact sameNodes_listInScope _ _ _
    · exact sameNodes_listInScope _ _ _
    · exact sameNodes_listInScope _ _ _
    · exact .refl t
  · exact .refl t

theorem sameNodes_registerMethod (t : Tree) (n : NodeId) : SameNodes t (t.registerMethod n) := by
  unfold registerMethod
  split
  · exact .refl t
  split
  · refine SameNodes.foldl (fun t owner ↦ ?_) _ t
    unfold listMethod
    split
    · split
      · exact sameNodes_listInScope _ _ _
      · exact .refl t
    · exact .refl t
  · exact .refl t

theorem sameNodes_buildScopes (t : Tree) (n : NodeId) : SameNodes t (t.buildScopes n) :=
  (SameNodes.foldl sameNodes_buildScope _ t).trans (SameNodes.foldl sameNodes_registerMethod _ _)

theorem sameNodes_buildUnitScopes (t : Tree) (n : NodeId) : SameNodes t (t.buildUnitScopes n) :=
  SameNodes.foldl (fun t _ ↦ sameNodes_listInScope t _ _) _ t

end ProtocolIR.Tree
