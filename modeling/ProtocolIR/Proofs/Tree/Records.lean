import ProtocolIR.Unification

/-!
# What does not depend on recorded texts

The text that is recorded for a type says what its structure says. Links, types, their elements and
how they are put together are read off the kinds, slots and parents of nodes, so two trees that
differ in recorded texts only, or in their scopes, give the same answers.
-/

namespace ProtocolIR

/-- A kind of node without the text that is recorded in it. -/
def NodeKind.forgetText : NodeKind → NodeKind
  | .type data => .type { data with unification := none }
  | kind => kind

def NodeKind.setText (text : Option String) : NodeKind → NodeKind
  | .type data => .type { data with unification := text }
  | kind => kind

namespace Tree

variable {t t' : Tree}

/-- The trees differ in recorded texts only, as far as types are read. -/
structure Retold (t t' : Tree) : Prop where
  size_eq : t'.size = t.size
  exists_text : ∀ n, ∃ text, t'.kind n = (t.kind n).setText text
  slots_eq : t'.slots = t.slots
  parent_eq : t'.parent = t.parent

namespace Retold

variable (h : Retold t t')

include h

theorem child_eq : t'.child = t.child := by
  unfold child
  rw [h.slots_eq]

theorem children_eq : t'.children = t.children := by
  unfold children
  rw [h.slots_eq]

theorem ancestors_eq : t'.ancestors = t.ancestors := by
  have hchain : ∀ fuel, t'.chain fuel = t.chain fuel := by
    intro fuel
    funext o
    induction fuel generalizing o with
    | zero => cases o <;> rfl
    | succ fuel ih =>
      cases o with
      | none => rfl
      | some n => rw [chain, chain, h.parent_eq, ih]
  unfold ancestors
  rw [h.size_eq, h.parent_eq, hchain]

/-! ## Types -/

theorem shape?_eq : t'.shape? = t.shape? := by
  funext n
  unfold shape? typeData?
  obtain ⟨text, hkind⟩ := h.exists_text n
  rw [hkind]
  cases t.kind n <;> rfl

theorem qualifiers?_eq : t'.qualifiers? = t.qualifiers? := by
  funext n
  unfold qualifiers?
  obtain ⟨text, hkind⟩ := h.exists_text n
  rw [hkind]
  cases t.kind n <;> rfl

theorem declaration?_eq : t'.declaration? = t.declaration? := by
  funext n
  unfold declaration?
  obtain ⟨text, hkind⟩ := h.exists_text n
  rw [hkind]
  cases t.kind n <;> rfl

theorem isTypeDeclaration_eq (n : NodeId) :
    (t'.kind n).isTypeDeclaration = (t.kind n).isTypeDeclaration :=
  congrArg (Option.any _) (congrFun h.declaration?_eq n)

theorem unqualified_eq : t'.unqualified = t.unqualified := by
  funext n
  unfold unqualified
  obtain ⟨text, hkind⟩ := h.exists_text n
  rw [hkind, h.child_eq]
  cases t.kind n <;> rfl

theorem declaredType_eq : t'.declaredType = t.declaredType := by
  funext n
  unfold declaredType
  rw [h.isTypeDeclaration_eq, h.child_eq, h.unqualified_eq]

theorem linkTarget_eq : t'.linkTarget = t.linkTarget := by
  funext link
  unfold linkTarget isAttached isWithin
  rw [h.ancestors_eq, h.size_eq]
  obtain ⟨text, hkind⟩ := h.exists_text link.node
  rw [hkind]
  cases t.kind link.node <;> rfl

theorem linkedType_eq : t'.linkedType = t.linkedType := by
  unfold linkedType
  rw [h.linkTarget_eq, h.declaredType_eq]

theorem follow_eq : t'.follow = t.follow := by
  have hwithin : ∀ fuel, t'.followWithin fuel = t.followWithin fuel := by
    intro fuel
    induction fuel with
    | zero => rfl
    | succ fuel ih =>
      funext n
      unfold followWithin
      rw [h.shape?_eq, h.linkedType_eq, ih]
  unfold follow
  rw [h.unqualified_eq, hwithin]

theorem elementType_eq : t'.elementType = t.elementType := by
  have hwithin : ∀ fuel, t'.elementTypeWithin fuel = t.elementTypeWithin fuel := by
    intro fuel
    induction fuel with
    | zero => rfl
    | succ fuel ih =>
      funext n
      unfold elementTypeWithin
      rw [h.follow_eq, h.shape?_eq, h.child_eq, ih]
  unfold elementType
  rw [h.size_eq, hwithin]

/-- How a type is written from the texts of its parts. -/
theorem serializeShape_eq : serializeShape t' = serializeShape t := by
  have hqualified : serializeQualifiedWith t' = serializeQualifiedWith t := by
    unfold serializeQualifiedWith
    rw [h.qualifiers?_eq, h.child_eq]
  have hsignature : serializeSignaturePart t' = serializeSignaturePart t := by
    funext write n
    unfold serializeSignaturePart
    rw [hqualified, h.child_eq]
    obtain ⟨text, hkind⟩ := h.exists_text n
    rw [hkind]
    cases t.kind n <;> rfl
  have hdeclared : isDeclared t' = isDeclared t := by
    funext n
    unfold isDeclared
    rw [h.parent_eq]
    cases (t.parent n).bind t.parent with
    | none => rfl
    | some d => exact h.isTypeDeclaration_eq d
  unfold serializeShape serializeAround serializeCompound serializeMember
  rw [hqualified, hsignature, hdeclared, h.declaration?_eq, h.linkedType_eq, h.elementType_eq,
    h.child_eq, h.children_eq]

end Retold

end Tree

end ProtocolIR
