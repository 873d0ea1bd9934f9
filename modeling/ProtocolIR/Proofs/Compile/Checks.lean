import ProtocolIR.Proofs.Compile.Findings

/-!
# What passing the last checks means

Every error of a check stands at the node that is checked or at one of its children. So if no error
is left beneath the root, the checks of every node beneath the root gave none, and each check can be
read backwards.
-/

namespace ProtocolIR.Validation

open Tree List

variable {t t' : Tree} {session : Session} {n : NodeId}

/-! ## Where errors stand -/

/-- All errors stand at the node or beneath it. -/
def StandWithin (t : Tree) (n : NodeId) (result : Except Fault Errors) : Prop :=
  ∀ errors, result = .ok errors → ∀ error ∈ errors, t.Within n error.1

theorem standWithin_nil : StandWithin t n (.ok []) := by
  intro errors h
  cases h
  simp

/-- One error at the node itself. -/
theorem standWithin_self {message : String} : StandWithin t n (.ok [(n, message)]) := by
  intro errors h error herror
  cases h
  cases mem_singleton.1 herror
  exact .here

theorem standWithin_bind {α : Type} {x : Except Fault α} {k : α → Except Fault Errors}
    (h : ∀ a, x = .ok a → StandWithin t n (k a)) : StandWithin t n (x >>= k) := by
  intro errors hrun
  obtain ⟨a, ha, hk⟩ := exists_of_bind_eq_ok hrun
  exact h a ha errors hk

theorem standWithin_checkCoercion (ht : t.Linked) (index : Nat) (dst : NodeId) (style : Style) :
    StandWithin t n (checkCoercion t session n index dst style) := by
  unfold checkCoercion
  split
  · exact standWithin_nil
  next e he =>
    split
    · exact standWithin_nil
    split
    · exact standWithin_nil
    refine standWithin_bind fun _ _ ↦ standWithin_bind fun _ _ ↦ standWithin_bind fun _ _ ↦ ?_
    intro errors h error herror
    cases h
    cases mem_singleton.1 herror
    exact .of_parent (ht.parent_of_child he)

theorem standWithin_checkVariable (ht : t.Linked) (d : Declaration) :
    StandWithin t n (checkVariable t session n d) := by
  unfold checkVariable
  split
  · exact standWithin_nil
  split
  · exact standWithin_self
  · exact standWithin_checkCoercion ht 1 _ _

theorem standWithin_checkUnresolved (kind : OperatorKind) :
    StandWithin t n (checkUnresolved t session n kind) := by
  refine standWithin_bind fun _ _ ↦ standWithin_bind fun _ _ ↦ standWithin_bind fun message _ ↦ ?_
  intro errors h error herror
  cases h
  obtain ⟨text, -, rfl⟩ := mem_map.1 herror
  exact .here

theorem standWithin_checkResolved (ht : t.Linked) (kind : OperatorKind) (target : OperatorTarget) :
    StandWithin t n (checkResolved t session n kind target) := by
  unfold checkResolved
  split
  · exact standWithin_nil
  split
  · exact standWithin_self
  refine standWithin_bind fun lists hlists ↦ ?_
  intro errors h error herror
  cases h
  obtain ⟨list, hlist, herror⟩ := mem_flatten.1 herror
  obtain ⟨⟨parameter, k⟩, -, hcheck⟩ := mem_of_mapM_ok hlists hlist
  dsimp only at hcheck
  split at hcheck
  · exact standWithin_checkCoercion ht _ _ _ list hcheck error herror
  · exact standWithin_nil list hcheck error herror

theorem standWithin_checkAssignment (ht : t.Linked) : StandWithin t n (checkAssignment t session n) := by
  unfold checkAssignment
  split
  · exact standWithin_nil
  split
  · exact standWithin_nil
  split
  · exact standWithin_bind fun _ _ ↦ standWithin_self
  · exact standWithin_checkCoercion ht 1 _ _

theorem standWithin_checkReturn (ht : t.Linked) : StandWithin t n (checkReturn t session n) := by
  unfold checkReturn
  split
  · exact standWithin_nil
  split
  · exact standWithin_self
  · exact standWithin_self
  · exact standWithin_checkCoercion ht 0 _ _
  · exact standWithin_nil

/-- Every error of a check stands at the node that is checked or beneath it. -/
theorem standWithin_postErrors (ht : t.Linked) : StandWithin t n (postErrors t session n) := by
  unfold postErrors
  split
  · split
    · unfold checkName
      split
      · exact standWithin_nil
      · split <;> exact standWithin_self
    · exact standWithin_checkUnresolved _
    · exact standWithin_checkResolved ht _ _
    · exact standWithin_checkAssignment ht
    · exact standWithin_nil
  · split
    · exact standWithin_self
    · exact standWithin_nil
  · split
    · exact standWithin_checkVariable ht _
    · exact standWithin_checkVariable ht _
    · exact standWithin_checkVariable ht _
    · unfold checkFunction
      split
      · exact standWithin_nil
      · split; exacts [standWithin_nil, standWithin_self]
    · exact standWithin_nil
  · exact standWithin_checkReturn ht
  · exact standWithin_nil

/-! ## Trees without errors -/

theorem annotated_of_validatePost (h : validatePost t session root = .ok t') : Annotated t t' := by
  obtain ⟨lists, -, ht'⟩ := exists_of_bind_eq_ok h
  cases ht'
  exact annotated_addErrors ..

/-- If the last checks leave no error beneath the root, the checks of every node there gave none. -/
theorem postErrors_of_validatePost (ht : t.Rooted) (h : validatePost t session root = .ok t')
    (hnone : Compilation.errorsBeneath t' root = []) (hn : t.Within root n) :
    postErrors t session n = .ok [] := by
  obtain ⟨lists, hlists, ht'⟩ := exists_of_bind_eq_ok h
  cases ht'
  have hannotated := annotated_addErrors t lists.flatten .postValidation
  have hvisited := ht.mem_visited .pre (hn.has ht.has_root) hn
  obtain ⟨errors, herrors, hpost⟩ := exists_mem_of_mapM_ok hlists hvisited
  cases errors with
  | nil => exact hpost
  | cons error rest =>
    have hwithin : t.Within root error.1 :=
      hn.trans (standWithin_postErrors ht.toLinked _ hpost error mem_cons_self)
    have hhas := hwithin.has ht.has_root
    have hmem : (error.1, error.2) ∈ lists.flatten :=
      mem_flatten_of_mem herrors mem_cons_self
    have hsubtree : error.1 ∈ (t.addErrors lists.flatten .postValidation).subtree root := by
      rw [((Padded.refl ht).annotate hannotated).subtree_eq ht.has_root]
      exact ht.mem_ordered .pre hhas hwithin
    exact absurd (hasError_addErrors .postValidation hhas hmem) (not_hasError hnone hsubtree)

/-! ## Reading checks backwards -/

variable {e src dst : NodeId}

theorem exists_coercion_of_check {index : Nat} {style : Style}
    (h : checkCoercion t session n index dst style = .ok []) (he : t.child n index = some e)
    (hsrc : t.expressionType e = some src) (hresolved : t.isResolved src) (hresolved' : t.isResolved dst) :
    ∃ coercion, Coercion.coerceExpression session.conversions t e dst style = .ok coercion := by
  unfold checkCoercion at h
  simp only [he, hsrc, Option.filter, hresolved, hresolved', Bool.and_self, if_true] at h
  split at h
  next coercion hcoercion => exact ⟨coercion, hcoercion⟩
  · obtain ⟨_, -, h⟩ := exists_of_bind_eq_ok h
    obtain ⟨_, -, h⟩ := exists_of_bind_eq_ok h
    obtain ⟨_, -, h⟩ := exists_of_bind_eq_ok h
    cases h

end ProtocolIR.Validation
