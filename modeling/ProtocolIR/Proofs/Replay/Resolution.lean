import ProtocolIR.Proofs.Padding.Selection
import ProtocolIR.Proofs.Pass.Resolution

/-!
# Quiet resolution is replayed

What cannot be bound or inferred in one padding cannot be in another: lookups find the same, and
operators and types that were not ready are not ready.
-/

namespace ProtocolIR

open Tree Coercion List Option

namespace Tree.Padded

variable {b s : Tree} {n : NodeId}

variable (h : Padded b s)

include h

theorem isValue_eq : s.isValue = b.isValue := by
  funext n
  unfold isValue
  by_cases hn : b.Has n
  · rw [h.kind_eq hn]
  · rw [kind_of_not_has hn]
    rcases h.extra_kind hn with hkind | ⟨data, hkind⟩ | ⟨q, hkind⟩
    · rw [hkind]
    · rw [hkind]
    · rw [hkind]

theorem isCallee_eq (hn : b.Has n) : s.isCallee n = b.isCallee n := by
  have hkind : (b.parent n).map s.kind = (b.parent n).map b.kind :=
    map_congr fun p hp ↦ h.kind_eq (h.base.has_parent hp)
  unfold isCallee
  rw [h.parent_eq hn, hkind, h.slotIndex_eq hn]

theorem findType_eq : Resolution.findType s = Resolution.findType b := by
  funext ns
  unfold Resolution.findType
  simp only [h.isTypeDeclaration_eq]

theorem selfType_eq (hn : b.Has n) : Resolution.selfType s n = Resolution.selfType b n := by
  have hlink : s.linkTarget = b.linkTarget := funext h.linkTarget_eq
  have hdeclared : s.declaredType = b.declaredType := funext h.declaredType_eq
  unfold Resolution.selfType
  simp only [h.ancestors_eq hn, h.declaration?_eq, hlink, hdeclared]

/-- A type that waits for inference. -/
theorem autoType_eq (hn : b.Has n) :
    (s.child n 0).filter s.isAuto = (b.child n 0).filter b.isAuto := by
  rw [h.child_eq hn]
  cases hc : b.child n 0 with
  | none => rfl
  | some c => simp only [Option.filter, h.isAuto_eq (h.base.has_of_child hc)]

/-- The type of an expression, once it is resolved. -/
theorem resolvedType_eq (hn : b.Has n) :
    (s.expressionType n).filter s.isResolved = (b.expressionType n).filter b.isResolved := by
  rw [h.expressionType_eq hn]
  cases hc : b.expressionType n with
  | none => rfl
  | some c => simp only [Option.filter, h.isResolved_eq (h.base.has_of_expressionType hc)]

/-- The type of an initial value, once it is resolved. -/
theorem initialType_eq (hn : b.Has n) :
    (((s.child n 1).bind s.expressionType).filter s.isResolved).bind s.unqualified =
      (((b.child n 1).bind b.expressionType).filter b.isResolved).bind b.unqualified := by
  rw [h.child_eq hn]
  cases hc : b.child n 1 with
  | none => rfl
  | some c =>
    have hresolved := h.resolvedType_eq (h.base.has_of_child hc)
    rw [bind_some, bind_some, hresolved]
    apply Option.bind_congr
    intro u hu
    have hu : b.expressionType c = some u := (filter_eq_some_iff.mp hu).1
    exact h.unqualified_eq (h.base.has_of_expressionType hu)

/-- The types of the values in a literal, once all are resolved. -/
theorem valueTypes_eq (hn : b.Has n) :
    ((((s.slots n).drop 1).filterMap id).mapM fun v ↦ (s.expressionType v).filter s.isResolved) =
      (((b.slots n).drop 1).filterMap id).mapM fun v ↦
        (b.expressionType v).filter b.isResolved := by
  rw [h.slots_eq hn]
  apply mapM_congr_of_mem
  intro v hv
  exact h.resolvedType_eq (h.base.has_of_held (mem_slots_of_mem_drop hv))

/-- Whether a function is the prototype that a signature asks for. -/
theorem isPrototype_eq {p signature : NodeId} (hsignature : b.Has signature) :
    ((s.child p 1).isNone && (s.kind p).isFunction &&
        (s.child p 0).any fun u ↦ s.typesEqual u signature) =
      ((b.child p 1).isNone && (b.kind p).isFunction &&
        (b.child p 0).any fun u ↦ b.typesEqual u signature) := by
  by_cases hp : b.Has p
  · have hany : ((b.child p 0).any fun u ↦ s.typesEqual u signature) =
        (b.child p 0).any fun u ↦ b.typesEqual u signature := by
      cases hc : b.child p 0 with
      | none => rw [any_none, any_none]
      | some c =>
        rw [any_some, any_some, h.typesEqual_eq (h.base.has_of_child hc) hsignature]
    rw [h.child_eq hp, h.child_eq hp, h.isFunction_eq, hany]
  · have hnone : (b.kind p).isFunction = false := by rw [kind_of_not_has hp]; rfl
    rw [h.isFunction_eq, hnone, Bool.and_false, Bool.and_false, Bool.false_and, Bool.false_and]

theorem findPrototype_eq (hn : b.Has n) (id : String) :
    Resolution.findPrototype s n id = Resolution.findPrototype b n id := by
  unfold Resolution.findPrototype
  rw [h.child_eq hn, h.child_eq hn, h.parent_eq hn]
  apply Option.bind_congr
  intro _ _
  apply Option.bind_congr
  intro start hstart
  apply Option.bind_congr
  intro signature hsignature
  rw [h.lookup_eq (h.base.has_parent hstart)]
  apply find?_congr_of_mem
  intro p _
  simp only [Bool.and_assoc]
  simpa only [Bool.and_assoc] using congrArg (p != n && ·)
    (h.isPrototype_eq (h.base.has_of_child hsignature))

end Tree.Padded

namespace Resolution

variable {b s s' : Tree} {n : NodeId} {session : Session} {x x' : Surgery NodeId}
  {operands : List NodeId}

section

variable (h : Later b s s') (hn : b.Has n)

include h hn

theorem stays_resolveName (id : QualifiedId) :
    StaysQuiet b (resolveName n id) (resolveName n id) s s' := by
  refine replays_tree_bind ?_
  rw [h.left.isCallee_eq hn, h.right.isCallee_eq hn, h.left.lookup_eq hn, h.right.lookup_eq hn,
    h.left.isValue_eq, h.right.isValue_eq, h.left.findType_eq, h.right.findType_eq]
  dsimp only
  split
  · exact stays_false h
  split
  · exact Loud.replays (loud_bind fun _ ↦ reports_true)
  · exact Loud.replays (loud_bind fun _ ↦ reports_true)
  · exact stays_false h

theorem stays_resolveTypeName (id : QualifiedId) :
    StaysQuiet b (resolveTypeName n id) (resolveTypeName n id) s s' := by
  refine replays_tree_bind ?_
  rw [h.left.lookup_eq hn, h.right.lookup_eq hn, h.left.findType_eq, h.right.findType_eq]
  split
  · exact stays_false h
  · exact Loud.replays (loud_bind fun _ ↦ loud_bind fun _ ↦ reports_true)

theorem stays_inferVariable : StaysQuiet b (inferVariable n) (inferVariable n) s s' := by
  refine replays_tree_bind ?_
  rw [h.left.autoType_eq hn, h.right.autoType_eq hn, h.left.initialType_eq hn,
    h.right.initialType_eq hn]
  split
  · exact Loud.replays (loud_bind fun _ ↦ loud_bind fun _ ↦ loud_bind fun _ ↦ reports_true)
  · exact stays_false h

theorem stays_inferLiteral (l : Literal) :
    StaysQuiet b (inferLiteral n l) (inferLiteral n l) s s' := by
  refine replays_tree_bind ?_
  dsimp only
  rw [h.left.autoType_eq hn, h.right.autoType_eq hn, h.left.valueTypes_eq hn,
    h.right.valueTypes_eq hn]
  split
  · exact stays_false h
  split
  · exact stays_false h
  · exact stays_false h
  · exact Loud.replays (loud_bind fun _ ↦ loud_bind fun _ ↦ loud_bind fun _ ↦ reports_true)

theorem stays_resolveSelf : StaysQuiet b (resolveSelf n) (resolveSelf n) s s' := by
  refine replays_tree_bind ?_
  rw [h.left.child_eq hn, h.right.child_eq hn, h.left.selfType_eq hn, h.right.selfType_eq hn]
  split
  · exact Loud.replays (loud_bind fun _ ↦ loud_bind fun _ ↦ loud_bind fun _ ↦ loud_bind fun _ ↦
      reports_true)
  · exact stays_false h

theorem stays_bindMethod : StaysQuiet b (bindMethod n) (bindMethod n) s s' := by
  refine replays_tree_bind ?_
  rw [h.left.declaration?_eq, h.right.declaration?_eq, h.left.parent_eq hn, h.right.parent_eq hn,
    h.left.findType_eq, h.right.findType_eq]
  split
  · split
    next hstart =>
      have hstart := h.left.base.has_parent hstart
      rw [h.left.lookup_eq hstart, h.right.lookup_eq hstart]
      split
      · exact stays_false h
      · exact Loud.replays (loud_bind fun _ ↦ loud_bind fun _ ↦ reports_true)
    · exact stays_false h
  · exact stays_false h

theorem stays_linkPrototype : StaysQuiet b (linkPrototype n) (linkPrototype n) s s' := by
  refine replays_tree_bind ?_
  simp only [h.left.declaration?_eq, h.right.declaration?_eq, h.left.findPrototype_eq hn,
    h.right.findPrototype_eq hn]
  split
  · split
    · exact Loud.replays (loud_bind fun _ ↦ loud_bind fun _ ↦ reports_true)
    · exact stays_false h
  · exact stays_false h

end

/-! ### Operators -/

/-- If the first edit gives nothing, it changes nothing, and the second one does the same. -/
def Declines (x x' : Surgery (Option NodeId)) (s s' : Tree) : Prop :=
  ∀ t, x s = .ok (none, t) → t = s ∧ x' s' = .ok (none, s')

theorem declines_none : Declines (pure none) (pure none) s s' := by
  intro t h
  cases h
  exact ⟨rfl, rfl⟩

theorem declines_get {k k' : Tree → Surgery (Option NodeId)} (h : Declines (k s) (k' s') s s') :
    Declines (get >>= k) (get >>= k') s s' := h

/-- An edit that always gives something has nothing to decline. -/
theorem declines_some : Declines (some <$> x) (some <$> x') s s' := by
  intro t h
  have h : (x s >>= fun p ↦ Except.ok (some p.1, p.2)) = .ok (none, t) := h
  obtain ⟨p, -, h⟩ := exists_of_bind_eq_ok h
  cases h

theorem declines_bind_some {k k' : NodeId → Tree → Surgery NodeId} :
    Declines (do some <$> k (← x) (← get)) (do some <$> k' (← x') (← get)) s s' := by
  intro t h
  obtain ⟨c, mid, -, h⟩ := bind_eq_ok h
  exact absurd h fun h ↦ by
    have h : (k c mid mid >>= fun p ↦ Except.ok (some p.1, p.2)) = .ok (none, t) := h
    obtain ⟨p, -, h⟩ := exists_of_bind_eq_ok h
    cases h

theorem declines_valueCopy (h : Twin b s s') (hn : b.Has n) :
    Declines (valueCopy n) (valueCopy n) s s' := by
  refine declines_get ?_
  rw [h.left.unqualified_eq hn, h.right.unqualified_eq hn]
  split
  · exact declines_none
  · exact declines_bind_some

theorem operandType_eq (h : Inset b s) (hoperands : ∀ e ∈ operands, b.Has e) (j : Nat) :
    operands[j]?.bind s.expressionType = operands[j]?.bind b.expressionType :=
  bind_congr fun e he ↦ h.expressionType_eq (hoperands e (mem_of_getElem? he))

theorem declines_builtinResult (h : Twin b s s') (hoperands : ∀ e ∈ operands, b.Has e)
    (rule : ResultRule) :
    Declines (builtinResult operands rule) (builtinResult operands rule) s s' := by
  cases rule with
  | type shape => exact declines_some
  | sameAs j =>
    refine declines_get ?_
    rw [operandType_eq h.left hoperands, operandType_eq h.right hoperands]
    split
    next type htype =>
      obtain ⟨e, -, htype⟩ := bind_eq_some_iff.1 htype
      exact declines_valueCopy h (h.base.has_of_expressionType htype)
    · exact declines_none
  | elementOf j =>
    have helement : ∀ {t : Tree}, Inset b t → (operands[j]?.bind t.expressionType).bind t.elementType =
        (operands[j]?.bind b.expressionType).bind b.elementType := by
      intro t ht
      rw [operandType_eq ht hoperands]
      apply Option.bind_congr
      intro type htype
      obtain ⟨e, -, htype⟩ := bind_eq_some_iff.1 htype
      exact ht.elementType_eq (ht.base.has_of_expressionType htype)
    refine declines_get ?_
    rw [helement h.left, helement h.right]
    split
    · exact declines_some
    · exact declines_none
  | field => exact declines_none

theorem declines_resultType (h : Twin b s s') (hoperands : ∀ e ∈ operands, b.Has e)
    {choice : Choice} (hchoice : ∀ f, choice = .function f → b.Has f) :
    Declines (resultType session operands choice) (resultType session operands choice) s s' := by
  cases choice with
  | builtin id =>
    dsimp only [resultType]
    cases session.registry.get? id with
    | none =>
      intro t hrun
      cases hrun
    | some op => exact declines_builtinResult h hoperands op.result
  | field _ field =>
    refine declines_get ?_
    rw [h.left.declarationType_eq, h.right.declarationType_eq]
    split
    · exact declines_some
    · exact declines_none
  | function f =>
    have hf := hchoice f rfl
    refine declines_get ?_
    rw [h.left.resultType_eq hf, h.right.resultType_eq hf]
    split
    next htype => exact declines_valueCopy h (h.base.has_of_resultType htype)
    · exact declines_none

variable (hsteady : Steady session.conversions) (h : Later b s s')

include hsteady h

theorem stays_resolveOperator (hn : b.Has n) (kind : OperatorKind) :
    StaysQuiet b (resolveOperator session n kind) (resolveOperator session n kind) s s' := by
  refine replays_tree_bind (replays_lift_bind (h.select_below hsteady hn) ?_)
  intro selection hselection
  cases selection with
  | selected candidate =>
    have hchoice : ∀ f, candidate.choice = .function f → b.Has f := by
      intro f hf
      have hfound := Selection.found_select hselection
      rw [hf] at hfound
      exact has_of_isFunction (h.left.isFunction_eq f ▸ hfound.1)
    have hoperands : ∀ e ∈ b.children n, b.Has e := fun e he ↦ h.base.has_of_mem_children he
    dsimp only
    rw [h.left.children_eq hn, h.right.children_eq hn]
    refine replays_edit_bind fun result t hrun ↦ ?_
    cases result with
    | none =>
      obtain ⟨rfl, hrun'⟩ := declines_resultType h.toTwin hoperands hchoice t hrun
      exact .inr ⟨none, s', hrun', stays_false h⟩
    | some result => exact .inl (loud_bind fun _ ↦ reports_true)
  | notReady | noMatch | ambiguous => exact stays_false h

theorem stays_resolveNode (hn : b.Has n) :
    StaysQuiet b (resolveNode session n) (resolveNode session n) s s' := by
  refine replays_tree_bind ?_
  rw [h.left.kind_eq hn, h.right.kind_eq hn]
  split
  next id _ => exact stays_resolveName h hn id
  next kind _ => exact stays_resolveOperator hsteady h hn kind
  · exact stays_resolveSelf h hn
  · split
    next id _ => exact stays_resolveTypeName h hn id
    · exact stays_false h
  next l _ =>
    split
    · exact stays_inferLiteral h hn .tuple
    · exact stays_inferLiteral h hn .list
    · exact stays_inferLiteral h hn .optional
    · exact stays_inferLiteral h hn .result
    · exact stays_false h
  · split
    · exact stays_inferVariable h hn
    · exact stays_inferVariable h hn
    · exact stays_inferVariable h hn
    · refine (stays_bindMethod h hn).bind (loud_bind fun _ ↦ reports_true) fun s₁ s₁' h₁ ↦ ?_
      exact (stays_linkPrototype h₁ hn).bind reports_true fun s₂ s₂' h₂ ↦ stays_false h₂
    · exact stays_false h
  · exact stays_false h

/-- A resolution that binds nothing binds nothing in another padding. -/
theorem stays_resolve : StaysQuiet b (resolve session root) (resolve session root) s s' :=
  stays_sweep (fun _ _ _ h hn ↦ stays_resolveNode hsteady h hn) h

end Resolution

end ProtocolIR
