import ProtocolIR.Proofs.Padding.Coercion
import ProtocolIR.Proofs.Padding.Scopes

/-!
# Choosing operators in a padded tree

The candidates for an operator of the base, their costs and so the choice are the same in every
padding of the base. The description of a candidate is a text, which is the same where the padding is
large enough for it to be written out, so a choice is only known to be made again in a padding that is
at least as large.
-/

namespace ProtocolIR

open Tree Coercion List Option

/-! ## Texts -/

namespace Tree

namespace Inset

variable {b s : Tree} {n : NodeId}

variable (h : Inset b s) (r : Writer) (hn : b.Has n)

include h hn

theorem writeType_eq : writeType s r n = writeType b r n := by
  have hread : ((s.unqualified n).bind fun u ↦ (s.typeData? u).map fun data ↦ (u, data)) =
      (b.unqualified n).bind fun u ↦ (b.typeData? u).map fun data ↦ (u, data) := by
    rw [h.unqualified_eq hn]
    exact bind_congr fun u hu ↦ by rw [h.typeData?_eq (h.base.has_of_unqualified hu)]
  have himplicit : s.isImplicitLabel = b.isImplicitLabel := by
    funext c
    unfold isImplicitLabel
    rw [h.declaration?_eq]
  unfold writeType
  rw [hread]
  cases hu : (b.unqualified n).bind fun u ↦ (b.typeData? u).map fun data ↦ (u, data) with
  | none => rfl
  | some p =>
    obtain ⟨m, hm, hp⟩ := bind_eq_some_iff.1 hu
    obtain ⟨data, -, rfl⟩ := map_eq_some_iff.1 hp
    have hm := h.base.has_of_unqualified hm
    simp only [writeSlot, h.child_eq hm, h.elementType_eq hm, h.children_eq hm, h.childrenFrom_eq hm,
      himplicit]

theorem writeDeclaration_eq (d : Declaration) : writeDeclaration s r n d = writeDeclaration b r n d := by
  unfold writeDeclaration
  rw [h.function_eq hn]
  cases hf : (b.child n 0).bind b.unqualified with
  | none => simp only [writeSlot, h.child_eq hn]
  | some f =>
    obtain ⟨c, -, hf⟩ := bind_eq_some_iff.1 hf
    have hf := h.base.has_of_unqualified hf
    simp only [writeSlot, h.child_eq hn, h.child_eq hf, h.childrenFrom_eq hf]

theorem writeExpression_eq (e : Expression) : writeExpression s r n e = writeExpression b r n e := by
  have helement : (b.child n 0).bind s.elementType = (b.child n 0).bind b.elementType :=
    bind_congr fun c hc ↦ h.elementType_eq (h.base.has_of_child hc)
  unfold writeExpression writeOperator writeSlot
  simp only [h.slots_eq hn, h.child_eq hn, helement]

theorem writeNode_eq : writeNode s r n = writeNode b r n := by
  unfold writeNode
  simp only [h.kind_eq hn, h.writeType_eq r hn, h.writeDeclaration_eq r hn, h.writeExpression_eq r hn,
    writeLiteral, writeStatement, writeItem, writeSlot, tail, h.child_eq hn, h.slots_eq hn,
    h.children_eq hn]

end Inset

namespace Twin

variable {b s s' : Tree} {n : NodeId} {r r' : Writer}

variable (h : Twin b s s')

include h

/-- What is written as a part of others is in the base. -/
theorem compares_below (hr : ∀ m, b.Has m → Below (r m) (r' m)) :
    Compares (fun x y ↦ Below x y) b r r' where
  ok _ := .refl _
  outOfRange := .refl _
  bind := Below.bind
  held hc := hr _ (h.base.has_of_held hc)
  element hc := hr _ (h.base.has_of_elementType hc)

theorem shortWithin_below {fuel fuel' : Nat} (hfuel : fuel ≤ fuel') (hn : b.Has n) :
    Below (s.shortWithin fuel n) (s'.shortWithin fuel' n) := by
  induction fuel generalizing fuel' n with
  | zero => exact .of_error _ _
  | succ fuel ih =>
    obtain ⟨fuel', rfl⟩ : ∃ k, fuel' = k + 1 := ⟨fuel' - 1, by omega⟩
    unfold shortWithin
    rw [h.left.writeNode_eq _ hn, h.right.writeNode_eq _ hn]
    exact (h.compares_below fun m hm ↦ ih (by omega) hm).writeNode n

theorem short_below (hsize : s.size ≤ s'.size) (hn : b.Has n) : Below (s.short n) (s'.short n) :=
  h.shortWithin_below (Nat.succ_le_succ hsize) hn

theorem typeText_below (hsize : s.size ≤ s'.size) (hn : b.Has n) :
    Below (s.typeText n) (s'.typeText n) := by
  unfold typeText
  rw [h.left.writeType_eq _ hn, h.right.writeType_eq _ hn]
  exact (h.compares_below fun _ hm ↦ h.short_below hsize hm).writeType n

end Twin

end Tree

/-! ## Candidates -/

namespace Selection

variable {b s s' t : Tree} {n e u f : NodeId} {session : Session} {operands arguments : List NodeId}

theorem typeBreadth_eq (h : Padded b s) (hn : b.Has n) : typeBreadth s n = typeBreadth b n := by
  unfold typeBreadth
  rw [h.followedShape_eq hn]

theorem isTyped_eq (h : Padded b s) (he : b.Has e) : isTyped s e = isTyped b e := by
  unfold isTyped
  rw [h.expressionType_eq he]
  cases htype : b.expressionType e with
  | none => rfl
  | some type => exact h.isResolved_eq (h.base.has_of_expressionType htype)

theorem all_isTyped_eq (h : Padded b s) (hoperands : ∀ e ∈ operands, b.Has e) :
    operands.all (isTyped s) = operands.all (isTyped b) :=
  all_congr_of_mem fun e he ↦ isTyped_eq h (hoperands e he)

/-- What an expression's type stands for. -/
theorem followedType_eq (h : Padded b s) (he : b.Has e) :
    (s.expressionType e).bind s.follow = (b.expressionType e).bind b.follow := by
  rw [h.expressionType_eq he]
  exact bind_congr fun type htype ↦ h.follow_eq (h.base.has_of_expressionType htype)

theorem has_of_followedType (h : b.Linked) (hu : (b.expressionType e).bind b.follow = some u) :
    b.Has u := by
  obtain ⟨type, -, hu⟩ := bind_eq_some_iff.1 hu
  exact h.has_of_follow hu

theorem receiverType_eq (h : Padded b s) (he : b.Has e) : receiverType s e = receiverType b e := by
  unfold receiverType
  simp only [bind_eq_bind, ← bind_assoc, followedType_eq h he]
  refine bind_congr fun u hu ↦ ?_
  have hu := has_of_followedType h.base hu
  rw [h.shape?_eq hu, h.child_eq hu]
  refine bind_congr fun shape _ ↦ ?_
  split
  · exact bind_congr fun c hc ↦ h.follow_eq (h.base.has_of_child hc)
  · rfl

theorem has_of_receiverType (h : b.Linked) (hu : receiverType b e = some u) : b.Has u := by
  unfold receiverType at hu
  simp only [bind_eq_bind, ← bind_assoc] at hu
  obtain ⟨v, hv, hu⟩ := bind_eq_some_iff.1 hu
  obtain ⟨shape, -, hu⟩ := bind_eq_some_iff.1 hu
  split at hu
  · obtain ⟨c, -, hu⟩ := bind_eq_some_iff.1 hu
    exact h.has_of_follow hu
  · cases hu
    exact has_of_followedType h hv

/-- What is computed from a coercion, if there is one. -/
theorem cost_congr {α : Type} (f : Coercion → α) {x y : Except NoMatch Coercion} :
    x.toOption = y.toOption →
      (match x with
        | .ok coercion => some (f coercion)
        | .error _ => none) =
        match y with
        | .ok coercion => some (f coercion)
        | .error _ => none := by
  intro h
  cases x with
  | ok c =>
    cases y with
    | ok d => cases h; rfl
    | error => cases h
  | error =>
    cases y with
    | ok d => cases h
    | error => rfl

section

variable (hsteady : Steady session.conversions) (h : Padded b s)

include hsteady h

theorem matchOperand_eq (hoperands : ∀ e ∈ operands, b.Has e) (he : b.Has e) (i : Nat)
    (pattern : OperandPattern) :
    matchOperand s session operands e i pattern = matchOperand b session operands e i pattern := by
  cases pattern with
  | any => rfl
  | memberNamed id =>
    unfold matchOperand
    rw [h.kind_eq he]
  | ofCategory category =>
    simp only [matchOperand, receiverType_eq h he, followedType_eq h he]
    split
    · refine bind_congr fun u hu ↦ ?_
      rw [h.shape?_eq (has_of_receiverType h.base hu)]
    · refine bind_congr fun u hu ↦ ?_
      rw [h.shape?_eq (has_of_followedType h.base hu)]
  | anyInteger =>
    unfold matchOperand
    rw [h.expressionType_eq he]
    refine bind_congr fun type htype ↦ ?_
    rw [h.followedShape_eq (h.base.has_of_expressionType htype)]
  | sameAs j =>
    unfold matchOperand
    refine bind_congr fun operand hoperand ↦ ?_
    have hoperand := hoperands operand (mem_of_getElem? hoperand)
    rw [h.expressionType_eq hoperand]
    refine bind_congr fun dst hdst ↦ ?_
    exact cost_congr cost (coerceExpression_eq hsteady h.toInset he (h.base.has_of_expressionType hdst))

theorem matchBuiltin_eq (hoperands : ∀ e ∈ operands, b.Has e) (op : Operator) :
    matchBuiltin s session operands op = matchBuiltin b session operands op := by
  unfold matchBuiltin
  apply Option.bind_congr
  intro _ _
  congr 1
  apply mapM_congr_of_mem
  intro entry hentry
  have hmem := (of_mem_zip (fst_mem_of_mem_zipIdx hentry)).2
  exact matchOperand_eq hsteady h hoperands (hoperands _ hmem) _ _

theorem builtinCandidates_eq (hoperands : ∀ e ∈ operands, b.Has e) (kind : OperatorKind) :
    builtinCandidates s session kind operands = builtinCandidates b session kind operands :=
  filterMap_congr fun op _ ↦ matchBuiltin_eq hsteady h hoperands op

theorem matchArguments_eq {parameters : List NodeId} (hparameters : ∀ p ∈ parameters, b.Has p)
    (harguments : ∀ e ∈ arguments, b.Has e) :
    matchArguments s session parameters arguments = matchArguments b session parameters arguments := by
  have hdefaults : ((parameters.drop arguments.length).all fun p ↦ (s.child p 1).isSome) =
      (parameters.drop arguments.length).all fun p ↦ (b.child p 1).isSome :=
    all_congr_of_mem fun p hp ↦ by rw [h.child_eq (hparameters p (mem_of_mem_drop hp))]
  unfold matchArguments
  rw [hdefaults]
  refine bind_congr fun _ _ ↦ bind_congr fun _ _ ↦ ?_
  congr 1
  refine mapM_congr_of_mem fun entry hentry ↦ ?_
  obtain ⟨he, hp⟩ := of_mem_zip hentry
  simp only [h.child_eq (hparameters _ hp)]
  refine bind_congr fun type htype ↦ ?_
  have htype := h.base.has_of_child htype
  rw [typeBreadth_eq h htype]
  exact cost_congr (fun coercion ↦ (coercion.cost, typeBreadth b type))
    (coerceExpression_eq hsteady h.toInset (harguments _ he) htype)

end

theorem functionsOf_eq (h : Padded b s) (declarations : List NodeId) :
    functionsOf s declarations = functionsOf b declarations := by
  have hprototype : prototypeOf s = prototypeOf b := by
    funext f
    unfold prototypeOf
    rw [h.declaration?_eq]
  unfold functionsOf
  simp only [h.isFunction_eq, hprototype]

theorem isFunction_of_mem_functionsOf {declarations : List NodeId}
    (hf : f ∈ functionsOf t declarations) : (t.kind f).isFunction :=
  (mem_filter.1 (mem_filter.1 hf).1).2

theorem selectBuiltin_eq (hsteady : Steady session.conversions) (h : Padded b s)
    (hoperands : ∀ e ∈ operands, b.Has e) (kind : OperatorKind) :
    selectBuiltin s session kind operands = selectBuiltin b session kind operands := by
  unfold selectBuiltin
  rw [all_isTyped_eq h hoperands, builtinCandidates_eq hsteady h hoperands]

theorem membersNamed_eq (h : Padded b s) : membersNamed s = membersNamed b := by
  funext type id
  unfold membersNamed
  simp only [h.scopeOf_eq, h.scope_eq]

theorem memberField_eq (h : Padded b s) (hn : b.Has n) (id : String) :
    memberField s session n id = memberField b session n id := by
  unfold memberField
  simp only [h.shape?_eq hn, membersNamed_eq h, h.declarationType_eq, h.isFunction_eq]

section

variable (h : Later b s s')

include h

theorem selectMember_below (hoperands : ∀ e ∈ operands, b.Has e) :
    Below (selectMember s session operands) (selectMember s' session operands) := by
  match operands, hoperands with
  | [], _ => exact .refl _
  | [_], _ => exact .refl _
  | _ :: _ :: _ :: _, _ => exact .refl _
  | [receiver, member], hoperands =>
    have hreceiver := hoperands receiver mem_cons_self
    have hmember := hoperands member (mem_cons_of_mem _ mem_cons_self)
    unfold selectMember
    simp only [isTyped_eq h.left hreceiver, isTyped_eq h.right hreceiver, h.left.kind_eq hmember,
      h.right.kind_eq hmember, receiverType_eq h.left hreceiver, receiverType_eq h.right hreceiver]
    split
    · exact .refl _
    split
    next htype =>
      have htype := has_of_receiverType h.base htype
      simp only [memberField_eq h.left htype, memberField_eq h.right htype]
      split
      · exact .refl _
      · exact (h.toTwin.typeText_below h.size_le htype).bind fun _ ↦ .refl _
    · exact .refl _

variable (hsteady : Steady session.conversions)

include hsteady

theorem functionCandidates_below (harguments : ∀ e ∈ arguments, b.Has e)
    (declarations : List NodeId) :
    Below (functionCandidates s session declarations arguments)
      (functionCandidates s' session declarations arguments) := by
  unfold functionCandidates
  rw [functionsOf_eq h.left, functionsOf_eq h.right]
  refine (Below.mapM fun f hf ↦ ?_).bind fun _ ↦ .refl _
  have hf := has_of_isFunction (isFunction_of_mem_functionsOf hf)
  have hmatch : ∀ {t : Tree}, Padded b t → matchArguments t session (t.parameters f) arguments =
      matchArguments b session (b.parameters f) arguments := by
    intro t ht
    rw [ht.parameters_eq]
    exact matchArguments_eq hsteady ht (fun p hp ↦ ht.base.has_of_mem_parameters hp) harguments
  unfold matchFunction
  rw [hmatch h.left, hmatch h.right]
  cases matchArguments b session (b.parameters f) arguments with
  | none => exact .refl _
  | some fit => exact (h.toTwin.short_below h.size_le hf).bind fun _ ↦ .refl _

theorem selectCall_below (hn : b.Has n) (hoperands : ∀ e ∈ operands, b.Has e) :
    Below (selectCall s session n operands) (selectCall s' session n operands) := by
  cases operands with
  | nil => exact .refl _
  | cons callee arguments =>
    have harguments : ∀ e ∈ arguments, b.Has e := fun e he ↦ hoperands e (mem_cons_of_mem _ he)
    have hcallee := hoperands callee mem_cons_self
    unfold selectCall
    simp only [h.left.kind_eq hcallee, h.right.kind_eq hcallee, h.left.lookup_eq hn, h.right.lookup_eq hn,
      h.left.isFunction_eq, h.right.isFunction_eq, all_isTyped_eq h.left harguments,
      all_isTyped_eq h.right harguments]
    split
    · split
      · exact .refl _
      split
      · exact .refl _
      · exact (functionCandidates_below h hsteady harguments _).bind fun _ ↦ .refl _
    · exact .refl _

theorem selectMemberCall_below (hoperands : ∀ e ∈ operands, b.Has e) :
    Below (selectMemberCall s session operands) (selectMemberCall s' session operands) := by
  match operands, hoperands with
  | [], _ => exact .refl _
  | [_], _ => exact .refl _
  | receiver :: member :: arguments, hoperands =>
    have hreceiver := hoperands receiver mem_cons_self
    have hmember := hoperands member (mem_cons_of_mem _ mem_cons_self)
    have harguments : ∀ e ∈ arguments, b.Has e :=
      fun e he ↦ hoperands e (mem_cons_of_mem _ (mem_cons_of_mem _ he))
    unfold selectMemberCall
    simp only [isTyped_eq h.left hreceiver, isTyped_eq h.right hreceiver,
      all_isTyped_eq h.left harguments, all_isTyped_eq h.right harguments, h.left.kind_eq hmember,
      h.right.kind_eq hmember, receiverType_eq h.left hreceiver, receiverType_eq h.right hreceiver,
      membersNamed_eq h.left, membersNamed_eq h.right, builtinCandidates_eq hsteady h.left hoperands,
      builtinCandidates_eq hsteady h.right hoperands]
    split
    · exact .refl _
    split
    · exact (functionCandidates_below h hsteady harguments _).bind fun _ ↦ .refl _
    · exact .refl _

end

end Selection

theorem eq_map_some_of_mapM_id {slots : List (Option NodeId)} {operands : List NodeId}
    (h : slots.mapM id = some operands) : slots = operands.map some := by
  induction slots generalizing operands with
  | nil =>
    cases h
    rfl
  | cons slot rest ih =>
    rw [mapM_cons] at h
    obtain ⟨first, hfirst, h⟩ := bind_eq_some_iff.1 h
    obtain ⟨others, hothers, h⟩ := bind_eq_some_iff.1 h
    cases h
    rw [map_cons, ← ih hothers]
    exact congrArg (· :: rest) hfirst

theorem mapM_id_map_some (operands : List NodeId) :
    (operands.map some).mapM id = some operands := by
  induction operands with
  | nil => rfl
  | cons e rest ih =>
    rw [map_cons, mapM_cons, ih]
    rfl

/-- What an operator of the base stands for in one padding, it stands for in a larger one. -/
theorem Tree.Later.select_below {b s s' : Tree} {session : Session} {n : NodeId}
    (hsteady : Steady session.conversions) (h : Later b s s') (hn : b.Has n) :
    Below (s.select session n) (s'.select session n) := by
  unfold Tree.select
  rw [h.left.kind_eq hn, h.right.kind_eq hn, h.left.slots_eq hn, h.right.slots_eq hn]
  split
  next kind _ =>
    cases hoperands : (b.slots n).mapM id with
    | none => exact .refl _
    | some operands =>
      have hoperands : ∀ e ∈ operands, b.Has e :=
        fun e he ↦ h.base.has_of_held (by
          rw [eq_map_some_of_mapM_id hoperands]
          exact List.mem_map_of_mem he)
      cases kind with
      | call => exact Selection.selectCall_below h hsteady hn hoperands
      | memberCall => exact Selection.selectMemberCall_below h hsteady hoperands
      | member => exact Selection.selectMember_below h hoperands
      | _ =>
        simp only [Selection.selectBuiltin_eq hsteady h.left hoperands,
          Selection.selectBuiltin_eq hsteady h.right hoperands]
        exact .refl _
  · exact .refl _

end ProtocolIR
