import ProtocolIR.Proofs.Compile.Coerced

/-!
# What the checks leave unresolved

The checks report an operator that is not resolved unless it waits for the type of an operand, and
leave it to the operand to explain why it has none. An operand that is itself such an operator does
so again, so at the end stands a node that is no operator and has no type. No check reports such a
node. Hence a compilation with its checks resolves everything exactly when there is none, and every
type name leads to a type.
-/

namespace ProtocolIR

open Tree List Option NodeKind Bool

/-! ## Operators that wait -/

namespace Selection

variable {t : Tree} {session : Session} {operands : List NodeId} {n : NodeId} {kind : OperatorKind}

/-- Some operand has no type that is known. -/
def Waits (t : Tree) (operands : List NodeId) : Prop :=
  ∃ (i : Nat) (e : NodeId), operands[i]? = some e ∧ isTyped t e = false

theorem waits_of_not_all (h : ¬operands.all (isTyped t) = true) : Waits t operands := by
  obtain ⟨e, he, htyped⟩ := List.all_eq_false.1 (eq_false_of_not_eq_true h)
  obtain ⟨i, hi⟩ := getElem?_of_mem he
  exact ⟨i, e, hi, eq_false_of_not_eq_true htyped⟩

theorem Waits.cons (h : Waits t operands) (e : NodeId) : Waits t (e :: operands) := by
  obtain ⟨i, o, hi, ho⟩ := h
  exact ⟨i + 1, o, hi, ho⟩

theorem pick_ne_notReady (cs : List Candidate) : pick cs ≠ .notReady := by
  unfold pick
  split <;> exact Selection.noConfusion

theorem waits_of_selectBuiltin (h : selectBuiltin t session kind operands = .notReady) :
    Waits t operands := by
  unfold selectBuiltin at h
  split at h
  · exact absurd h (pick_ne_notReady _)
  next hall => exact waits_of_not_all hall

/-- A call does not wait for the type of the name in it. -/
theorem waits_of_selectCall (h : selectCall t session n operands = .ok .notReady) :
    Waits t operands.tail := by
  unfold selectCall at h
  split at h
  · cases h
  next callee arguments =>
    split at h
    · dsimp only at h
      split at h
      · cases h
      split at h
      next hall => exact waits_of_not_all (by simpa using hall)
      · obtain ⟨cs, -, hpick⟩ := exists_of_bind_eq_ok h
        exact absurd (Except.ok.inj hpick) (pick_ne_notReady _)
    · cases h

theorem waits_of_selectMemberCall (h : selectMemberCall t session operands = .ok .notReady) :
    Waits t operands := by
  unfold selectMemberCall at h
  split at h
  next receiver member arguments =>
    split at h
    next hall =>
      cases hreceiver : isTyped t receiver with
      | false => exact ⟨0, receiver, rfl, hreceiver⟩
      | true =>
        rw [hreceiver, Bool.true_and] at hall
        exact ((waits_of_not_all (by simpa using hall)).cons member).cons receiver
    · split at h
      · obtain ⟨cs, -, hpick⟩ := exists_of_bind_eq_ok h
        exact absurd (Except.ok.inj hpick) (pick_ne_notReady _)
      · cases h
  · cases h

theorem waits_of_selectMember (h : selectMember t session operands = .ok .notReady) :
    Waits t operands := by
  unfold selectMember at h
  split at h
  next receiver member =>
    split at h
    next hreceiver => exact ⟨0, receiver, rfl, by simpa using hreceiver⟩
    · split at h
      · split at h
        · cases h
        obtain ⟨_, -, hselected⟩ := exists_of_bind_eq_ok h
        cases hselected
      · cases h
  · cases h

/-- An operator that is not ready waits for an operand, and a call for an argument. -/
theorem exists_untyped_of_select (hkind : t.kind n = .expression (.unresolved kind))
    (h : t.select session n = .ok .notReady) :
    ∃ i e, t.child n i = some e ∧ (kind = .call → i ≠ 0) ∧ isTyped t e = false := by
  unfold Tree.select at h
  rw [hkind] at h
  dsimp only at h
  split at h
  · cases h
  next operands hoperands =>
    have hchild : ∀ i, t.child n i = operands[i]? := by
      intro i
      unfold child
      rw [eq_map_some_of_mapM_id hoperands, getElem?_map]
      cases operands[i]? <;> rfl
    cases kind with
    | call =>
      obtain ⟨i, e, hi, he⟩ := waits_of_selectCall h
      rw [getElem?_tail] at hi
      exact ⟨i + 1, e, (hchild _).trans hi, fun _ ↦ Nat.succ_ne_zero i, he⟩
    | memberCall =>
      obtain ⟨i, e, hi, he⟩ := waits_of_selectMemberCall h
      exact ⟨i, e, (hchild i).trans hi, nofun, he⟩
    | member =>
      obtain ⟨i, e, hi, he⟩ := waits_of_selectMember h
      exact ⟨i, e, (hchild i).trans hi, nofun, he⟩
    | _ =>
      obtain ⟨i, e, hi, he⟩ := waits_of_selectBuiltin (Except.ok.inj h)
      exact ⟨i, e, (hchild i).trans hi, nofun, he⟩

end Selection

/-! ## Completeness -/

def NodeKind.isUnresolved : NodeKind → Bool
  | .expression (.unresolved _) => true
  | _ => false

theorem NodeKind.exists_of_isUnresolved {k : NodeKind} (h : k.isUnresolved = true) :
    ∃ kind, k = .expression (.unresolved kind) := by
  unfold isUnresolved at h
  split at h
  next kind => exact ⟨kind, rfl⟩
  · cases h

namespace Tree

variable {t t' : Tree} {n e : NodeId} {i : Nat}

def isTypeName (t : Tree) (n : NodeId) : Bool :=
  match t.shape? n with
  | some (.name ..) => true
  | _ => false

/-- Whether a node is the name of the function in a call. -/
def isCalleeName (t : Tree) (n : NodeId) : Bool :=
  match t.kind n, (t.parent n).map t.kind with
  | .expression (.name ..), some (.expression (.unresolved .call)) => t.slotIndex n == some 0
  | .expression (.name ..), some (.expression (.resolved .call _)) => t.slotIndex n == some 1
  | _, _ => false

/-- Beneath the root every operator is resolved, every expression has a type that is known, every
name is bound, and every type name leads to a type. The name of the function in a call has no type. -/
structure Complete (t : Tree) : Prop where
  resolved : ∀ n kind, t.isAttached n → t.kind n ≠ .expression (.unresolved kind)
  typed : ∀ n, t.isAttached n → (t.kind n).isExpression → t.isCalleeName n = false →
    Selection.isTyped t n
  bound : ∀ n id, t.isAttached n → t.kind n ≠ .expression (.name id none)
  boundType : ∀ n id, t.isAttached n → t.shape? n ≠ some (.name id none)
  followed : ∀ n, t.isAttached n → t.isTypeName n → ∃ u, t.follow n = some u ∧ t.isTypeName u = false

/-- Whether only a node itself can explain that its type is not known: an expression or an operand
that is neither an operator to be resolved nor the name of the function in a call. -/
def standsAlone (t : Tree) (n : NodeId) : Bool :=
  match t.kind n with
  | .expression (.unresolved _) => false
  | .expression _ => !t.isCalleeName n
  | _ => (t.parent n).any fun p ↦ t.isAttached p && (t.kind p).isUnresolved

/-- What the checks find about operators and names if they report nothing. -/
structure Checked (t : Tree) : Prop where
  waits : ∀ {n kind}, t.Within root n → t.kind n = .expression (.unresolved kind) →
    ∃ i e, t.child n i = some e ∧ (kind = .call → i ≠ 0) ∧ Selection.isTyped t e = false
  callee : ∀ {n id}, t.Within root n → t.kind n = .expression (.name id none) → t.isCallee n
  boundType : ∀ {n id}, t.Within root n → t.shape? n ≠ some (.name id none)

theorem has_of_isAttached (hroot : t.Has root) (h : t.isAttached n) : t.Has n := by
  rcases or_eq_true_iff.1 h with h | h
  · rw [beq_iff_eq.1 h]
    exact hroot
  · cases hp : t.parent n with
    | none =>
      unfold ancestors at h
      rw [hp] at h
      simp [chain] at h
    | some p => exact has_of_parent hp

theorem not_isTypeName_of_follow {u : NodeId} (h : t.follow n = some u) : t.isTypeName u = false := by
  obtain ⟨v, -, h⟩ := bind_eq_some_iff.1 h
  obtain ⟨shape, hf⟩ := followsTo_of_followWithin h
  obtain ⟨hshape, hcategory⟩ := hf.shape
  unfold isTypeName
  split
  next hname =>
    rw [hname] at hshape
    cases hshape
    exact absurd rfl hcategory
  · rfl

/-- What an operator waits for is an operator that waits, or stands alone. -/
theorem standsAlone_of_operand (ht : t.Linked) {kind : OperatorKind} (hn : t.isAttached n)
    (hkind : t.kind n = .expression (.unresolved kind)) (he : t.child n i = some e)
    (hi : kind = .call → i ≠ 0) (hne : ∀ kind, t.kind e ≠ .expression (.unresolved kind)) :
    t.standsAlone e = true := by
  have hp : t.parent e = some n := ht.parent_of_child he
  have hcallee : t.isCalleeName e = false := by
    unfold isCalleeName
    rw [hp, map_some, hkind]
    split
    next hcall =>
      cases hcall
      rw [beq_eq_false_iff_ne]
      intro hindex
      exact hi rfl (ht.index_unique he (child_of_slotIndex hp hindex))
    next hresolved => cases hresolved
    · rfl
  unfold standsAlone
  split
  next kind' h => exact absurd h (hne kind')
  · rw [hcallee]; rfl
  · rw [hp, any_some, hn, hkind]; rfl

/-- If whatever stands alone has a type, no operator waits: else one furthest down would wait for
something that stands alone. -/
theorem Checked.resolved (h : t.Checked) (ht : t.Rooted)
    (halone : ∀ n, t.isAttached n → t.standsAlone n → Selection.isTyped t n) (hn : t.Within root n)
    (kind : OperatorKind) : t.kind n ≠ .expression (.unresolved kind) := by
  generalize hroom : t.size - (t.ancestors n).length = room
  induction room using Nat.strong_induction_on generalizing n kind with
  | h room ih =>
    intro hkind
    obtain ⟨i, e, he, hi, htyped⟩ := h.waits hn hkind
    have hheld := mem_slots_of_child he
    have hwithin : t.Within root e := .beneath (ht.parent_of_child he) hn
    have hdepth := ht.length_ancestors_child hheld
    have hlt := ht.length_ancestors_lt (hwithin.has ht.has_root)
    have hne : ∀ kind, t.kind e ≠ .expression (.unresolved kind) :=
      fun kind' ↦ ih (t.size - (t.ancestors e).length) (by omega) hwithin kind' rfl
    have hstands := standsAlone_of_operand ht.toLinked (ht.isWithin_iff.2 hn) hkind he hi hne
    have halone := halone e (ht.isWithin_iff.2 hwithin) hstands
    rw [htyped] at halone
    cases halone

/-- Findings make no difference. -/
theorem Checked.annotate (h : t.Checked) (ht : t.Rooted) (ha : Annotated t t') : t'.Checked := by
  have hpadded := (Padded.refl ht).annotate ha
  have hwithin : ∀ {n}, t'.Within root n → t.Within root n := (hpadded.within_iff (ha.rooted ht)).1
  refine ⟨fun {n kind} hn hkind ↦ ?_, fun {n id} hn hkind ↦ ?_, fun {n id} hn hshape ↦ ?_⟩
  · have hhas := (hwithin hn).has ht.has_root
    rw [ha.kind_eq] at hkind
    obtain ⟨i, e, he, hi, htyped⟩ := h.waits (hwithin hn) hkind
    refine ⟨i, e, (hpadded.child_eq hhas i).trans he, hi, ?_⟩
    rw [Selection.isTyped_eq hpadded (ht.has_of_child he)]
    exact htyped
  · rw [ha.kind_eq] at hkind
    rw [hpadded.isCallee_eq ((hwithin hn).has ht.has_root)]
    exact h.callee (hwithin hn) hkind
  · rw [hpadded.shape?_eq ((hwithin hn).has ht.has_root)] at hshape
    exact h.boundType (hwithin hn) hshape

theorem Checked.complete_iff (h : t.Checked) (ht : t.Rooted) :
    t.Complete ↔ ∀ n, t.isAttached n →
      (t.standsAlone n → Selection.isTyped t n) ∧ (t.isTypeName n → (t.follow n).isSome) := by
  constructor
  · intro hcomplete n hn
    refine ⟨fun halone ↦ ?_, fun hname ↦ ?_⟩
    · unfold standsAlone at halone
      split at halone
      · cases halone
      next e hne hkind =>
        refine hcomplete.typed n hn (by rw [hkind]; rfl) ?_
        simpa using halone
      · cases hp : t.parent n with
        | none => rw [hp] at halone; cases halone
        | some p =>
          rw [hp, any_some, and_eq_true_iff] at halone
          obtain ⟨kind, hkind⟩ := exists_of_isUnresolved halone.2
          exact absurd hkind (hcomplete.resolved p kind halone.1)
    · obtain ⟨u, hu, -⟩ := hcomplete.followed n hn hname
      rw [hu]
      rfl
  · intro hall
    have hresolved : ∀ n kind, t.isAttached n → t.kind n ≠ .expression (.unresolved kind) :=
      fun n kind hn ↦ h.resolved ht (fun n hn ↦ (hall n hn).1) (ht.isWithin_iff.1 hn) kind
    refine ⟨hresolved, fun n hn hexpression hcallee ↦ ?_, fun n id hn hkind ↦ ?_,
      fun n id hn ↦ h.boundType (ht.isWithin_iff.1 hn), fun n hn hname ↦ ?_⟩
    · refine (hall n hn).1 ?_
      unfold standsAlone
      split
      next kind hkind => exact absurd hkind (hresolved n kind hn)
      · rw [hcallee]; rfl
      next hnot =>
        unfold isExpression at hexpression
        split at hexpression
        next e hkind => exact absurd hkind (hnot e)
        · cases hexpression
    · have hwithin := ht.isWithin_iff.1 hn
      obtain ⟨hcall, -⟩ := and_eq_true_iff.1 (h.callee hwithin hkind)
      cases hwithin with
      | here => rw [ht.kind_root] at hkind; cases hkind
      | @beneath _ p hp hwithin =>
        rw [hp, map_some, beq_iff_eq, some.injEq] at hcall
        exact hresolved p .call (ht.isWithin_iff.2 hwithin) hcall
    · obtain ⟨u, hu⟩ := isSome_iff_exists.1 ((hall n hn).2 hname)
      exact ⟨u, hu, not_isTypeName_of_follow hu⟩

end Tree

namespace Validation

variable {t t' : Tree} {session : Session}

theorem notReady_of_checkUnresolved {n : NodeId} {kind : OperatorKind}
    (h : checkUnresolved t session n kind = .ok []) : t.select session n = .ok .notReady := by
  obtain ⟨selection, hselect, h⟩ := exists_of_bind_eq_ok h
  obtain ⟨text, -, h⟩ := exists_of_bind_eq_ok h
  obtain ⟨message, hmessage, h⟩ := exists_of_bind_eq_ok h
  have hnone : message = none := by
    cases message with
    | none => rfl
    | some message => cases h
  subst hnone
  cases selection with
  | notReady => exact hselect
  | selected | ambiguous => cases hmessage
  | noMatch =>
    dsimp only [unresolvedMessage] at hmessage
    split at hmessage
    · split at hmessage
      · cases hmessage
      obtain ⟨_, -, hmessage⟩ := exists_of_bind_eq_ok hmessage
      cases hmessage
    · cases hmessage

theorem checked_of_validatePost (ht : t.Rooted) (h : validatePost t session root = .ok t')
    (hnone : Compilation.errorsBeneath t' root = []) : t.Checked where
  waits {n kind} hn hkind := by
    have hpost := postErrors_of_validatePost ht h hnone hn
    unfold postErrors at hpost
    rw [hkind] at hpost
    exact Selection.exists_untyped_of_select hkind (notReady_of_checkUnresolved hpost)
  callee {n id} hn hkind := by
    have hpost := postErrors_of_validatePost ht h hnone hn
    unfold postErrors at hpost
    rw [hkind] at hpost
    have hname : checkName t n id = [] := Except.ok.inj hpost
    unfold checkName at hname
    split at hname
    next hcallee => exact hcallee
    · split at hname
      · cases hname
      · cases hname
  boundType {n id} hn hshape := by
    have hpost := postErrors_of_validatePost ht h hnone hn
    unfold shape? typeData? at hshape
    split at hshape
    next data hkind =>
      unfold postErrors at hpost
      rw [hkind] at hpost
      dsimp only at hpost
      rw [some.inj hshape] at hpost
      cases hpost
    · cases hshape

end Validation

namespace Compiler

/-- A compilation with its checks resolves everything exactly when each node that stands alone has
a type that is known and each type name leads to a type. -/
theorem complete_iff_of_compile (options : Options) (w : Workspace) (outcome : Outcome) (c' : Compiler)
    (ht : w.tree.Rooted) (hchecks : options.skipValidation = false)
    (hcompile : compile { standard options with workspace := w } = .ok (.ok outcome, c')) :
    c'.workspace.tree.Complete ↔ ∀ n, c'.workspace.tree.isAttached n →
      (c'.workspace.tree.standsAlone n → Selection.isTyped c'.workspace.tree n) ∧
        (c'.workspace.tree.isTypeName n → (c'.workspace.tree.follow n).isSome) := by
  obtain ⟨t₀, t, t', ht₀, hgrammars, hpost, hnone, hlast, -⟩ := trees_of_compile ht hchecks hcompile
  have ht := hgrammars.rooted ht₀
  have hchecked := (Validation.checked_of_validatePost ht hpost hnone).annotate ht hlast
  exact hchecked.complete_iff (hlast.rooted ht)

/-- The call with its argument narrowed is resolved completely. -/
theorem complete_iff_of_compile_narrowedArgument :
    ∃ (outcome : Outcome) (c' : Compiler), narrowedArgument.Rooted ∧
      compile { standard {} with workspace := ⟨narrowedArgument, #[]⟩ } = .ok (.ok outcome, c') ∧
      c'.workspace.tree.standsAlone ⟨25⟩ ∧ Selection.isTyped c'.workspace.tree ⟨25⟩ ∧
      c'.workspace.tree.Complete := by
  have hrooted : narrowedArgument.Rooted := by decide +kernel
  obtain ⟨outcome, c', hcompile, -, hview⟩ := exists_outcome
    (c := { standard {} with workspace := ⟨narrowedArgument, #[]⟩ })
    (fun t ↦ (decide (t.Has root), t.standsAlone ⟨25⟩, Selection.isTyped t ⟨25⟩,
      decide (∀ i < t.size, t.isAttached ⟨i⟩ → (t.standsAlone ⟨i⟩ → Selection.isTyped t ⟨i⟩) ∧
        (t.isTypeName ⟨i⟩ → (t.follow ⟨i⟩).isSome))))
    (true, true, true, true) true (by decide +kernel)
  simp only [Prod.mk.injEq, decide_eq_true_iff] at hview
  obtain ⟨hroot, halone, htyped, hall⟩ := hview
  refine ⟨outcome, c', hrooted, hcompile, halone, htyped, ?_⟩
  refine (complete_iff_of_compile {} ⟨narrowedArgument, #[]⟩ outcome c' hrooted rfl hcompile).2 ?_
  exact fun n hn ↦ hall n.index (has_of_isAttached hroot hn) hn

/-- The variable `x: int<64> = $$ + 1` outside of every unit, where there is no value just parsed. -/
def unexplainedSum : Tree := .ofRows [
  (.root, [10]),
  (.shaped (.signed 64), []),
  (.place, [1]),
  (.expression (.keyword .current), [0]),
  (.shaped (.signed 64), []),
  (.value .const, [4]),
  (.literal (.signed 1 64), [5]),
  (.expression .literal, [6]),
  (.expression (.unresolved .sum), [3, 7]),
  (.declares "x" .globalVariable, [2, 8]),
  (.declares "m" .module .external, [9])]

/-- It compiles, and the sum is left as it was. -/
theorem not_complete_unexplainedSum :
    ∃ (outcome : Outcome) (c' : Compiler), unexplainedSum.Rooted ∧
      compile { standard {} with workspace := ⟨unexplainedSum, #[]⟩ } = .ok (.ok outcome, c') ∧
      outcome.reachedFixedPoint = true ∧ ¬c'.workspace.tree.Complete := by
  have hrooted : unexplainedSum.Rooted := by decide +kernel
  obtain ⟨outcome, c', hcompile, hfixed, hview⟩ := exists_outcome
    (c := { standard {} with workspace := ⟨unexplainedSum, #[]⟩ })
    (fun t ↦ (t.isAttached ⟨8⟩, t.kind ⟨8⟩)) (true, .expression (.unresolved .sum)) true (by decide +kernel)
  obtain ⟨hn, hkind⟩ := Prod.mk.inj hview
  exact ⟨outcome, c', hrooted, hcompile, hfixed, fun h ↦ h.resolved ⟨8⟩ .sum hn hkind⟩

end Compiler

end ProtocolIR
