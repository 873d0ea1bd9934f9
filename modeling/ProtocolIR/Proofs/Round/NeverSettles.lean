import ProtocolIR.Proofs.Compile.Coerced
import ProtocolIR.Proofs.Round.SelfReference
import ProtocolIR.Proofs.Scope.CanonicalIds

/-!
# A program that never settles

The names of the program are bound in the first round. From then on every pass but the coercion
sweep leaves the tree alone, and the sweep makes the value of the variable anew. So every round
returns and reports a change.
-/

namespace ProtocolIR

open Tree List

namespace SelfReference

namespace Recurs

variable {w : Workspace} {place : Part → NodeId} {session : Session} {n : NodeId}

theorem exists_part_of_isWithin (h : Recurs w.tree place) (hn : w.tree.isWithin n root) :
    ∃ p, place p = n := h.exists_part (h.rooted.isWithin_iff.1 hn)

theorem sameNodes {t t' : Tree} (h : Recurs t place) (hsame : SameNodes t t') : Recurs t' place where
  rooted := hsame.rooted h.rooted
  place_top := h.place_top
  kind_eq p := (hsame.kind_eq _).trans (h.kind_eq p)
  slots_eq p := (hsame.sameLinks.slots _).trans (h.slots_eq p)

/-! ## Passes that find nothing to do -/

section

variable (h : Recurs w.tree place)

include h

/-- All declarations have their canonical IDs, and the type of `T` is not compound. -/
theorem identified (p : Part) : w.tree.Identified (place p) := by
  refine ⟨fun d hd ↦ ?_, ?_⟩
  · rw [h.kind_eq] at hd
    cases p <;> cases hd <;> nofun
  · unfold typeToStamp
    cases p with
    | declaration => rw [h.declaredType_eq, Option.filter_some, h.typeData?_reference]; rfl
    | _ =>
      unfold declaredType
      rw [h.kind_eq]
      rfl

theorem assign_eq : CanonicalId.assign root w = .ok (false, w) := by
  refine CanonicalId.assign_of_identified fun n hn ↦ ?_
  obtain ⟨p, rfl⟩ : ∃ p, place p = n :=
    of_mem_ordered (fun hm hc ↦ h.exists_part_of_held hm hc) ⟨.top, h.place_top⟩ .pre hn
  exact h.identified p

theorem resolveNode_eq (p : Part) :
    Resolution.resolveNode session (place p) w = .ok (false, w) := by
  unfold Resolution.resolveNode
  refine Pass.tree_bind.trans ?_
  rw [h.kind_eq]
  cases p with
  | x =>
    have htype : (w.tree.child (place .x) 0).filter w.tree.isAuto = none := by
      rw [h.child_eq]
      unfold isAuto shape?
      simp [Part.parts, h.unqualified_mention (.inr (.inl rfl)), h.typeData?_mention (.inr (.inl rfl))]
    show Resolution.inferVariable (place .x) w = _
    refine Pass.tree_bind.trans ?_
    rw [htype]
    rfl
  | _ => rfl

/-- No type can be written. -/
theorem unifyNode_eq (p : Part) : Unification.unifyNode (place p) w = .ok (false, w) := by
  have hsame : w.tree.unifyType (place p) = (false, w.tree) := by
    unfold unifyType
    cases p with
    | reference => rw [h.typeData?_reference, h.serialize_reference]
    | inner => rw [h.typeData?_mention (.inl rfl), h.serialize_mention (.inl rfl)]
    | type => rw [h.typeData?_mention (.inr (.inl rfl)), h.serialize_mention (.inr (.inl rfl))]
    | valueName => rw [h.typeData?_mention (.inr (.inr rfl)), h.serialize_mention (.inr (.inr rfl))]
    | _ =>
      unfold typeData?
      rw [h.kind_eq]
      rfl
  have hunify : Surgery.unifyType (place p) w.tree = .ok (false, w.tree) := congrArg Except.ok hsame
  exact (bind_of_ok (edit_of_ok hunify)).trans rfl

theorem sweep_eq {visit : NodeId → Pass Bool} (hvisit : ∀ p, visit (place p) w = .ok (false, w))
    (order : Order) : Pass.sweep order root visit w = .ok (false, w) := by
  refine Pass.sweep_of_idle fun n hn ↦ ?_
  obtain ⟨p, rfl⟩ := h.exists_part_of_isWithin hn
  exact hvisit p

theorem unify_eq : Unification.unify root w = .ok (false, w) := h.sweep_eq h.unifyNode_eq _

theorem resolve_eq : Resolution.resolve session root w = .ok (false, w) := h.sweep_eq h.resolveNode_eq _

theorem normalize_eq : Enumeration.normalize root w = .ok (false, w) := by
  refine h.sweep_eq (fun p ↦ ?_) _
  have hshape : (w.tree.shape? (place p) == some .enumeration) = false := by
    unfold shape? typeData?
    rw [h.kind_eq]
    cases p <;> rfl
  refine Pass.tree_bind.trans ?_
  rw [hshape]
  rfl

theorem resolveUnits_eq : Units.Resolution.resolve session root w = .ok (false, w) := by
  refine (bind_of_ok (Pass.walk_of_idle fun n hn ↦ ?_)).trans rfl
  obtain ⟨p, rfl⟩ := h.exists_part_of_isWithin hn
  have hnode : Units.Resolution.resolveNode session (place p) {} w = .ok (((), {}), w) := by
    unfold Units.Resolution.resolveNode
    refine (Coercion.Sweep.run_tree_bind _ _ w).trans ?_
    rw [h.kind_eq]
    cases p <;> rfl
  exact (bind_of_ok hnode).trans rfl

/-! ## The sweep -/

theorem node_eq {p : Part} (hp : p ≠ .x) (state : Coercion.SweepState) :
    Coercion.Sweep.node session .coercer (place p) state w = .ok (((), state), w) := by
  unfold Coercion.Sweep.node
  refine (Coercion.Sweep.run_tree_bind _ _ w).trans ?_
  rw [h.kind_eq]
  cases p with
  | x => exact absurd rfl hp
  | _ => rfl

/-- At the variable its value is made anew. -/
theorem returns_node (hliterals : PlainLiterals session.conversions) (state : Coercion.SweepState) :
    Returns (Coercion.Sweep.node session .coercer (place .x) state) w fun r w' ↦
      r.2.changed = true ∧ ∃ place', Recurs w'.tree place' ∧ place' .x = place .x := by
  obtain ⟨changed, w', hslot, rfl, hrecurs⟩ := h.returns_coerceSlot hliterals .coercer
  have hdeclared : Coercion.Sweep.declaredValue session .coercer (place .x) state w =
      .ok (((), { state with changed := state.changed || true }), w') := by
    unfold Coercion.Sweep.declaredValue
    refine (Coercion.Sweep.run_tree_bind _ _ w).trans ?_
    rw [show w.tree.child (place .x) 0 = some (place .type) from h.child_eq .x 0]
    dsimp only
    unfold Coercion.Sweep.slot
    rw [Coercion.Sweep.run_bind, Coercion.Sweep.run_lift, bind_assoc]
    exact (bind_of_ok hslot).trans rfl
  refine ⟨((), { state with changed := state.changed || true }), w', ?_, Bool.or_true _, hrecurs⟩
  unfold Coercion.Sweep.node
  refine (Coercion.Sweep.run_tree_bind _ _ w).trans ?_
  rw [h.kind_eq]
  exact hdeclared

end

/-- The variable is among the nodes that are visited, and stays where it is until its turn comes. -/
theorem returns_visits (hliterals : PlainLiterals session.conversions) {x : NodeId} {l : List NodeId}
    {state : Coercion.SweepState} (h : Recurs w.tree place) (hx : place .x = x)
    (hl : state.changed = true ∨ x ∈ l) :
    Returns (l.foldlM (Coercion.Sweep.visitWithin (Coercion.Sweep.node session .coercer)) state) w
      fun state' w' ↦ state'.changed = true ∧ ∃ place', Recurs w'.tree place' := by
  induction l generalizing w place state with
  | nil =>
    rcases hl with hchanged | hmem
    · exact ⟨state, w, rfl, hchanged, place, h⟩
    · cases hmem
  | cons n rest ih =>
    rw [foldlM_cons]
    refine Returns.bind (?_ : Returns _ _ fun state w ↦ ∃ place, Recurs w.tree place ∧ place .x = x ∧
      (state.changed = true ∨ x ∈ rest)) fun _ _ ⟨_, h, hx, hl⟩ ↦ ih h hx hl
    have hlater (hne : x ≠ n) := hl.imp_right (mem_of_ne_of_mem hne)
    have hvisit : Coercion.Sweep.visitWithin (Coercion.Sweep.node session .coercer) state n w =
        (if w.tree.isWithin n root then do
          return (← (Coercion.Sweep.node session .coercer n).run state).2
        else return state : Pass _) w := rfl
    by_cases hn : w.tree.isWithin n root = true
    · rw [if_pos hn] at hvisit
      obtain ⟨p, rfl⟩ := h.exists_part_of_isWithin hn
      by_cases hp : p = .x
      · subst hp
        obtain ⟨r, w₁, hnode, hchanged, _, hrecurs, hsame⟩ := h.returns_node hliterals state
        exact ⟨r.2, w₁, hvisit.trans (bind_of_ok hnode), _, hrecurs, hsame.trans hx, .inl hchanged⟩
      · exact ⟨state, w, hvisit.trans (bind_of_ok (h.node_eq hp state)), place, h, hx,
          hlater fun heq ↦ h.place_ne_x hp (hx.trans heq).symm⟩
    · rw [if_neg hn] at hvisit
      refine ⟨state, w, hvisit, place, h, hx, hlater ?_⟩
      rintro rfl
      rw [← hx] at hn
      exact hn (h.rooted.isWithin_iff.2 h.within_x)

variable (h : Recurs w.tree place)

include h

theorem returns_sweep (hliterals : PlainLiterals session.conversions) :
    Returns (Coercion.sweep session root) w fun changed w' ↦
      changed = true ∧ ∃ place', Recurs w'.tree place' := by
  have hmem : place .x ∈ w.tree.ordered .post root :=
    h.rooted.mem_ordered .post (h.has .x) h.within_x
  have hvisits : Returns ((w.tree.ordered .post root).foldlM
      (Coercion.Sweep.visitWithin (Coercion.Sweep.node session .coercer)) {}) w _ :=
    returns_visits hliterals h rfl (.inr hmem)
  obtain ⟨state, w', hvisits, hchanged, hrecurs⟩ := hvisits
  exact ⟨state.changed, w', bind_of_ok hvisits, hchanged, hrecurs⟩

/-! ## Rounds -/

/-- What a front end does with the program, if resolution finds nothing to do. -/
theorem returns_step (hliterals : PlainLiterals session.conversions) {f : FrontEnd}
    (hscopes : ∀ t, SameNodes t (f.buildScopes t root))
    (hresolve : ∀ {w place}, Recurs w.tree place → f.resolve session root w = .ok (false, w)) :
    Returns (Round.step session root f) w fun changed w' ↦
      changed = true ∧ ∃ place', Recurs w'.tree place' := by
  let w₁ : Workspace := ⟨f.buildScopes w.tree root, w.log.push (.debug .driver ("  " ++ f.component))⟩
  have h₁ : Recurs w₁.tree place := h.sameNodes (hscopes w.tree)
  obtain ⟨changed, w', hsweep, rfl, hrecurs⟩ := h₁.returns_sweep hliterals
  refine ⟨true, w', ?_, rfl, hrecurs⟩
  calc Round.step session root f w
      = (do
          let named ← CanonicalId.assign root
          let resolved ← f.resolve session root
          let unified ← Unification.unify root
          let coerced ← Coercion.sweep session root
          return named || resolved || unified || coerced : Pass Bool) w₁ := rfl
    _ = .ok (true, w') := by
        refine (bind_of_ok h₁.assign_eq).trans ((bind_of_ok (hresolve h₁)).trans ?_)
        exact (bind_of_ok h₁.unify_eq).trans (bind_of_ok hsweep)

theorem returns_round (options : Options) :
    Returns (Compiler.round options) w fun changed w' ↦
      changed = true ∧ ∃ place', Recurs w'.tree place' := by
  have hliterals := Compiler.plainLiterals_standard options
  let w₁ : Workspace := ⟨w.tree.clearScopes, w.log⟩
  have h₁ : Recurs w₁.tree place := h.sameNodes (sameNodes_clearScopes w.tree)
  obtain ⟨_, w₂, hunits, rfl, place₂, h₂⟩ : Returns (Round.step _ root .units) w₁ _ :=
    h₁.returns_step hliterals (fun t ↦ sameNodes_buildUnitScopes t root) fun h ↦ h.resolveUnits_eq
  obtain ⟨_, w₃, hbase, rfl, place₃, h₃⟩ : Returns (Round.step _ root .base) w₂ _ :=
    h₂.returns_step hliterals (fun t ↦ sameNodes_buildScopes t root) fun h ↦
      (bind_of_ok h.resolve_eq).trans (bind_of_ok h.normalize_eq)
  have hrun : Compiler.round options w = .ok (true, w₃) := by
    unfold Compiler.round
    rw [Compiler.frontEnds_standard]
    refine (bind_of_ok (show Pass.modifyTree Tree.clearScopes w = .ok ((), w₁) from rfl)).trans ?_
    rw [foldlM_cons]
    refine (bind_of_ok (bind_of_ok hunits)).trans ?_
    rw [foldlM_cons]
    exact (bind_of_ok (bind_of_ok hbase)).trans rfl
  exact ⟨true, w₃, hrun, rfl, place₃, h₃⟩

/-- All rounds return, and none is the last one. -/
theorem repeatUntilFixed_eq (options : Options) (limit rounds : Nat) :
    ∃ w', Round.repeatUntilFixed (Compiler.round options) limit rounds w =
      .ok ((rounds + limit, false), w') := by
  induction limit generalizing w place rounds with
  | zero => exact ⟨w, rfl⟩
  | succ limit ih =>
    have hannounced : Recurs (Round.announced w rounds).tree place := h
    obtain ⟨_, w₁, hround, rfl, place₁, h₁⟩ := hannounced.returns_round options
    obtain ⟨w₂, hw₂, hrest⟩ := Round.repeat_of_round hround
    have h₂ : Recurs w₂.tree place₁ := by rw [hw₂]; exact h₁
    obtain ⟨w', hw'⟩ := ih h₂ (rounds + 1)
    refine ⟨w', ?_⟩
    rw [hrest, if_pos rfl, hw', Nat.add_assoc, Nat.add_comm 1]

end Recurs

/-- The program before its names are bound. -/
def start : Tree := .ofRows [
  (.root, [11]),
  (.shaped (.name (.ofText "T") none), []),
  (.shaped .strongRef, [1]),
  (.value, [2]),
  (.declares "T" .type .external, [3]),
  (.shaped (.name (.ofText "T") none), []),
  (.shaped .null, []),
  (.value .const, [6]),
  (.literal .null, [7]),
  (.expression .literal, [8]),
  (.declares "x" .globalVariable .external, [5, 9]),
  (.declares "m" .module .external, [4, 10])]

/-- The places of the parts after the first round. -/
def firstPlace : Part → NodeId
  | .top => root
  | .module => ⟨11⟩
  | .declaration => ⟨4⟩
  | .declared => ⟨3⟩
  | .reference => ⟨2⟩
  | .inner => ⟨1⟩
  | .x => ⟨10⟩
  | .type => ⟨5⟩
  | .value => ⟨15⟩
  | .literal => ⟨14⟩
  | .valueType => ⟨13⟩
  | .valueName => ⟨12⟩

theorem rooted_start : start.Rooted := by decide +kernel

def Part.all : List Part :=
  [top, module, declaration, declared, reference, inner, x, type, value, literal, valueType, valueName]

theorem Part.mem_all (p : Part) : p ∈ all := by cases p <;> decide

/-- The first round binds the names and gives the value the type of the variable. -/
theorem exists_recurs_start :
    ∃ w : Workspace, Compiler.round {} (Round.announced ⟨start, #[]⟩ 0) = .ok (true, w) ∧
      Recurs w.tree firstPlace := by
  have hfirst : ((Compiler.round {} (Round.announced ⟨start, #[]⟩ 0)).map fun r ↦
      (r.1, decide (∀ p ∈ Part.all, r.2.tree.kind (firstPlace p) = p.kind (firstPlace .declaration) ∧
        r.2.tree.slots (firstPlace p) = p.parts.map fun c ↦ some (firstPlace c)))).toOption =
      some (true, true) := by
    decide +kernel
  cases hround : Compiler.round {} (Round.announced ⟨start, #[]⟩ 0) with
  | error f => rw [hround] at hfirst; cases hfirst
  | ok r =>
    obtain ⟨changed, w⟩ := r
    rw [hround] at hfirst
    simp only [Except.map, Except.toOption, Option.some.injEq, Prod.mk.injEq, decide_eq_true_iff] at hfirst
    obtain ⟨rfl, hparts⟩ := hfirst
    have hstep : Step start true w.tree := (Compiler.isStep_round {} _ rooted_start).post_of_ok hround
    exact ⟨w, rfl, {
      rooted := hstep.rooted rooted_start
      place_top := rfl
      kind_eq := fun p ↦ (hparts p p.mem_all).1
      slots_eq := fun p ↦ (hparts p p.mem_all).2 }⟩

end SelfReference

namespace Compiler

/-- A type that refers to itself and a variable of this type without a value pass the first checks,
and every round over them returns and reports a change. -/
theorem never_settles_selfReference :
    SelfReference.start.Rooted ∧
      Compilation.errorsBeneath (Validation.validatePre SelfReference.start root) root = [] ∧
      ∀ limit, ∃ w', Round.repeatUntilFixed (round {}) limit 0 ⟨SelfReference.start, #[]⟩ =
        .ok ((limit, false), w') := by
  refine ⟨SelfReference.rooted_start, by decide +kernel, fun limit ↦ ?_⟩
  cases limit with
  | zero => exact ⟨_, rfl⟩
  | succ limit =>
    obtain ⟨w₁, hround, hrecurs⟩ := SelfReference.exists_recurs_start
    obtain ⟨w₂, hw₂, hrest⟩ := Round.repeat_of_round hround
    have hrecurs₂ : SelfReference.Recurs w₂.tree SelfReference.firstPlace := by rw [hw₂]; exact hrecurs
    obtain ⟨w', hw'⟩ := hrecurs₂.repeatUntilFixed_eq {} limit (0 + 1)
    refine ⟨w', ?_⟩
    rw [hrest, if_pos rfl, hw', Nat.zero_add, Nat.add_comm]

end Compiler

end ProtocolIR
