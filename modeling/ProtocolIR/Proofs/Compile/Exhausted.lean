import ProtocolIR.Proofs.Coercion.Calm
import ProtocolIR.Proofs.Compile.Coerced

/-!
# Conditions and defaults after compilation

Conditions are to become `bool`, and the defaults of parameters and of the variables of units what
they are declared as. What cannot be made so is left alone, and no check looks at these places. So a
compilation that reached its fixed point and passed its checks has done all that can be done there,
but may leave a condition or a default of a type that does not fit.
-/

namespace ProtocolIR

open Tree List Option

/-- The slots that hold conditions, those of the fields of units included. -/
def NodeKind.HoldsCondition (kind : NodeKind) (i : Nat) : Prop :=
  kind.IsCondition i ∨ (∃ id skip, kind = .item (.field id skip)) ∧ i = 2

/-- The kinds of nodes with a default in slot 1, for the type in slot 0. -/
def NodeKind.HoldsDefault (kind : NodeKind) : Prop :=
  (∃ d mode, kind = .declaration d ∧ d.kind = .parameter mode) ∨ ∃ id, kind = .item (.var id)

namespace Coercion.Sweep

variable {b : Tree} {session : Session} {stream : Stream} {n e type : NodeId} {i : Nat}

/-! ## Quiet visits -/

/-- A condition that is left alone is `bool` already, or cannot be made `bool`. -/
theorem RanQuietly.met (htame : Tame session.conversions)
    (h : RanQuietly b (condition session stream n i)) (hn : b.Has n) (he : b.child n i = some e)
    (hkind : (b.kind e).isExpression = true) : Met b e := by
  have hread := h.of_tree fun {s} hs ↦ by
    rw [hs.child_eq hn, he]
    dsimp only
    rw [hs.conditionType_eq (hs.base.has_of_child he)]
  rw [he] at hread
  dsimp only at hread
  split at hread
  next hbool => exact .inl (eq_of_beq hbool)
  · refine .inr fun c hc ↦ ?_
    obtain ⟨w, state, r, w', halike, hrun, hquiet⟩ := hread
    rw [run_bind] at hrun
    obtain ⟨⟨q, state₁⟩, w₁, hmade, hslot⟩ := bind_eq_ok hrun
    have hstate : state₁.changed = false := by
      by_contra hne
      exact lasting_report _ _ hne _ _ _ hslot hquiet
    obtain ⟨_, _, _, halike₁, hq, -⟩ := mirrors_boolType halike w.log w.log _ _ hmade hstate
    rcases halike₁.boolTypes with ⟨hnone, -⟩ | ⟨q', _, hq', -, ⟨hbool, -⟩, -⟩
    · rw [hq] at hnone
      cases hnone
    · cases hq.symm.trans hq'
      have hpadded := halike₁.later.left
      have hanswer := coerceExpression_condition hpadded.toInset htame hbool (hpadded.base.has_of_child he)
      rw [hc] at hanswer
      cases hok : coerceExpression session.conversions w₁.tree e q .ofCondition with
      | error refusal =>
        rw [hok] at hanswer
        cases hanswer
      | ok c' =>
        rw [hok] at hanswer
        cases hanswer
        exact unchanged_of_slot hslot hquiet (hpadded.filter_child_eq_some hn he hkind) hok

/-- The value of a declaration or of a variable of a unit is looked at as what it is declared as. -/
theorem RanQuietly.of_declaredValue (h : RanQuietly b (declaredValue session stream n)) (hn : b.Has n)
    (htype : b.child n 0 = some type) : RanQuietly b (slot session stream n 1 type .ofAssignment) := by
  rw [declaredValue_eq] at h
  refine h.of_value hn ?_ htype
  rintro _ ⟨⟩
  exact hn

end Coercion.Sweep

namespace Coercion

/-- All that can be done for the conditions and for the default of a node has been done. -/
structure Exhausted (session : Session) (t : Tree) (n : NodeId) : Prop where
  condition : ∀ {i e}, (t.kind n).HoldsCondition i → t.child n i = some e →
    (t.kind e).isExpression = true → Met t e
  default : ∀ {type e c}, (t.kind n).HoldsDefault → t.child n 0 = some type → t.child n 1 = some e →
    (t.kind e).isExpression = true →
      coerceExpression session.conversions t e type .ofAssignment = .ok c → c = .unchanged

variable {session : Session} {b s : Tree} {n : NodeId}

theorem Met.inset {e : NodeId} (h : Inset b s) (he : b.Has e) (hmet : Met b e) : Met s e := by
  unfold Met
  rw [h.conditionType_eq he, conditionAnswer_eq h he]
  exact hmet

theorem Exhausted.inset (htame : Tame session.conversions) (h : Inset b s) (hn : b.Has n)
    (hexhausted : Exhausted session b n) : Exhausted session s n where
  condition := by
    intro i e hcondition he hkind
    rw [h.kind_eq hn] at hcondition
    rw [h.child_eq hn] at he
    have hhas := h.base.has_of_child he
    rw [h.kind_eq hhas] at hkind
    exact (hexhausted.condition hcondition he hkind).inset h hhas
  default := by
    intro type e c hdefault htype he hkind hok
    rw [h.kind_eq hn] at hdefault
    rw [h.child_eq hn] at htype he
    have hhas := h.base.has_of_child he
    rw [h.kind_eq hhas] at hkind
    refine hexhausted.default hdefault htype he hkind ?_
    exact Below.of_toOption_eq (coerceExpression_eq htame.steady h hhas (h.base.has_of_child htype)) c hok

variable (htame : Tame session.conversions)

include htame

/-- A quiet sweep has nothing left to do outside of units. -/
theorem exhausted_of_sweep {w w' : Workspace} (ht : w.tree.Rooted)
    (hrun : sweep session root w = .ok (false, w')) (hn : w.tree.Within root n)
    (hitem : (w.tree.kind n).item? = none) : Exhausted session w.tree n := by
  have hquiet := Sweep.ranQuietly_of_sweep htame ht hrun hn
  have hhas := hn.has ht.has_root
  refine ⟨fun hcondition he hkind ↦ ?_, fun hdefault htype he hkind hok ↦ ?_⟩
  · rcases hcondition with hcondition | ⟨⟨id, skip, hfield⟩, -⟩
    · exact Sweep.RanQuietly.met htame
        (hquiet.of_look htame ht.toLinked hhas (mem_looks_of_isCondition hcondition he)) hhas he hkind
    · rw [hfield] at hitem
      cases hitem
  · rcases hdefault with ⟨d, mode, hparameter, hd⟩ | ⟨id, hvar⟩
    · have hsite : Site session.registry w.tree n 1 _ .ofAssignment :=
        .declared hparameter (by rw [hd]; rfl) htype
      exact (hquiet.of_site htame ht.toLinked hhas hsite).unchanged htame hhas
        (ht.toLinked.has_of_child htype) he hkind hok
    · rw [hvar] at hitem
      cases hitem

end Coercion

namespace Units.Resolution

open Coercion Sweep

variable {b : Tree} {session : Session} {n : NodeId}

theorem ranQuietly_of_field (h : RanQuietly b (resolveNode session n)) (hn : b.Has n) {id : Option String}
    {skip : Bool} (hkind : b.kind n = .item (.field id skip)) :
    RanQuietly b (condition session .unitResolver n 2) := by
  have hnode := h.of_tree fun hs ↦ by rw [hs.kind_eq hn]
  rw [hkind] at hnode
  exact hnode

theorem ranQuietly_of_var (h : RanQuietly b (resolveNode session n)) (hn : b.Has n) {id : String}
    (hkind : b.kind n = .item (.var id)) : RanQuietly b (declaredValue session .unitResolver n) := by
  have hnode := h.of_tree fun hs ↦ by rw [hs.kind_eq hn]
  rw [hkind] at hnode
  exact hnode

/-- Quiet resolution inside units has nothing left to do at their items. -/
theorem exhausted_of_resolve (htame : Tame session.conversions) {w w' : Workspace}
    (ht : w.tree.Rooted) (hrun : resolve session root w = .ok (false, w'))
    (hn : w.tree.Within root n) {item : UnitItem} (hitem : w.tree.kind n = .item item) :
    Exhausted session w.tree n := by
  have hquiet := ranQuietly_of_walk ht
    (fun m ↦ mirrored_resolveNode ht.toLinked htame m) hrun hn
  have hhas := hn.has ht.has_root
  refine ⟨fun hcondition he hkind ↦ ?_, fun hdefault htype he hkind hok ↦ ?_⟩
  · rcases hcondition with hcondition | ⟨⟨id, skip, hfield⟩, rfl⟩
    · rw [hitem] at hcondition
      exact hcondition.elim
    · exact (ranQuietly_of_field hquiet hhas hfield).met htame hhas he hkind
  · rcases hdefault with ⟨d, mode, hparameter, -⟩ | ⟨id, hvar⟩
    · rw [hitem] at hparameter
      cases hparameter
    · exact ((ranQuietly_of_var hquiet hhas hvar).of_declaredValue hhas htype).unchanged htame hhas
        (ht.toLinked.has_of_child htype) he hkind hok

end Units.Resolution

/-! ## The last resolution inside units -/

namespace Compiler

variable {options : Options} {w w' : Workspace} {n : NodeId}

/-- In a quiet round resolution inside units is quiet. What follows pads its tree, but for the scopes,
which are those of the other front end. -/
theorem exists_last_resolution (ht : w.tree.Rooted) (h : round options w = .ok (false, w')) :
    ∃ u u' : Workspace, u.tree.Rooted ∧
      Units.Resolution.resolve (standard options).session root u = .ok (false, u') ∧
      Inset u.tree w'.tree := by
  have htame := tame_standard options
  obtain ⟨w₀, w₁, ht₀, -, hunits, hbase⟩ := exists_steps_of_round ht h
  obtain ⟨u, u', v, hu, hresolve, hunify, -, hsweep⟩ := Round.exists_parts_of_step
    (fun t ↦ sameNodes_buildUnitScopes t root) ((Units.Resolution.isTurn_resolve htame.literals).isStep) ht₀ hunits
  have hpadded : Padded u.tree w₁.tree :=
    .of_quiet (.of_quiet (.of_quiet (.refl hu) (replayed_units options).resolve hresolve)
      Unification.stays_unify hunify) (Coercion.stays_sweep_coercions htame) hsweep
  have hbuilt := hpadded.of_quiet (Round.stays_step htame (replayed_base options)) hbase
  exact ⟨u, u', hu, hresolve, hbuilt.toInset.rescoped (sameNodes_buildScopes u.tree root).symm (.refl _)⟩

/-- After a quiet round there is nothing left to do at any attached node. -/
theorem exhausted_of_round (ht : w.tree.Rooted) (h : round options w = .ok (false, w'))
    (hn : w'.tree.Within root n) : Coercion.Exhausted (standard options).session w'.tree n := by
  have htame := tame_standard options
  have ht' : w'.tree.Rooted := ((isStep_round options w ht).post_of_ok h).rooted ht
  cases hitem : w'.tree.kind n with
  | item item =>
    -- Items are visited by resolution inside units, before the scopes of the other front end.
    obtain ⟨u, u', hu, hresolve, hinset⟩ := exists_last_resolution ht h
    have hwithin := (hinset.within_iff ht').1 hn
    have hhas := hwithin.has hu.has_root
    rw [hinset.kind_eq hhas] at hitem
    exact (Units.Resolution.exhausted_of_resolve htame hu hresolve hwithin hitem).inset htame hinset hhas
  | _ =>
    obtain ⟨u, hu, hsweep, hpadded⟩ := exists_last_sweep ht h
    have hwithin := (hpadded.within_iff ht').1 hn
    have hhas := hwithin.has hu.has_root
    rw [hpadded.kind_eq hhas] at hitem
    exact (Coercion.exhausted_of_sweep htame hu hsweep hwithin (by rw [hitem]; rfl)).inset
      htame hpadded.toInset hhas

/-- After a compilation with its checks that reached its fixed point, every condition is `bool` or
cannot be made `bool`, whichever node the type of conditions is, and every default of a parameter or
of a variable of a unit has the declared type or cannot get it. No check looks at what could not be
done. -/
theorem exhausted_of_compile (options : Options) (w : Workspace) (outcome : Outcome) (c' : Compiler)
    (ht : w.tree.Rooted) (hchecks : options.skipValidation = false)
    (hcompile : compile { standard options with workspace := w } = .ok (.ok outcome, c'))
    (hfixed : outcome.reachedFixedPoint = true) (n e : NodeId) (hn : c'.workspace.tree.isAttached n)
    (hkind : (c'.workspace.tree.kind e).isExpression = true) :
    (∀ i, (c'.workspace.tree.kind n).HoldsCondition i → c'.workspace.tree.child n i = some e →
      (c'.workspace.tree.expressionType e).bind c'.workspace.tree.followedShape = some .bool ∨
        ∀ s q c, Padded c'.workspace.tree s → s.IsBool q →
          Coercion.coerceExpression (standard options).session.conversions s e q .ofCondition = .ok c →
            c = .unchanged) ∧
    ∀ type c, (c'.workspace.tree.kind n).HoldsDefault → c'.workspace.tree.child n 0 = some type →
      c'.workspace.tree.child n 1 = some e →
        Coercion.coerceExpression (standard options).session.conversions c'.workspace.tree e type
          .ofAssignment = .ok c → c = .unchanged := by
  obtain ⟨t₀, t, t', ht₀, hgrammars, -, -, hlast, hrounds⟩ := trees_of_compile ht hchecks hcompile
  obtain ⟨v, v', hv, hround, rfl⟩ := hrounds hfixed
  have hannotated := hgrammars.trans hlast
  have hpadded : Padded v'.tree c'.workspace.tree := (Padded.refl ht₀).annotate hannotated
  have hfinal := hannotated.rooted ht₀
  have hwithin := (hpadded.within_iff hfinal).1 (hfinal.isWithin_iff.1 hn)
  have hexhausted : Coercion.Exhausted (standard options).session c'.workspace.tree n :=
    (exhausted_of_round hv hround hwithin).inset (tame_standard options) hpadded.toInset
      (hwithin.has ht₀.has_root)
  refine ⟨fun i hcondition he ↦ ?_, fun type c hdefault htype he ↦ hexhausted.default hdefault htype he hkind⟩
  refine (hexhausted.condition hcondition he hkind).imp_right fun hanswer s q c hs hbool hok ↦ ?_
  apply hanswer
  rw [← Coercion.coerceExpression_condition hs.toInset (tame_standard options) hbool
    (hfinal.toLinked.has_of_child he), hok]
  rfl

/-- A function with a default `"no"` for a `bool` and a condition `null`, and a unit with a condition
`null` on its field and a default `"no"` for its variable, a `bool`. -/
def unfitting : Tree := .ofRows [
  (.root, [37]),
  (.shaped .bool, []),
  (.place, [1]),
  (.shaped .string, []),
  (.value .const, [3]),
  (.literal (.string "no"), [4]),
  (.expression .literal, [5]),
  (.declares "p" (.parameter .input), [2, 6]),
  (.shaped .void, []),
  (.value, [8]),
  (.shaped .function, [9, 7]),
  (.value .const, [10]),
  (.shaped .null, []),
  (.value .const, [12]),
  (.literal .null, [13]),
  (.expression .literal, [14]),
  (.statement .block, []),
  (.statement .conditional, [15, 16, 0]),
  (.statement .block, [17]),
  (.declares "f" (.function none none), [11, 18]),
  (.shaped .bool, []),
  (.value, [20]),
  (.shaped .null, []),
  (.value .const, [22]),
  (.literal .null, [23]),
  (.expression .literal, [24]),
  (.item (.field (some "x") false), [21, 0, 25, 0]),
  (.shaped .bool, []),
  (.place, [27]),
  (.shaped .string, []),
  (.value .const, [29]),
  (.literal (.string "no"), [30]),
  (.expression .literal, [31]),
  (.item (.var "v"), [28, 32, 0]),
  (.shaped .unit, [26, 33]),
  (.value, [34]),
  (.declares "U" .type, [35]),
  (.declares "m" .module .external, [19, 36])]

/-- An expression in a slot of a node: whether the node is attached, its kind, the expression and what
its type means, if that is resolved. -/
structure Occupied where
  isAttached : Bool
  kind : NodeKind
  expression : NodeId
  type : TypeShape
  deriving DecidableEq

def occupied? (t : Tree) (n : NodeId) (i : Nat) : Option Occupied := do
  let e ← (t.child n i).filter fun e ↦ (t.kind e).isExpression
  let src ← (t.expressionType e).filter t.isResolved
  return ⟨t.isAttached n, t.kind n, e, ← t.followedShape src⟩

theorem of_occupied? {t : Tree} {i : Nat} {o : Occupied} (h : occupied? t n i = some o) :
    t.isAttached n = o.isAttached ∧ t.kind n = o.kind ∧ t.child n i = some o.expression ∧
      (t.kind o.expression).isExpression = true ∧
      ∃ src, t.expressionType o.expression = some src ∧ t.isResolved src = true ∧
        t.followedShape src = some o.type := by
  obtain ⟨e, he, h⟩ := bind_eq_some_iff.1 h
  obtain ⟨src, hsrc, h⟩ := bind_eq_some_iff.1 h
  obtain ⟨type, htype, h⟩ := bind_eq_some_iff.1 h
  cases h
  obtain ⟨he, hkind⟩ := filter_eq_some_iff.1 he
  obtain ⟨hsrc, hresolved⟩ := filter_eq_some_iff.1 hsrc
  exact ⟨rfl, rfl, he, hkind, src, hsrc, hresolved, htype⟩

/-- How the default of a node gets the declared type, if it does. -/
def defaultCoercion (options : Options) (t : Tree) (n : NodeId) : Option Coercion := do
  (Coercion.coerceExpression (standard options).session.conversions t (← t.child n 1) (← t.child n 0)
    .ofAssignment).toOption

def unfittingPlaces (t : Tree) : List (Option Occupied) × List (Option Coercion) × Option NodeId :=
  ([occupied? t ⟨17⟩ 0, occupied? t ⟨26⟩ 2, occupied? t ⟨7⟩ 1, occupied? t ⟨33⟩ 1],
    [defaultCoercion {} t ⟨7⟩, defaultCoercion {} t ⟨33⟩], t.child ⟨33⟩ 0)

/-- The tree compiles, with both conditions of the type `null`, and both defaults `string`s that do not
become `bool`. -/
theorem exists_outcome_unfitting : ∃ (outcome : Outcome) (c' : Compiler),
    compile { standard {} with workspace := ⟨unfitting, #[]⟩ } = .ok (.ok outcome, c') ∧
    outcome.reachedFixedPoint = true ∧ unfittingPlaces c'.workspace.tree =
      ([some ⟨true, .statement .conditional, ⟨15⟩, .null⟩,
        some ⟨true, .item (.field (some "x") false), ⟨25⟩, .null⟩,
        some ⟨true, .declares "p" (.parameter .input) .internal "m::f::p", ⟨6⟩, .string⟩,
        some ⟨true, .item (.var "v"), ⟨32⟩, .string⟩], [none, none], some ⟨28⟩) :=
  exists_outcome unfittingPlaces _ true (by decide +kernel)

/-- So neither are all conditions `bool` after a compilation that passed its checks, nor do all defaults
fit: the condition of the statement and that of the field are of the type `null`, and no coercion makes
the default of the parameter or of the variable what they are declared as. -/
theorem unfitting_passes :
    ∃ (outcome : Outcome) (c' : Compiler), unfitting.Rooted ∧
      compile { standard {} with workspace := ⟨unfitting, #[]⟩ } = .ok (.ok outcome, c') ∧
      outcome.reachedFixedPoint = true ∧
      (∀ place ∈ [((⟨17⟩ : NodeId), 0), (⟨26⟩, 2)], c'.workspace.tree.isAttached place.1 ∧
        (c'.workspace.tree.kind place.1).HoldsCondition place.2 ∧
        ∃ e src, c'.workspace.tree.child place.1 place.2 = some e ∧
          c'.workspace.tree.expressionType e = some src ∧ c'.workspace.tree.isResolved src ∧
          c'.workspace.tree.followedShape src = some .null) ∧
      ∀ n ∈ [(⟨7⟩ : NodeId), ⟨33⟩], c'.workspace.tree.isAttached n ∧
        (c'.workspace.tree.kind n).HoldsDefault ∧ defaultCoercion {} c'.workspace.tree n = none := by
  have hrooted : unfitting.Rooted := by decide +kernel
  obtain ⟨outcome, c', hcompile, hfixed, hplaces⟩ := exists_outcome_unfitting
  simp only [unfittingPlaces, Prod.mk.injEq, cons.injEq, and_true] at hplaces
  obtain ⟨⟨hstatement, hfield, hparameter, hvar⟩, hdefaults, -⟩ := hplaces
  obtain ⟨hattached₁, hkind₁, he₁, -, src₁, htype₁⟩ := of_occupied? hstatement
  obtain ⟨hattached₂, hkind₂, he₂, -, src₂, htype₂⟩ := of_occupied? hfield
  obtain ⟨hattached₃, hkind₃, -⟩ := of_occupied? hparameter
  obtain ⟨hattached₄, hkind₄, -⟩ := of_occupied? hvar
  refine ⟨outcome, c', hrooted, hcompile, hfixed, ?_, ?_⟩
  · rw [forall_mem_cons, forall_mem_singleton]
    refine ⟨⟨hattached₁, .inl ?_, _, src₁, he₁, htype₁⟩, hattached₂, .inr ⟨⟨_, _, hkind₂⟩, rfl⟩, _, src₂, he₂,
      htype₂⟩
    rw [hkind₁]
    rfl
  · rw [forall_mem_cons, forall_mem_singleton]
    exact ⟨⟨hattached₃, .inl ⟨_, _, hkind₃, rfl⟩, hdefaults.1⟩, hattached₄, .inr ⟨_, hkind₄⟩, hdefaults.2⟩

/-- Nothing makes the condition of the field `bool`, nor the default of the variable. -/
theorem exhausted_of_compile_unfitting :
    ∃ (outcome : Outcome) (c' : Compiler), unfitting.Rooted ∧
      compile { standard {} with workspace := ⟨unfitting, #[]⟩ } = .ok (.ok outcome, c') ∧
      outcome.reachedFixedPoint = true ∧ c'.workspace.tree.isAttached ⟨26⟩ ∧
      (c'.workspace.tree.kind ⟨26⟩).HoldsCondition 2 ∧ c'.workspace.tree.child ⟨26⟩ 2 = some ⟨25⟩ ∧
      (∀ s q c, Padded c'.workspace.tree s → s.IsBool q →
        Coercion.coerceExpression (standard {}).session.conversions s ⟨25⟩ q .ofCondition = .ok c →
          c = .unchanged) ∧
      c'.workspace.tree.isAttached ⟨33⟩ ∧ (c'.workspace.tree.kind ⟨33⟩).HoldsDefault ∧
      c'.workspace.tree.child ⟨33⟩ 0 = some ⟨28⟩ ∧ c'.workspace.tree.child ⟨33⟩ 1 = some ⟨32⟩ ∧
      ∀ c, Coercion.coerceExpression (standard {}).session.conversions c'.workspace.tree ⟨32⟩ ⟨28⟩
        .ofAssignment = .ok c → c = .unchanged := by
  have hrooted : unfitting.Rooted := by decide +kernel
  obtain ⟨outcome, c', hcompile, hfixed, hplaces⟩ := exists_outcome_unfitting
  simp only [unfittingPlaces, Prod.mk.injEq, cons.injEq, and_true] at hplaces
  obtain ⟨⟨-, hfield, -, hvar⟩, -, htype⟩ := hplaces
  obtain ⟨hn, hkind, hcondition, hexpression, src, hsrc, -, hnull⟩ := of_occupied? hfield
  obtain ⟨hm, hkind', hdefault, hexpression', -⟩ := of_occupied? hvar
  have hholds : (c'.workspace.tree.kind ⟨26⟩).HoldsCondition 2 := .inr ⟨⟨_, _, hkind⟩, rfl⟩
  have hholds' : (c'.workspace.tree.kind ⟨33⟩).HoldsDefault := .inr ⟨_, hkind'⟩
  have hleft := (exhausted_of_compile {} ⟨unfitting, #[]⟩ outcome c' hrooted rfl hcompile hfixed ⟨26⟩ ⟨25⟩ hn
    hexpression).1 2 hholds hcondition
  have hright := (exhausted_of_compile {} ⟨unfitting, #[]⟩ outcome c' hrooted rfl hcompile hfixed ⟨33⟩ ⟨32⟩ hm
    hexpression').2 ⟨28⟩
  refine ⟨outcome, c', hrooted, hcompile, hfixed, hn, hholds, hcondition, hleft.resolve_left ?_, hm, hholds',
    htype, hdefault, fun c ↦ hright c hholds' htype hdefault⟩
  rw [hsrc, bind_some, hnull]
  exact fun h ↦ by cases h

end Compiler

end ProtocolIR
