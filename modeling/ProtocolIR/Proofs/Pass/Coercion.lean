import ProtocolIR.Proofs.Pass.Rewriting

/-!
# Coercion is a turn

A literal is replaced by a new one, any other expression is taken out of its slot and put back
inside a conversion; expressions are not written. Only a literal is ever asked to be retyped, as
long as the front ends leave literals to the built-in rules. Inside units, keywords are typed in a slot
of their own.
-/

namespace ProtocolIR

open Tree List NodeKind

/-- The front ends have no rules of their own for literals. -/
def PlainLiterals (conversions : List Conversions) : Prop :=
  ∀ c ∈ conversions, ∀ t n dst style, c.literal t n dst style = none

namespace Coercion

variable {conversions : List Conversions} {t : Tree} {style : Style}

/-! ## What a coercion asks for -/

/-- The answer is not to retype a literal. -/
def NoRetype (answer : Except NoMatch Coercion) : Prop := answer ≠ .ok .retype

section NoRetype

variable {x y : Except NoMatch Coercion} {α : Type}

theorem noRetype_error (e : NoMatch) : NoRetype (.error e) := fun h ↦ by cases h

theorem noRetype_wrap : NoRetype (.ok .wrap) := fun h ↦ by cases h

theorem noRetype_unchanged : NoRetype (.ok .unchanged) := fun h ↦ by cases h

theorem NoRetype.ite {c : Prop} [Decidable c] (hx : NoRetype x) (hy : NoRetype y) :
    NoRetype (if c then x else y) := by
  split
  · exact hx
  · exact hy

theorem noRetype_map (z : Except NoMatch α) : NoRetype (z.map fun _ ↦ .wrap) := by
  cases z with
  | error e => exact noRetype_error e
  | ok a => exact noRetype_wrap

theorem noRetype_bind (z : Except NoMatch α) : NoRetype (z >>= fun _ ↦ pure .wrap) := by
  cases z with
  | error e => exact noRetype_error e
  | ok a => exact noRetype_wrap

theorem NoRetype.mapError (f : NoMatch → NoMatch) (hx : NoRetype x) : NoRetype (x.mapError f) := by
  cases x with
  | error e => exact noRetype_error _
  | ok c => exact fun h ↦ hx h

theorem noRetype_narrow (style : Style) (source target : TypeShape) :
    NoRetype (narrow style source target) :=
  (noRetype_error _).ite (noRetype_wrap.ite (noRetype_error _))

theorem NoRetype.crossSign (style : Style) (hx : NoRetype x) : NoRetype (crossSign style x) :=
  (noRetype_error _).ite hx

end NoRetype

/-- The rules for types wrap a value or leave it as it is. -/
theorem noRetype_typeRule (t : Tree) (style : Style)
    (recurse : NodeId → NodeId → Except NoMatch Coercion) (s d : NodeId) (source target : TypeShape) :
    NoRetype (typeRule t style recurse s d source target) := by
  have hnarrow := noRetype_narrow style source target
  unfold typeRule
  split
  · exact noRetype_unchanged
  refine (noRetype_wrap.ite (noRetype_error _)).ite ((noRetype_error _).ite ?_)
  split
  · exact noRetype_wrap.ite hnarrow
  · exact noRetype_wrap.ite hnarrow
  · exact (noRetype_wrap.ite hnarrow).crossSign style
  · exact hnarrow.crossSign style
  · exact noRetype_wrap.ite hnarrow
  · exact noRetype_wrap.ite hnarrow
  · exact noRetype_wrap
  · exact noRetype_wrap
  · exact noRetype_wrap
  · exact noRetype_wrap
  · exact noRetype_wrap
  · split
    · exact noRetype_error _
    · exact noRetype_map _
  · split
    · exact noRetype_error _
    · exact noRetype_map _
  · refine NoRetype.ite ?_ (noRetype_error _)
    split
    · exact noRetype_wrap.ite (noRetype_error _)
    · exact noRetype_error _
  · refine NoRetype.ite ?_ (noRetype_error _)
    split
    · exact noRetype_wrap.ite (noRetype_error _)
    · exact noRetype_error _
  · exact (noRetype_error _).ite (noRetype_bind _)
  · exact noRetype_error _

theorem noRetype_coerceType (conversions : List Conversions) (t : Tree) (src dst : NodeId)
    (style : Style) : NoRetype (coerceType conversions t src dst style) := by
  unfold coerceType
  generalize (t.size + 1) * (t.size + 1) = fuel
  cases fuel with
  | zero => exact noRetype_error _
  | succ fuel =>
    unfold coerceTypeWithin
    refine (noRetype_error _).ite ?_
    split
    · refine noRetype_unchanged.ite ?_
      split
      · refine noRetype_unchanged.ite ?_
        split
        · exact noRetype_map _
        · exact noRetype_wrap.ite (noRetype_typeRule _ _ _ _ _ _ _)
      · exact noRetype_error _
    · exact noRetype_error _

/-- What the rule for literals was asked. -/
theorem literalRule_of_coerceLiteralWithin (hplain : PlainLiterals conversions) {n dst : NodeId}
    {fuel : Nat} (h : coerceLiteralWithin conversions t style n fuel dst = .ok ()) :
    ∃ fuel' l d target, fuel = fuel' + 1 ∧ t.literal? n = some l ∧ t.follow dst = some d ∧
      t.shape? d = some target ∧ literalRule t style (coerceLiteralWithin conversions t style n fuel')
        n l d target = .ok () := by
  have hnone : (conversions.findSome? fun c ↦ c.literal t n dst style) = none :=
    findSome?_eq_none_iff.2 fun c hc ↦ hplain c hc t n dst style
  cases fuel with
  | zero => cases h
  | succ fuel =>
    unfold coerceLiteralWithin at h
    rw [hnone] at h
    dsimp only at h
    split at h
    · cases h
    next l hl =>
      split at h
      · cases h
      next d hd =>
        split at h
        · cases h
        next target htarget => exact ⟨fuel, l, d, target, rfl, hl, hd, htarget, h⟩

/-- Only literals are retyped. -/
theorem exists_literal_of_retype (hplain : PlainLiterals conversions) {e dst : NodeId}
    (h : coerceExpression conversions t e dst style = .ok .retype) :
    ∃ old l, t.child e 0 = some old ∧ t.literal? old = some l := by
  have htype := fun src ↦ noRetype_coerceType conversions t src dst style
  unfold coerceExpression at h
  split at h
  · cases h
  next src _ =>
    split at h
    · cases h
    split at h
    · cases h
    split at h
    · cases h
    dsimp only at h
    split at h
    · exact absurd h (htype src)
    next hliteral =>
      obtain ⟨old, hold, hok⟩ := Option.map_eq_some_iff.1 hliteral
      obtain ⟨_, l, _, _, _, hl, -⟩ := literalRule_of_coerceLiteralWithin hplain hok
      split at hold
      · exact ⟨old, l, hold, hl⟩
      · cases hold
    next refusal _ => exact absurd h ((htype src).mapError _)

/-! ## Carrying a coercion out -/

variable {s : Sources} {good : Prop} {w : Workspace} {n e dst : NodeId} {i : Nat} {p : NodeId → Prop}

theorem sure_retypeLiteral {old : NodeId} (htargets : s.Targets w.tree p) (hdst : p dst)
    (hold : ∀ {l}, w.tree.literal? old = some l → s.literal old)
    (hgood : good → ∃ l, w.tree.literal? old = some l) :
    Sure good (liftM (retypeLiteral old dst) : Pass NodeId) w fun c w' ↦ Crafted s w.tree w'.tree [c] := by
  cases hl : w.tree.literal? old with
  | some l => exact (crafts_retypeLiteral htargets (hold hl) hl hdst).lift
  | none =>
    refine Ensures.sure (ensures_edit fun a t' h ↦ ?_) fun h ↦ ?_
    · unfold retypeLiteral at h
      rw [get_bind] at h
      unfold retypeWithin at h
      rw [get_bind, hl] at h
      cases h
    · obtain ⟨l, hl'⟩ := hgood h
      cases hl.symm.trans hl'

section Apply

variable (hchild : w.tree.child n i = some e) (hexpression : (w.tree.kind e).isExpression = true)
  (stream : Stream)

include hchild hexpression

theorem sure_retype (htargets : s.Targets w.tree p) (hdst : p dst)
    (hold : ∀ {old l}, w.tree.child e 0 = some old → w.tree.literal? old = some l → s.literal old)
    (hgood : good → w.tree.Coherent ∧ ∃ old l, w.tree.child e 0 = some old ∧ w.tree.literal? old = some l) :
    Sure good (apply stream e dst .retype) w fun _ w' ↦ Rewrites s good w.tree n true w'.tree := by
  refine ends_tree_bind ?_
  split
  next hnone =>
    refine ends_pure (.stuck fun h ↦ ?_)
    obtain ⟨-, _, _, hsome, -⟩ := hgood h
    cases hnone.symm.trans hsome
  next old hsome =>
    have hliteral (h : good) : ∃ l, w.tree.literal? old = some l := by
      obtain ⟨-, _, l, hsome', hl⟩ := hgood h
      cases hsome.symm.trans hsome'
      exact ⟨l, hl⟩
    refine (sure_retypeLiteral htargets hdst (hold hsome) hliteral).bind fun l w₁ hl ↦ ends_tree_bind ?_
    refine (hl.create ⟨(inert_expression .literal).plain, rfl, rfl⟩ _).lift.bind fun new w₂ ⟨h, hkind⟩ ↦ ?_
    refine (sure_replaced_expression h hkind (.inr ⟨i, hchild⟩) hexpression fun h ↦ ?_).bind
      fun _ _ h ↦ ends_pure h
    exact ⟨(hgood h).1, n, (hgood h).1.parent_of_child hchild⟩

/-- The expression leaves its slot, goes into a conversion, and that into the slot. -/
theorem sure_wrap (hdst : s.type ((w.tree.unqualified dst).getD dst)) (hgood : good → w.tree.Coherent) :
    Sure good (apply stream e dst .wrap) w fun _ w' ↦ Rewrites s good w.tree n true w'.tree := by
  refine ends_tree_bind ?_
  split
  next parent index hp hindex =>
    have hslot := child_of_slotIndex hp hindex
    have hinert := inert_of_isExpression hexpression
    refine (crafts_targetType hdst .mutable).lift.bind fun target w₁ h ↦ ?_
    have hpiece := h.piece (mem_singleton_self _)
    refine Ends.bind (sure_update fun _ ↦ exists_setChild (by simp)) fun _ w₂ hset ↦ ?_
    refine (sure_create fun hg ↦ ?_).bind fun coerced w₃ hcreate ↦ ?_
    · obtain ⟨_, _, hcreate, -⟩ := exists_wrapped (hgood hg) h.grows.1 hpiece hslot hinert hset _
      exact ⟨_, hcreate⟩
    refine Ends.bind (sure_update fun hg ↦ ?_) fun _ w₄ hset' ↦ ?_
    · obtain ⟨_, t₄, hcreate', hset', -⟩ := exists_wrapped (hgood hg) h.grows.1 hpiece hslot hinert hset _
      cases hcreate.symm.trans hcreate'
      exact ⟨t₄, hset'⟩
    exact (Pass.safe_recordChangeTo fun _ ↦
      .wrapped hchild hexpression hp hslot h hset hcreate hset').sure.bind fun _ _ h ↦ ends_pure h
  next hnone =>
    refine ends_throw fun hg ↦ ?_
    have hp := (hgood hg).parent_of_child hchild
    obtain ⟨index, hindex⟩ := exists_slotIndex (hgood hg).toLinked hp
    exact absurd hindex (hnone n index hp)

end Apply

theorem sure_coerceSlot (htargets : s.Targets w.tree p)
    (hdst : ∀ {e coercion}, coerceExpression conversions w.tree e dst style = .ok coercion →
      coercion ≠ .unchanged → p dst)
    (hold : ∀ {e old l}, w.tree.child n i = some e → w.tree.child e 0 = some old →
      w.tree.literal? old = some l → s.literal old) (stream : Stream) :
    Sure (PlainLiterals conversions ∧ w.tree.Coherent) (coerceSlot conversions stream n i dst style) w
      fun b w' ↦ Rewrites s (PlainLiterals conversions ∧ w.tree.Coherent) w.tree n b w'.tree := by
  refine ends_tree_bind ?_
  split
  · exact ends_pure .idle
  next e he =>
    obtain ⟨hchild, hexpression⟩ := Option.filter_eq_some_iff.1 he
    split
    · exact ends_pure .idle
    · exact ends_pure .idle
    next coercion hne hcoercion =>
      have hdst := hdst hcoercion hne
      refine Ends.bind (Ends.discard ?_) fun _ _ h ↦ ends_pure h
      cases coercion with
      | unchanged => exact absurd rfl hne
      | retype =>
        exact sure_retype hchild hexpression stream htargets hdst (hold hchild) fun hgood ↦
          ⟨hgood.2, exists_literal_of_retype hgood.1 hcoercion⟩
      | wrap => exact sure_wrap hchild hexpression stream (htargets.type hdst (.refl _)) And.right

theorem safe_coerceSlot (hplain : PlainLiterals conversions) (ht : w.tree.Coherent)
    (stream : Stream) (parent : NodeId) (index : Nat) (dst : NodeId) (style : Style) :
    Safe (coerceSlot conversions stream parent index dst style) w fun b w' ↦
      Turn w.tree b w'.tree :=
  ((sure_coerceSlot Sources.targets_any (fun _ _ ↦ trivial) (fun _ _ _ ↦ trivial) stream).safe_of_good
    ⟨hplain, ht⟩).mono fun _ _ h ↦ h.turn ⟨hplain, ht⟩ ht

/-! ## The sweep -/

namespace Sweep

/-- Since `t`, a sweep is a turn as far as it has reported changes. -/
def Turned (t : Tree) (state : SweepState) (w : Workspace) : Prop := Turn t state.changed w.tree

theorem Turned.report {t : Tree} {state : SweepState} {w : Workspace} {m : Pass Bool}
    (h : Turned t state w) (hm : Safe m w fun b w' ↦ Turn w.tree b w'.tree) :
    Ends (¬·.IsStructural) m w (Reported (Turned t) state) :=
  (hm.mono fun _ _ hb ↦ Turn.trans h hb).ends

/-- The type of conditions is made beside the tree, and nothing else happens to it. -/
theorem steps_turned {t : Tree} {session : Session} (hplain : PlainLiterals session.conversions)
    (stream : Stream) (n : NodeId) (asks : Tree → Nat → NodeId → Style → Prop) (tests : Nat → Prop) :
    Steps session stream (¬·.IsStructural) (Turned t) n asks tests where
  slot h _ := h.report (safe_coerceSlot hplain h.coherent ..)
  condition h _ _ := h.report (safe_coerceSlot hplain h.coherent ..)
  boolType {state w} h _ := by
    obtain ⟨q, t', hrun, hgrowth, -, -, -, hnew⟩ := plainValueType_bool w.tree
    refine Safe.ends (safe_edit (Safe.of_ok hrun ?_))
    obtain ⟨hgrows, -⟩ := (growing_plainValueType .bool .const w.tree).post_of_ok hrun
    have hidle : Idle w.tree t' :=
      ⟨hgrowth.size_le, fun hn ↦ by rw [hgrowth.node_eq hn], fun hn hn' ↦ (hnew _ hn hn').1⟩
    have hstep : Step w.tree false t' :=
      ⟨.of_growth hgrowth, hgrowth.coherent h.coherent, fun _ ↦ hidle, fun hb ↦ by cases hb⟩
    exact (Turn.trans h ⟨hstep, hgrows.faithful h.coherent⟩).report (Bool.or_false _).symm

end Sweep

/-- A walk of a sweep whose visits keep to turns is a turn. -/
theorem isTurn_walk {visit : NodeId → Sweep Unit}
    (h : ∀ t w n, Sweep.Keeps (¬·.IsStructural) (Sweep.Turned t) w (visit n)) :
    IsTurn (Sweep.walk visit root) := by
  intro w ht
  refine safe_bind.2 (safe_walk SweepState.changed ht rfl ?_)
  intro state w' n hturn _
  exact safe_bind.2 (h w.tree w' n state hturn).safe

theorem isTurn_sweep {session : Session} (hplain : PlainLiterals session.conversions) :
    IsTurn (sweep session root) :=
  isTurn_walk fun _ _ n ↦ (Sweep.steps_turned hplain .coercer n _ _).keeps_node fun _ _ _ ↦ id

end Coercion

/-! ## Units -/

namespace Units.Resolution

open Coercion

variable {session : Session}

theorem sure_resolveKeyword {s : Sources} {w : Workspace} {n : NodeId} {word : Keyword} (good : Prop)
    (htype : ∀ {type q}, keywordType w.tree n word = some (type, q) → s.type type)
    (hn : w.tree.kind n = .expression (.keyword word)) :
    Sure good (resolveKeyword n word) w fun b w' ↦ Rewrites s good w.tree n b w'.tree := by
  refine ends_tree_bind ?_
  split
  next type qualifiers _ hsome =>
    refine Ends.bind ?_ fun _ _ h ↦ ends_pure h
    refine (crafts_typeReference (htype hsome)).lift.bind fun inner w₁ hinner ↦ ends_tree_bind ?_
    refine (hinner.around (NodeKind.isBuilt_qualified _) _).lift.bind fun q w₂ h ↦ ?_
    exact (sure_typed hn h).bind fun _ w₃ h₃ ↦ (Pass.safe_recordChange fun _ ↦ h₃).sure
  · exact ends_pure .idle

theorem isTurn_resolve (hplain : PlainLiterals session.conversions) :
    IsTurn (resolve session root) :=
  isTurn_walk fun _ _ n ↦ (Sweep.steps_turned hplain .unitResolver n _ fun _ ↦ True).keeps_resolveNode
    trivial fun h hkind ↦ h.report (((sure_resolveKeyword (s := .any) True (fun _ ↦ trivial) hkind).safe_of_good
      trivial).mono fun _ _ hb ↦ hb.turn trivial h.coherent)

end Units.Resolution

end ProtocolIR
