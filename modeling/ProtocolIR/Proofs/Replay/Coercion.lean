import ProtocolIR.Proofs.Padding.Condition

/-!
# Quiet sweeps are replayed

A sweep carries along whether it changed anything, and the type of conditions. Two sweeps are
*alike* while neither has changed anything and both have that type or neither has.
-/

namespace ProtocolIR

open Tree List

variable {b s s' : Tree} {n : NodeId}

/-- New types without scopes are padding. -/
theorem Tree.Padded.grow {t : Tree} (h : Padded b s) (hgrowth : Growth s t)
    (hnew : ∀ n, ¬s.Has n → t.Has n → (t.kind n).IsType ∧ t.scopeOf n = none) : Padded b t where
  rooted := h.rooted
  linked := hgrowth.linked h.linked
  size_le := h.size_le.trans hgrowth.size_le
  node_eq hn := by
    rw [hgrowth.node_eq (h.has hn)]
    exact h.node_eq hn
  scopes_eq := hgrowth.scopes_eq.trans h.scopes_eq
  extra_type := by
    intro n hn ht
    by_cases hs : s.Has n
    · rw [hgrowth.kind_eq hs]
      exact h.extra_type hn hs
    · exact (hnew n hs ht).1
  scopeOf_eq n := by
    refine Eq.trans ?_ (h.scopeOf_eq n)
    unfold scopeOf
    by_cases hs : s.Has n
    · rw [hgrowth.node_eq hs]
    · rw [node_of_not_has hs]
      by_cases ht : t.Has n
      · exact (hnew n hs ht).2
      · rw [node_of_not_has ht]

section

variable (h : Inset b s) {e : NodeId} {i : Nat}

include h

/-- The expression in a slot. -/
theorem Tree.Inset.filter_child_eq (hn : b.Has n) :
    ((s.child n i).filter fun e ↦ (s.kind e).isExpression) =
      (b.child n i).filter fun e ↦ (b.kind e).isExpression := by
  rw [h.child_eq hn]
  cases hc : b.child n i with
  | none => rfl
  | some c => simp only [Option.filter, h.kind_eq (h.base.has_of_child hc)]

/-- The type of the expression in a slot. -/
theorem Tree.Inset.operandType_eq (hn : b.Has n) :
    (s.child n i).bind s.expressionType = (b.child n i).bind b.expressionType := by
  rw [h.child_eq hn]
  exact Option.bind_congr fun e he ↦ h.expressionType_eq (h.base.has_of_child he)

/-- What the type of an expression stands for, if it is asked for as a condition. -/
theorem Tree.Inset.conditionType_eq (he : b.Has e) :
    (s.expressionType e).bind s.followedShape = (b.expressionType e).bind b.followedShape := by
  rw [h.expressionType_eq he]
  exact Option.bind_congr fun u hu ↦ h.followedShape_eq (h.base.has_of_expressionType hu)

end

namespace Coercion

/-! ## What is looked at -/

section Looks

variable {registry : Registry} {m dst : NodeId} {i : Nat} {source : TypeSource} {style : Style}

theorem has_of_read (hb : b.Linked) (h : source.read b n = some dst) : b.Has dst := by
  cases source with
  | declared => exact hb.has_of_child h
  | operand =>
    obtain ⟨e, -, htype⟩ := Option.bind_eq_some_iff.1 h
    exact hb.has_of_expressionType htype
  | result =>
    obtain ⟨f, -, hresult⟩ := Option.bind_eq_some_iff.1 h
    exact hb.has_of_resultType hresult
  | nothing => cases h

theorem Site.has (hb : b.Linked) (h : Site registry b n i dst style) : b.Has dst := by
  obtain ⟨source, -, hread⟩ := mem_looks_of_site h
  exact has_of_read hb hread

theorem has_of_mem_looks (hb : b.Linked) (hn : b.Has n) (h : .value i source style ∈ looks registry b n)
    (hsource : source = .declared m) : b.Has m := by
  subst hsource
  obtain rfl | ⟨_, _, -, hm⟩ := mem_parameters_of_mem_looks h
  · exact hn
  · exact hb.has_of_mem_parameters hm

theorem looks_eq (h : Padded b s) (hn : b.Has n) : looks registry s n = looks registry b n :=
  looks_congr (h.kind_eq hn) (by rw [h.slots_eq hn]) fun _ ↦ h.parameters_eq _

theorem read_eq (h : Padded b s) (hn : b.Has n) (hsource : ∀ {m}, source = .declared m → b.Has m) :
    source.read s n = source.read b n := by
  cases source with
  | declared m => exact h.child_eq (hsource rfl) 0
  | operand i => exact h.operandType_eq hn
  | result => exact h.enclosingResultType_eq hn
  | nothing => rfl

/-- The sites of the base are the same in a padding. -/
theorem Site.padded_iff (h : Padded b s) (hn : b.Has n) :
    Site registry s n i dst style ↔ Site registry b n i dst style := by
  have hread {source : TypeSource} (hlook : .value i source style ∈ looks registry b n) :
      source.read s n = source.read b n := read_eq h hn (has_of_mem_looks h.base hn hlook)
  constructor
  · intro hsite
    obtain ⟨source, hlook, hdst⟩ := mem_looks_of_site hsite
    rw [looks_eq h hn] at hlook
    exact site_of_mem_looks hlook ((hread hlook).symm.trans hdst)
  · intro hsite
    obtain ⟨source, hlook, hdst⟩ := mem_looks_of_site hsite
    exact site_of_mem_looks ((looks_eq h hn).symm ▸ hlook) ((hread hlook).trans hdst)

end Looks

/-! ## One slot -/

/-- If the first pass reports no change, neither does the second, and both leave their trees. -/
def StaysPut (m m' : Pass Bool) (s s' : Tree) : Prop :=
  Replays (· = false) (fun t t' _ c' ↦ c' = false ∧ t = s ∧ t' = s') m m' s s'

section StaysPut

variable {conversions : List Conversions} {parent dst dst' : NodeId} {style : Style}

theorem staysPut_false : StaysPut (pure false) (pure false) s s' :=
  replays_pure fun _ ↦ ⟨rfl, rfl, rfl⟩

/-- A value of the base that is left as it is for one type is left as it is for another one with
the same answers. -/
theorem staysPut_coerceSlot (h : Twin b s s') (hparent : b.Has parent)
    (hsame : ∀ e, b.Has e → (coerceExpression conversions s e dst style).toOption =
      (coerceExpression conversions s' e dst' style).toOption) (stream : Stream) (index : Nat) :
    StaysPut (coerceSlot conversions stream parent index dst style)
      (coerceSlot conversions stream parent index dst' style) s s' := by
  refine replays_tree_bind ?_
  rw [h.left.filter_child_eq hparent, h.right.filter_child_eq hparent]
  cases hvalue : (b.child parent index).filter fun e ↦ (b.kind e).isExpression with
  | none => exact staysPut_false
  | some e =>
    have he := h.base.has_of_child (Option.filter_eq_some_iff.1 hvalue).1
    have hsame := hsame e he
    dsimp only
    cases hanswer : coerceExpression conversions s e dst style with
    | error refusal =>
      rw [hanswer] at hsame
      cases hanswer' : coerceExpression conversions s' e dst' style with
      | error refusal' => exact staysPut_false
      | ok coercion => rw [hanswer'] at hsame; cases hsame
    | ok coercion =>
      rw [hanswer] at hsame
      cases coercion with
      | unchanged =>
        cases hanswer' : coerceExpression conversions s' e dst' style with
        | error refusal => rw [hanswer'] at hsame; cases hsame
        | ok coercion =>
          rw [hanswer'] at hsame
          cases hsame
          exact staysPut_false
      | retype | wrap => exact Loud.replays (loud_bind fun _ ↦ reports_true)

end StaysPut

/-! ## Sweeps in two paddings -/

namespace Sweep

/-- Both sweeps have the type of conditions, made beside the base, or neither has it yet. -/
def BoolTypes (b s s' : Tree) (q q' : Option NodeId) : Prop :=
  (q = none ∧ q' = none) ∨
    ∃ n n', q = some n ∧ q' = some n' ∧ (s.IsBool n ∧ ¬b.Has n) ∧ s'.IsBool n' ∧ ¬b.Has n'

structure Alike (b s s' : Tree) (state state' : SweepState) : Prop where
  later : Later b s s'
  unchanged : state.changed = false
  unchanged' : state'.changed = false
  boolTypes : BoolTypes b s s' state.boolType state'.boolType

/-- Once a change is reported it stays reported. -/
def Lasting {α : Type} (m : Sweep α) : Prop :=
  ∀ state : SweepState, state.changed ≠ false → Loud (fun r ↦ r.2.changed = false) (m state)

/-- From alike sweeps, a part that changes nothing leads to alike sweeps. -/
def Mirrors (b : Tree) {α : Type} (related : α × SweepState → α × SweepState → Prop) (m m' : Sweep α)
    (s s' : Tree) (state state' : SweepState) : Prop :=
  Replays (fun r ↦ r.2.changed = false) (fun t t' r r' ↦ Alike b t t' r.2 r'.2 ∧ related r r')
    (m state) (m' state') s s'

/-- A part of a sweep that is replayed where `p` holds of the base. -/
structure Mirrored (b : Tree) (p : Prop) (m : Sweep Unit) : Prop where
  lasting : Lasting m
  mirrors : p → ∀ {s s' state state'}, Alike b s s' state state' →
    Mirrors b (fun _ _ ↦ True) m m s s' state state'

section Rules

variable {p q : Prop} {α β : Type} {m : Sweep Unit}

theorem lasting_pure (a : α) : Lasting (pure a : Sweep α) := fun _ h ↦ loud_pure h

theorem lasting_get : Lasting (get : Sweep SweepState) := fun _ h ↦ loud_pure h

theorem lasting_lift (m : Pass α) : Lasting (liftM m : Sweep α) := by
  intro state h
  rw [run_lift]
  exact loud_bind fun _ ↦ loud_pure h

theorem lasting_modify {f : SweepState → SweepState}
    (hf : ∀ state : SweepState, state.changed ≠ false → (f state).changed ≠ false) :
    Lasting (modify f : Sweep PUnit) := fun state h ↦ loud_pure (hf state h)

theorem Lasting.bind {m : Sweep α} {k : α → Sweep β} (hm : Lasting m) (hk : ∀ a, Lasting (k a)) :
    Lasting (m >>= k) := by
  intro state hstate w r w' hrun
  rw [run_bind] at hrun
  obtain ⟨c, mid, hc, hrest⟩ := bind_eq_ok hrun
  exact hk c.1 c.2 (hm state hstate _ _ _ hc) _ _ _ hrest

theorem Mirrored.mono (h : Mirrored b p m) (hpq : q → p) : Mirrored b q m :=
  ⟨h.lasting, fun hq ↦ h.mirrors (hpq hq)⟩

theorem mirrored_return : Mirrored b p (pure ()) :=
  ⟨lasting_pure (), fun _ _ _ _ _ h ↦ replays_pure fun _ ↦ ⟨h, trivial⟩⟩

theorem mirrored_throw (f : Fault) : Mirrored b p (throw f) where
  lasting := fun _ _ _ _ _ hrun ↦ by cases hrun
  mirrors := by
    intro _ s s' state state' _ log log' r w hrun
    cases hrun

theorem Mirrored.bind {m' : Sweep Unit} (h : Mirrored b p m) (h' : Mirrored b p m') :
    Mirrored b p (m >>= fun _ ↦ m') where
  lasting := h.lasting.bind fun _ ↦ h'.lasting
  mirrors := by
    intro hp s s' state state' halike
    exact Replays.bind (h.mirrors hp halike) (fun r hr ↦ h'.lasting r.2 hr)
      fun t t' r r' _ hr ↦ h'.mirrors hp hr.1

theorem Mirrored.forM {ι : Type} {k : ι → Sweep Unit} {l : List ι}
    (hk : ∀ i ∈ l, Mirrored b p (k i)) : Mirrored b p (l.forM k) := by
  induction l with
  | nil => exact mirrored_return
  | cons i l ih =>
    exact (hk i mem_cons_self).bind (ih fun j hj ↦ hk j (mem_cons_of_mem i hj))

/-- What is read from a padding is what the base has. -/
theorem mirrored_tree {k : Tree → Sweep Unit} (hread : ∀ {s}, p → Padded b s → k s = k b)
    (hk : ∀ u, Mirrored b (p ∧ u = b) (k u)) : Mirrored b p (liftM Pass.tree >>= k) where
  lasting := (lasting_lift _).bind fun u ↦ (hk u).lasting
  mirrors := by
    intro hp s s' state state' halike
    have hmirrors := (hk b).mirrors ⟨hp, rfl⟩ halike
    have hreads : Mirrors b (fun _ _ ↦ True) (k s) (k s') s s' state state' := by
      rw [hread hp halike.later.left, hread hp halike.later.right]
      exact hmirrors
    exact hreads

end Rules

/-! ### Reporting a change -/

section Report

variable {p : Prop} {state state' : SweepState}

theorem lasting_report (m : Pass Bool) : Lasting (do
    let changed ← (liftM m : Sweep Bool)
    modify fun s ↦ { s with changed := s.changed || changed }) := by
  refine (lasting_lift m).bind fun changed ↦ lasting_modify fun state hstate ↦ ?_
  rw [Bool.eq_true_of_not_eq_false hstate, Bool.true_or]
  exact Bool.noConfusion

theorem mirrors_report {m m' : Pass Bool} (h : StaysPut m m' s s') (halike : Alike b s s' state state') :
    Mirrors b (fun _ _ ↦ True)
      (do
        let changed ← (liftM m : Sweep Bool)
        modify fun s ↦ { s with changed := s.changed || changed })
      (do
        let changed ← (liftM m' : Sweep Bool)
        modify fun s ↦ { s with changed := s.changed || changed }) s s' state state' := by
  unfold Mirrors
  rw [run_bind, run_bind, run_lift, run_lift, bind_assoc, bind_assoc]
  refine Replays.bind h (fun c hc ↦ ?_) fun t t' c c' hc hput ↦ ?_
  · rw [Bool.eq_true_of_not_eq_false hc]
    exact loud_pure (by simp)
  · obtain ⟨rfl, rfl, rfl⟩ := hput
    refine replays_pure fun _ ↦ ⟨⟨halike.later, ?_, ?_, halike.boolTypes⟩, trivial⟩
    · show (state.changed || c) = false
      rw [halike.unchanged, hc, Bool.or_false]
    · show (state'.changed || false) = false
      rw [halike.unchanged', Bool.or_false]

end Report

section Parts

variable {session : Session} (stream : Stream)

theorem mirrored_slot (htame : Tame session.conversions) (parent : NodeId) (index : Nat) (dst : NodeId)
    (style : Style) :
    Mirrored b (b.Has parent ∧ b.Has dst) (slot session stream parent index dst style) where
  lasting := lasting_report _
  mirrors := by
    rintro ⟨hparent, hdst⟩ s s' state state' halike
    refine mirrors_report (staysPut_coerceSlot halike.later.toTwin hparent (fun e he ↦ ?_) _ _) halike
    rw [coerceExpression_eq htame.steady halike.later.left.toInset he hdst,
      coerceExpression_eq htame.steady halike.later.right.toInset he hdst]

theorem lasting_boolType : Lasting boolType := by
  refine lasting_get.bind fun state ↦ ?_
  split
  · exact lasting_pure _
  refine (lasting_lift _).bind fun type ↦ Lasting.bind (lasting_modify ?_) fun _ ↦ lasting_pure _
  exact fun _ h ↦ h

/-- The type of conditions is there afterwards. -/
theorem mirrors_boolType {state state' : SweepState} (halike : Alike b s s' state state') :
    Mirrors b (fun r r' ↦ r.2.boolType = some r.1 ∧ r'.2.boolType = some r'.1) boolType boolType s s'
      state state' := by
  unfold Mirrors
  rcases halike.boolTypes with ⟨hnone, hnone'⟩ | ⟨q, q', hq, hq', -⟩
  · rw [boolType_of_none hnone, boolType_of_none hnone']
    obtain ⟨n, t, hrun, hgrowth, hpiece, hbool, hsize, hnew⟩ := plainValueType_bool s
    obtain ⟨n', t', hrun', hgrowth', hpiece', hbool', hsize', hnew'⟩ := plainValueType_bool s'
    have hlater := halike.later
    have hlater' : Later b t t' :=
      { left := hlater.left.grow hgrowth hnew
        right := hlater.right.grow hgrowth' hnew'
        size_le := by have := hlater.size_le; omega }
    have hout : ¬b.Has n := fun hn ↦ hpiece.new (hlater.left.has hn)
    have hout' : ¬b.Has n' := fun hn ↦ hpiece'.new (hlater.right.has hn)
    refine replays_edit_bind fun c u hc ↦ .inr ⟨n', t', hrun', ?_⟩
    cases hrun.symm.trans hc
    refine replays_pure fun _ ↦ ⟨⟨hlater', halike.unchanged, halike.unchanged', ?_⟩, rfl, rfl⟩
    exact .inr ⟨n, n', rfl, rfl, ⟨hbool, hout⟩, hbool', hout'⟩
  · rw [boolType_of_some hq, boolType_of_some hq']
    exact replays_pure fun _ ↦ ⟨halike, hq, hq'⟩

/-- A condition is left as it is whatever node the type of conditions is. -/
theorem mirrored_conditionSlot (htame : Tame session.conversions) (parent : NodeId) (index : Nat) :
    Mirrored b (b.Has parent) (do slot session stream parent index (← boolType) .ofCondition) where
  lasting := lasting_boolType.bind fun _ ↦ lasting_report _
  mirrors := by
    intro hparent s s' state state' halike
    unfold Mirrors
    rw [run_bind, run_bind]
    refine Replays.bind (mirrors_boolType halike) (fun r hr ↦ lasting_report _ _ hr) ?_
    rintro t t' ⟨q, mid⟩ ⟨q', mid'⟩ - ⟨halike, hq, hq'⟩
    refine mirrors_report (staysPut_coerceSlot halike.later.toTwin hparent (fun e he ↦ ?_) _ _) halike
    rcases halike.boolTypes with ⟨hnone, -⟩ | ⟨n, n', hn, hn', hbool, hbool'⟩
    · rw [hq] at hnone
      cases hnone
    · cases hq.symm.trans hn
      cases hq'.symm.trans hn'
      rw [coerceExpression_condition halike.later.left.toInset htame hbool.1 he,
        coerceExpression_condition halike.later.right.toInset htame hbool'.1 he]

variable (hbase : b.Linked) (htame : Tame session.conversions)

include htame

theorem mirrored_condition (parent : NodeId) (index : Nat) :
    Mirrored b (b.Has parent) (condition session stream parent index) := by
  refine mirrored_tree (fun {s} hparent h ↦ ?_) fun u ↦ ?_
  · rw [h.child_eq hparent]
    cases hc : b.child parent index with
    | none => rfl
    | some e =>
      dsimp only
      rw [h.conditionType_eq (h.base.has_of_child hc)]
  · split
    · exact mirrored_return
    split
    · exact mirrored_return
    · exact (mirrored_conditionSlot stream htame parent index).mono And.left

include hbase

theorem mirrored_value (n : NodeId) (i : Nat) (source : TypeSource) (style : Style) :
    Mirrored b (b.Has n ∧ ∀ {m}, source = .declared m → b.Has m)
      (look session stream n (.value i source style)) := by
  refine mirrored_tree (fun ⟨hn, hsource⟩ h ↦ by rw [read_eq h hn hsource]) fun u ↦ ?_
  split
  next dst hdst =>
    refine (mirrored_slot stream htame n i dst style).mono ?_
    rintro ⟨⟨hn, -⟩, rfl⟩
    exact ⟨hn, has_of_read hbase hdst⟩
  · exact mirrored_return

theorem mirrored_look {u : Tree} {look : Look} (hlook : look ∈ looks session.registry u n) :
    Mirrored b (b.Has n ∧ u = b) (Sweep.look session stream n look) := by
  cases look with
  | value i source style =>
    refine (mirrored_value stream hbase htame n i source style).mono ?_
    rintro ⟨hn, rfl⟩
    exact ⟨hn, has_of_mem_looks hbase hn hlook⟩
  | condition i => exact (mirrored_condition stream htame n i).mono And.left
  | unknown => exact mirrored_throw _

theorem mirrored_node (n : NodeId) : Mirrored b (b.Has n) (node session stream n) := by
  rw [node_eq]
  exact mirrored_tree (fun hn h ↦ by rw [looks_eq h hn]) fun u ↦
    Mirrored.forM fun _ hlook ↦ mirrored_look stream hbase htame hlook

end Parts

end Sweep

/-- A walk of a sweep whose visits are replayed is replayed. -/
theorem stays_walk {visit : NodeId → Sweep Unit}
    (hvisit : ∀ n, Sweep.Mirrored b (b.Has n) (visit n)) (h : Later b s s') :
    StaysQuiet b (Sweep.walk visit root) (Sweep.walk visit root) s s' := by
  have hstart : Sweep.Alike b s s' {} {} := ⟨h, rfl, rfl, .inl ⟨rfl, rfl⟩⟩
  refine Replays.bind (replays_walk (fun halike ↦ halike.later.toTwin) ?_ ?_ hstart)
    (fun state hstate ↦ loud_pure hstate) ?_
  · intro state n hstate w r w' hrun
    obtain ⟨c, mid, hc, hrest⟩ := bind_eq_ok hrun
    cases hrest
    exact (hvisit n).lasting state hstate _ _ _ hc
  · intro t t' state state' n hn _ halike
    refine Replays.bind ((hvisit n).mirrors hn halike) (fun r hr ↦ loud_pure hr) ?_
    exact fun _ _ _ _ _ hr ↦ replays_pure fun _ ↦ hr.1
  · intro t t' state state' _ halike
    exact replays_pure fun _ ↦ ⟨halike.unchanged', halike.later⟩

/-- A sweep that converts nothing converts nothing in another padding. -/
theorem stays_sweep_coercions {session : Session} (htame : Tame session.conversions)
    (h : Later b s s') : StaysQuiet b (sweep session root) (sweep session root) s s' :=
  stays_walk (fun n ↦ Sweep.mirrored_node .coercer h.base htame n) h

end Coercion

end ProtocolIR
