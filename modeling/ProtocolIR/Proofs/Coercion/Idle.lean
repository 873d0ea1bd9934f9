import ProtocolIR.Proofs.Coercion.Walk

/-!
# Sweeps of settled nodes

At a settled node a sweep finds nothing to do. It may still make the type of conditions, which no
node of the tree holds; beside such types all is read as before, so the sweep returns, reports no
change and leaves every node as it was.
-/

namespace ProtocolIR.Coercion

open Tree Returns

variable {session : Session} {b s : Tree} {n dst q : NodeId} {i : Nat} {style : Style} {w : Workspace}

theorem coerceSlot_of_still (stream : Stream) (h : Still session w.tree n i dst style) :
    coerceSlot session.conversions stream n i dst style w = .ok (false, w) := by
  refine Pass.tree_bind.trans ?_
  cases hvalue : (w.tree.child n i).filter fun e ↦ (w.tree.kind e).isExpression with
  | none => rfl
  | some e =>
    obtain ⟨hchild, hexpression⟩ := Option.filter_eq_some_iff.1 hvalue
    dsimp only
    cases hok : coerceExpression session.conversions w.tree e dst style with
    | error refusal => rfl
    | ok c =>
      rw [h e c hchild hexpression hok]
      rfl

/-- The answer for an expression of the base is the answer in the base. -/
theorem still_of_toOption (h : Inset b s) (hn : b.Has n)
    (hanswer : ∀ e c, b.child n i = some e → (b.kind e).isExpression = true →
      (coerceExpression session.conversions s e dst style).toOption = some c → c = .unchanged) :
    Still session s n i dst style := by
  intro e c he hexpression hok
  rw [h.child_eq hn] at he
  rw [h.kind_eq (h.base.has_of_child he)] at hexpression
  exact hanswer e c he hexpression (by rw [hok]; rfl)

theorem still_of_site (hregular : session.Regular) (h : Inset b s) (hn : b.Has n)
    (hsite : Site session.registry b n i dst style) (hcalm : Calm session b n i) :
    Still session s n i dst style := by
  refine still_of_toOption h hn fun e c he hexpression hanswer ↦ ?_
  rw [coerceExpression_eq hregular.steady h (h.base.has_of_child he) (hsite.has h.base)] at hanswer
  cases hok : coerceExpression session.conversions b e dst style with
  | ok c' =>
    rw [hok] at hanswer
    cases hanswer
    exact hcalm.value hsite he hexpression hok
  | error refusal =>
    rw [hok] at hanswer
    cases hanswer

theorem still_of_isCondition (hregular : session.Regular) (h : Inset b s) (hn : b.Has n)
    (hcondition : (b.kind n).IsCondition i) (hcalm : Calm session b n i) (hbool : s.IsBool q)
    (hunmet : ∀ {e}, b.child n i = some e → (b.expressionType e).bind b.followedShape ≠ some .bool) :
    Still session s n i q .ofCondition := by
  refine still_of_toOption h hn fun e c he hexpression hanswer ↦ ?_
  rw [coerceExpression_condition h hregular.tame hbool (h.base.has_of_child he)] at hanswer
  exact (hcalm.condition hcondition he hexpression).resolve_left (hunmet he) c hanswer

namespace Sweep

variable {state : SweepState}

/-- Nothing was changed; the tree has only grown by types that nothing holds. -/
structure Quiet (b s : Tree) (state : SweepState) : Prop where
  growth : Growth b s
  padded : Padded b s
  unchanged : state.changed = false
  isBool : ∀ {q}, state.boolType = some q → s.IsBool q

/-- What is asked for beside such types is a site of the base. -/
theorem site_of_asked {registry : Registry} {seen : Tree → Prop} (hseen : ∀ {t}, seen t → Padded b t)
    (h : Padded b s) (hn : b.Has n) (hask : Asked registry seen s n i dst style) :
    Site registry b n i dst style := by
  obtain ⟨t₀, source, hread, hlook, hdst⟩ := hask
  rw [looks_eq (hseen hread) hn] at hlook
  rw [read_eq h hn (has_of_mem_looks h.base hn hlook)] at hdst
  exact site_of_mem_looks hlook hdst

theorem Quiet.report (stream : Stream) (hquiet : Quiet b w.tree state)
    (hstill : Still session w.tree n i dst style) :
    Ends (fun _ ↦ False) (coerceSlot session.conversions stream n i dst style) w
      (Reported (fun state w ↦ Quiet b w.tree state) state) :=
  ends ⟨false, w, coerceSlot_of_still stream hstill, hquiet.growth, hquiet.padded,
    (Bool.or_false _).trans hquiet.unchanged, hquiet.isBool⟩

/-- A visit of a settled node returns and changes nothing. -/
theorem returns_node (stream : Stream) (hregular : session.Regular) (hn : b.Has n)
    (hsettled : Settled session b n) (hquiet : Quiet b w.tree state) :
    Returns (node session stream n state) w fun r w' ↦ Quiet b w'.tree r.2 := by
  have hseen : ∀ {t}, Seen (fun state w ↦ Quiet b w.tree state) t → Padded b t := by
    rintro _ ⟨_, _, hquiet, rfl⟩
    exact hquiet.padded
  suffices hkeeps : Keeps (fun _ ↦ False) (fun state w ↦ Quiet b w.tree state) w (node session stream n) from
    (hkeeps state hquiet).returns
  refine Steps.keeps_node ⟨fun h hask ↦ ?_, fun h hq htest ↦ ?_, fun {_ w} h _ ↦ ?_⟩
    fun ht hkind hnone ↦ ?_
  · exact h.report stream
      (still_of_site hregular h.padded.toInset hn (site_of_asked hseen h.padded hn hask) (hsettled.calm _))
  · obtain ⟨⟨t₁, ht₁, hcondition⟩, t₂, ht₂, hunmet⟩ := htest
    have hpadded := hseen ht₂
    rw [(hseen ht₁).kind_eq hn] at hcondition
    refine h.report stream (still_of_isCondition hregular h.padded.toInset hn hcondition (hsettled.calm _)
      (h.isBool hq) fun {e} he hmet ↦ hunmet e ?_ ?_)
    · rw [hpadded.child_eq hn, he]
    · rw [hpadded.conditionType_eq (hpadded.base.has_of_child he), hmet]
  · obtain ⟨q, t', hrun, hgrowth, -, hbool, -, hnew⟩ := plainValueType_bool w.tree
    refine ends ⟨q, ⟨t', w.log⟩, edit_of_ok hrun, h.growth.trans hgrowth,
      h.padded.grow hgrowth hnew, h.unchanged, fun hq ↦ ?_⟩
    cases hq
    exact hbool
  · rw [(hseen ht).kind_eq hn] at hkind
    exact hsettled.known hkind hnone

end Sweep

/-- A sweep of a settled tree returns, reports no change and leaves all nodes as they were. -/
theorem returns_sweep_of_settled (hregular : session.Regular) (hb : w.tree.Rooted)
    (hsettled : ∀ {m}, w.tree.Within root m → Settled session w.tree m) :
    Returns (sweep session root) w fun changed w' ↦
      changed = false ∧ Growth w.tree w'.tree ∧ Padded w.tree w'.tree := by
  have hstart : Sweep.Quiet w.tree w.tree {} := ⟨.refl w.tree, .refl hb, rfl, nofun⟩
  have hvisits : Returns (Pass.walk .post root ({} : SweepState) fun state n ↦ do
      return (← (Sweep.node session .coercer n).run state).2) w
      fun state w' ↦ Sweep.Quiet w.tree w'.tree state := by
    refine tree_bind.2 (foldlM (fun state w' n hn hquiet ↦ tree_bind.2 ?_) hstart)
    have hhas := hb.toLinked.has_of_mem_ordered hb.has_root .post hn
    split
    next hwithin =>
      rw [hquiet.padded.isWithin_eq hhas, hb.isWithin_iff] at hwithin
      have hnode := Sweep.returns_node .coercer hregular hhas (hsettled hwithin) hquiet
      exact hnode.bind fun r w'' hquiet' ↦ ⟨r.2, w'', rfl, hquiet'⟩
    · exact ⟨state, w', rfl, hquiet⟩
  exact hvisits.bind fun state w' hquiet ↦
    ⟨state.changed, w', rfl, hquiet.unchanged, hquiet.growth, hquiet.padded⟩

end ProtocolIR.Coercion
