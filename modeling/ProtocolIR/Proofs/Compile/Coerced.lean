import ProtocolIR.Proofs.Compile.Checks
import ProtocolIR.Proofs.Compile.Stages
import ProtocolIR.Proofs.Round.Termination

/-!
# Values have the types of their places

A coercion sweep that reports no change has looked at every place for a value and left each as it
was, because nothing was to be done or because nothing could be done. The checks report the latter.
So after a compilation that reached its fixed point and passed its checks, every value needs nothing
more to be of the type of its place.
-/

namespace ProtocolIR

open Tree List

variable {b s t : Tree} {n parent e dst : NodeId} {index : Nat} {style : Style} {session : Session}
  {stream : Stream} {w w' : Workspace}

/-- The value in a slot of the base is the value in a padding. -/
theorem Tree.Padded.filter_child_eq_some (h : Padded b s)
    (hparent : b.Has parent) (he : b.child parent index = some e) (hkind : (b.kind e).isExpression) :
    ((s.child parent index).filter fun e ↦ (s.kind e).isExpression) = some e := by
  rw [h.filter_child_eq hparent, he, Option.filter, if_pos hkind]

namespace Coercion

/-- A coercion that is carried out is reported. -/
theorem reports_coerceSlot {conversions : List Conversions} {coercion : Coercion}
    (he : ((w.tree.child parent index).filter fun e ↦ (w.tree.kind e).isExpression) = some e)
    (hcoercion : coerceExpression conversions w.tree e dst style = .ok coercion)
    (hne : coercion ≠ .unchanged) :
    Ensures (coerceSlot conversions stream parent index dst style) w fun changed _ ↦ changed = true := by
  refine ensures_tree_bind ?_
  rw [he]
  dsimp only
  rw [hcoercion]
  intro changed w' hrun
  cases coercion with
  | unchanged => exact absurd rfl hne
  | _ =>
    obtain ⟨_, _, -, hreturn⟩ := bind_eq_ok hrun
    cases hreturn
    rfl

namespace Sweep

/-! ## Quiet parts of a sweep -/

/-- A part of a sweep ran somewhere in a padding of `b` and reported no change. -/
def RanQuietly (b : Tree) (m : Sweep Unit) : Prop :=
  ∃ w state r w', Alike b w.tree w.tree state state ∧ m state w = .ok (r, w') ∧ r.2.changed = false

section Quiet

variable {p : Prop} {m : Sweep Unit} {state : SweepState} {r : Unit × SweepState} {coercion : Coercion}

/-- After a quiet part the next one starts in a padding again. -/
theorem Mirrored.alike (h : Mirrored b p m) (hp : p) (halike : Alike b w.tree w.tree state state)
    (hrun : m state w = .ok (r, w')) (hquiet : r.2.changed = false) :
    Alike b w'.tree w'.tree r.2 r.2 := by
  obtain ⟨r', w'', hrun', hr', -⟩ := h.mirrors hp halike w.log w.log r w' hrun hquiet
  cases hrun.symm.trans hrun'
  exact hr'

theorem RanQuietly.of_tree {k : Tree → Sweep Unit} (h : RanQuietly b (liftM Pass.tree >>= k))
    (hread : ∀ {s}, Padded b s → k s = k b) : RanQuietly b (k b) := by
  obtain ⟨w, state, r, w', halike, hrun, hquiet⟩ := h
  have hk : k w.tree state w = .ok (r, w') := hrun
  rw [hread halike.later.left] at hk
  exact ⟨w, state, r, w', halike, hk, hquiet⟩

/-- If all parts together are quiet, each of them is. -/
theorem RanQuietly.of_forM {ι : Type} {k : ι → Sweep Unit} {l : List ι} (h : RanQuietly b (l.forM k))
    (hk : ∀ i ∈ l, Mirrored b p (k i)) (hp : p) : ∀ i ∈ l, RanQuietly b (k i) := by
  obtain ⟨w, state, r, w', halike, hrun, hquiet⟩ := h
  induction l generalizing w state with
  | nil => simp
  | cons i rest ih =>
    have hrest : ∀ j ∈ rest, Mirrored b p (k j) := fun j hj ↦ hk j (mem_cons_of_mem i hj)
    obtain ⟨c, mid, hfirst, hlast⟩ := bind_eq_ok (show (k i state >>= fun r ↦ rest.forM k r.2) w =
      .ok (r, w') from hrun)
    have hmid : c.2.changed = false := by
      by_contra hne
      exact (Mirrored.forM hrest).lasting c.2 hne _ _ _ hlast hquiet
    have halike' := (hk i mem_cons_self).alike hp halike hfirst hmid
    intro j hj
    rcases mem_cons.1 hj with rfl | hj
    · exact ⟨w, state, c, mid, halike, hfirst, hmid⟩
    · exact ih hrest mid c.2 halike' hlast j hj

/-- A slot that is left alone holds a value for which nothing was to be done. -/
theorem unchanged_of_slot (hrun : slot session stream parent index dst style state w = .ok (r, w'))
    (hquiet : r.2.changed = false)
    (he : ((w.tree.child parent index).filter fun e ↦ (w.tree.kind e).isExpression) = some e)
    (hcoercion : coerceExpression session.conversions w.tree e dst style = .ok coercion) :
    coercion = .unchanged := by
  by_contra hne
  unfold slot at hrun
  rw [run_bind, run_lift, bind_assoc] at hrun
  obtain ⟨changed, mid, hslot, hend⟩ := bind_eq_ok hrun
  have htrue := reports_coerceSlot he hcoercion hne changed mid hslot
  cases hend
  simp [htrue] at hquiet

/-- A value that is left alone is of the right type already, or cannot get it. -/
theorem RanQuietly.unchanged (htame : Tame session.conversions)
    (h : RanQuietly b (slot session stream parent index dst style)) (hparent : b.Has parent)
    (hdst : b.Has dst) (he : b.child parent index = some e) (hkind : (b.kind e).isExpression)
    (hcoercion : coerceExpression session.conversions b e dst style = .ok coercion) :
    coercion = .unchanged := by
  obtain ⟨w, state, r, w', halike, hrun, hquiet⟩ := h
  have hpadded := halike.later.left
  have hhas := hpadded.base.has_of_child he
  have hanswer : coerceExpression session.conversions w.tree e dst style = .ok coercion :=
    Below.of_toOption_eq (coerceExpression_eq htame.steady hpadded.toInset hhas hdst).symm coercion hcoercion
  exact unchanged_of_slot hrun hquiet (hpadded.filter_child_eq_some hparent he hkind) hanswer

end Quiet

section Walk

variable {visit : NodeId → Sweep Unit}

/-- One visit of a walk that is still beneath the root when its turn comes. -/
def visitWithin (visit : NodeId → Sweep Unit) (state : SweepState) (n : NodeId) : Pass SweepState := do
  if (← Pass.tree).isWithin n root then return (← (visit n).run state).2 else return state

theorem loud_visitWithin (hvisit : ∀ n, Mirrored b (b.Has n) (visit n)) (state : SweepState) (n : NodeId)
    (hstate : ¬state.changed = false) : Loud (·.changed = false) (visitWithin visit state n) := by
  refine loud_bind fun t ↦ ?_
  split
  · intro w c w' hrun
    obtain ⟨r, mid, hr, hreturn⟩ := bind_eq_ok hrun
    cases hreturn
    exact (hvisit n).lasting state hstate _ _ _ hr
  · exact loud_pure hstate

/-- The visits of a quiet walk ran quietly, one after the other. -/
theorem ranQuietly_of_foldlM (hvisit : ∀ n, Mirrored b (b.Has n) (visit n)) {l : List NodeId}
    (hl : ∀ n ∈ l, b.Has n) {state state' : SweepState}
    (halike : Alike b w.tree w.tree state state)
    (hrun : l.foldlM (visitWithin visit) state w = .ok (state', w')) (hquiet : state'.changed = false) :
    ∀ n ∈ l, b.isWithin n root → RanQuietly b (visit n) := by
  induction l generalizing w state with
  | nil => simp
  | cons m rest ih =>
    have hrest : ∀ n ∈ rest, b.Has n := fun n hn ↦ hl n (mem_cons_of_mem m hn)
    have hm := hl m mem_cons_self
    rw [foldlM_cons] at hrun
    obtain ⟨state₁, w₁, hstep, hlast⟩ := bind_eq_ok hrun
    have hstate₁ : state₁.changed = false := by
      by_contra hne
      exact loud_foldlM (loud_visitWithin hvisit) hne _ _ _ hlast hquiet
    have hstep : (if w.tree.isWithin m root then do return (← (visit m).run state).2
        else return state : Pass SweepState) w = .ok (state₁, w₁) := hstep
    rw [halike.later.left.isWithin_eq hm] at hstep
    intro n hn hwithin
    split at hstep
    next hmwithin =>
      obtain ⟨r, mid, hr, hreturn⟩ := bind_eq_ok hstep
      cases hreturn
      have halike₁ := (hvisit m).alike hm halike hr hstate₁
      rcases mem_cons.1 hn with rfl | hn
      · exact ⟨w, state, r, w₁, halike, hr, hstate₁⟩
      · exact ih hrest halike₁ hlast n hn hwithin
    next hout =>
      cases hstep
      rcases mem_cons.1 hn with rfl | hn
      · exact absurd hwithin hout
      · exact ih hrest halike hlast n hn hwithin

/-- If a walk from the root is quiet, so is its visit of each node beneath the root. -/
theorem ranQuietly_of_walk (ht : w.tree.Rooted)
    (hvisit : ∀ n, Mirrored w.tree (w.tree.Has n) (visit n))
    (hrun : Sweep.walk visit root w = .ok (false, w')) (hn : w.tree.Within root n) :
    RanQuietly w.tree (visit n) := by
  obtain ⟨state, w₁, hwalk, hreturn⟩ := bind_eq_ok hrun
  have hquiet : state.changed = false := congrArg Prod.fst (Except.ok.inj hreturn)
  have halike : Alike w.tree w.tree w.tree {} {} :=
    ⟨⟨.refl ht, .refl ht, Nat.le_refl _⟩, rfl, rfl, .inl ⟨rfl, rfl⟩⟩
  have hfold : (w.tree.ordered .post root).foldlM (visitWithin visit) {} w = .ok (state, w₁) := hwalk
  have hhas := hn.has ht.has_root
  refine ranQuietly_of_foldlM hvisit (fun m hm ↦ ht.toLinked.has_of_mem_ordered ht.has_root .post hm)
    halike hfold hquiet n ?_ (ht.isWithin_iff.2 hn)
  exact ht.mem_ordered .post hhas hn

theorem ranQuietly_of_sweep (htame : Tame session.conversions) (ht : w.tree.Rooted)
    (hrun : sweep session root w = .ok (false, w')) (hn : w.tree.Within root n) :
    RanQuietly w.tree (node session .coercer n) :=
  ranQuietly_of_walk ht (fun m ↦ mirrored_node .coercer ht.toLinked htame m) hrun hn

end Walk

end Sweep

end Coercion

/-! ## Places for values -/

/-- A slot of a node is for a value of some type, to be reached in some style. -/
inductive Tree.Place (t : Tree) (n : NodeId) : Nat → NodeId → Style → Prop
  | initial {d : Declaration} {type : NodeId} : t.kind n = .declaration d →
    d.kind ∈ [.constant, .globalVariable, .localVariable] → t.child n 0 = some type →
      Place t n 1 type .ofAssignment
  | assigned {target type : NodeId} : t.kind n = .expression .assign → t.child n 0 = some target →
    t.expressionType target = some type → Place t n 1 type .ofAssignment
  | returned {result : NodeId} : t.kind n = .statement .ret → t.enclosingResultType n = some result →
    Place t n 0 result .ofAssignment
  | argument {kind : OperatorKind} {link : Link} {k : Nat} {parameter type : NodeId} :
    t.kind n = .expression (.resolved kind (.function link)) →
      (t.parameters link.node)[k]? = some parameter → t.child parameter 0 = some type →
        Place t n ((if kind = .memberCall then 3 else 2) + k) type .ofCall

/-- The kinds of nodes all sites of which are places. -/
def NodeKind.HasPlaces : NodeKind → Prop
  | .declaration d => d.kind ∈ [.constant, .globalVariable, .localVariable]
  | .expression (.resolved _ (.builtin _)) => False
  | _ => True

namespace Tree

theorem place_iff_site (registry : Registry) : b.Place n index dst style ↔
    Coercion.Site registry b n index dst style ∧ (b.kind n).HasPlaces := by
  have hfirst {kind : OperatorKind} : Coercion.firstArgument kind = if kind = .memberCall then 3 else 2 := by
    simp [Coercion.firstArgument]
  constructor
  · rintro (⟨hkind, hd, htype⟩ | ⟨hkind, htarget, htype⟩ | ⟨hkind, hresult⟩ | ⟨hkind, hparameter, htype⟩)
    · refine ⟨.declared hkind ?_ htype, by rw [hkind]; exact hd⟩
      simp only [mem_cons, not_mem_nil, or_false] at hd
      rcases hd with hd | hd | hd <;> · rw [hd]; rfl
    · exact ⟨.assigned hkind htarget htype, by rw [hkind]; trivial⟩
    · exact ⟨.returned hkind hresult, by rw [hkind]; trivial⟩
    · exact ⟨hfirst ▸ .argument hkind hparameter htype, by rw [hkind]; trivial⟩
  · rintro ⟨hsite, hplaces⟩
    cases hsite with
    | declared hkind _ htype => exact .initial hkind (by rwa [hkind] at hplaces) htype
    | returned hkind hresult => exact .returned hkind hresult
    | assigned hkind htarget htype => exact .assigned hkind htarget htype
    | operand hkind => rw [hkind] at hplaces; exact hplaces.elim
    | argument hkind hparameter htype => exact hfirst ▸ .argument hkind hparameter htype

/-- The places at a node of the base are the same in a padding. -/
theorem Padded.place_iff (h : Padded b s) (hn : b.Has n) :
    s.Place n index dst style ↔ b.Place n index dst style := by
  rw [place_iff_site .empty, place_iff_site .empty, Coercion.Site.padded_iff h hn, h.kind_eq hn]

end Tree

/-! ## The two ways to look at places -/

namespace Coercion.Sweep

/-- A sweep takes every look at a node it visits. -/
theorem RanQuietly.of_look (htame : Tame session.conversions) (ht : t.Linked) (hn : t.Has n)
    (h : RanQuietly t (node session stream n)) {look : Look} (hlook : look ∈ looks session.registry t n) :
    RanQuietly t (Sweep.look session stream n look) := by
  rw [node_eq] at h
  have hall := h.of_tree fun hs ↦ by rw [looks_eq hs hn]
  exact hall.of_forM (fun _ hlook ↦ mirrored_look stream ht htame hlook) ⟨hn, rfl⟩ look hlook

theorem RanQuietly.of_value {source : TypeSource}
    (h : RanQuietly t (look session stream n (.value index source style))) (hn : t.Has n)
    (hsource : ∀ {m}, source = .declared m → t.Has m) (hdst : source.read t n = some dst) :
    RanQuietly t (slot session stream n index dst style) := by
  have hslot := RanQuietly.of_tree h fun hs ↦ by rw [read_eq hs hn hsource]
  rw [hdst] at hslot
  exact hslot

theorem RanQuietly.of_site (htame : Tame session.conversions) (ht : t.Linked) (hn : t.Has n)
    (h : RanQuietly t (node session stream n)) (hsite : Site session.registry t n index dst style) :
    RanQuietly t (slot session stream n index dst style) := by
  obtain ⟨source, hlook, hdst⟩ := mem_looks_of_site hsite
  exact (h.of_look htame ht hn hlook).of_value hn (has_of_mem_looks ht hn hlook) hdst

end Coercion.Sweep

namespace Validation

/-- The checks look at every place of a node they are about. -/
theorem checkCoercion_of_place (h : postErrors t session n = .ok []) (hplace : t.Place n index dst style)
    {e : NodeId} (he : t.child n index = some e) : checkCoercion t session n index dst style = .ok [] := by
  unfold postErrors at h
  cases hplace with
  | @initial d _ hkind hd htype =>
    rw [hkind] at h
    have hvariable : checkVariable t session n d = .ok [] := by
      simp only [mem_cons, not_mem_nil, or_false] at hd
      rcases hd with hd | hd | hd <;> · simp only [hd] at h; exact h
    unfold checkVariable at hvariable
    rw [htype] at hvariable
    dsimp only at hvariable
    split at hvariable
    · cases hvariable
    · exact hvariable
  | assigned hkind htarget htype =>
    rw [hkind] at h
    have hassignment : checkAssignment t session n = .ok [] := h
    unfold checkAssignment at hassignment
    rw [htarget] at hassignment
    dsimp only at hassignment
    rw [htype] at hassignment
    dsimp only at hassignment
    split at hassignment
    · obtain ⟨_, -, hreturn⟩ := exists_of_bind_eq_ok hassignment
      cases hreturn
    · exact hassignment
  | returned hkind hresult =>
    rw [hkind] at h
    have hreturned : checkReturn t session n = .ok [] := h
    unfold checkReturn at hreturned
    rw [hresult] at hreturned
    dsimp only at hreturned
    rw [he] at hreturned
    cases hvoid : t.followedShape dst == some .void with
    | true => rw [hvoid] at hreturned; cases hreturned
    | false => rw [hvoid] at hreturned; exact hreturned
  | @argument kind link k parameter type hkind hparameter htype =>
    rw [hkind] at h
    have hresolved : checkResolved t session n kind (.function link) = .ok [] := h
    unfold checkResolved at hresolved
    dsimp only at hresolved
    split at hresolved
    · cases hresolved
    next function hfunction =>
      obtain ⟨lists, hlists, hflat⟩ := exists_of_bind_eq_ok hresolved
      have hmem : (parameter, k) ∈ (t.parameters function).zipIdx := by
        rw [eq_of_linkTarget hfunction]
        exact mk_mem_zipIdx_iff_getElem?.2 hparameter
      obtain ⟨list, hlist, hcheck⟩ := exists_mem_of_mapM_ok hlists hmem
      have hnil : list = [] := flatten_eq_nil_iff.1 (Except.ok.inj hflat) list hlist
      rw [hnil, htype] at hcheck
      exact hcheck

end Validation

/-! ## The last sweep -/

namespace Round

/-- In the quiet part of a front end every pass is quiet, the sweep of coercions the last of them. -/
theorem exists_parts_of_step {f : FrontEnd}
    (hscopes : ∀ t, SameNodes t (f.buildScopes t root)) (hresolve : IsStep (f.resolve session root))
    (ht : w.tree.Rooted) (h : step session root f w = .ok (false, w')) :
    ∃ w₁ w₂ w₃ : Workspace, w₁.tree.Rooted ∧ f.resolve session root w₁ = .ok (false, w₂) ∧
      Unification.unify root w₂ = .ok (false, w₃) ∧ w₃.tree.Rooted ∧
      Coercion.sweep session root w₃ = .ok (false, w') := by
  have ht₁ := (hscopes w.tree).rooted ht
  obtain ⟨_, _, hdebug, h⟩ := bind_eq_ok h
  cases hdebug
  obtain ⟨_, _, hmodify, h⟩ := bind_eq_ok h
  cases hmodify
  obtain ⟨named, w₂, hnamed, h⟩ := bind_eq_ok h
  have ht₂ := ((CanonicalId.isStep_assign _ ht₁).post_of_ok hnamed).rooted ht₁
  obtain ⟨resolved, w₃, hresolved, h⟩ := bind_eq_ok h
  have ht₃ := ((hresolve w₂ ht₂).post_of_ok hresolved).rooted ht₂
  obtain ⟨unified, w₄, hunified, h⟩ := bind_eq_ok h
  have ht₄ := ((Unification.isTurn_unify.isStep w₃ ht₃).post_of_ok hunified).rooted ht₃
  obtain ⟨coerced, w₅, hcoerced, h⟩ := bind_eq_ok h
  obtain ⟨hquiet, rfl⟩ := Prod.mk.inj (Except.ok.inj h)
  simp only [Bool.or_eq_false_iff] at hquiet
  obtain ⟨⟨⟨-, rfl⟩, rfl⟩, rfl⟩ := hquiet
  exact ⟨w₂, w₃, w₄, ht₂, hresolved, hunified, ht₄, hcoerced⟩

end Round

/-- A quiet pass that is replayed from every padding ends in one. -/
theorem Tree.Padded.of_quiet {b b' : Tree} {m : Pass Bool} {w w' : Workspace}
    (hb : Padded b w.tree) (hstays : ∀ {s s'}, Later b s s' → StaysQuiet b' m m s s')
    (hrun : m w = .ok (false, w')) : Padded b' w'.tree := by
  have hlater : Later b w.tree w.tree := ⟨hb, hb, Nat.le_refl _⟩
  obtain ⟨_, _, -, -, hend⟩ := hstays hlater w.log w.log false w' hrun rfl
  exact hend.left

namespace Compiler

variable {options : Options}

/-- A quiet round is the quiet part of one front end after that of the other. -/
theorem exists_steps_of_round (ht : w.tree.Rooted) (h : round options w = .ok (false, w')) :
    ∃ w₀ w₁ : Workspace, w₀.tree.Rooted ∧ w₁.tree.Rooted ∧
      Round.step (standard options).session root .units w₀ = .ok (false, w₁) ∧
      Round.step (standard options).session root .base w₁ = .ok (false, w') := by
  have hplain := plainLiterals_standard options
  have hclear := (sameNodes_clearScopes w.tree).rooted ht
  obtain ⟨_, _, hmodify, h⟩ := bind_eq_ok h
  cases hmodify
  rw [frontEnds_standard, foldlM_cons] at h
  obtain ⟨_, w₁, hunits, h⟩ := bind_eq_ok h
  obtain ⟨units, _, hunits, hreturn⟩ := bind_eq_ok hunits
  cases hreturn
  rw [foldlM_cons] at h
  obtain ⟨_, _, hbase, hend⟩ := bind_eq_ok h
  cases hend
  obtain ⟨base, w₂, hstep, hreturn⟩ := bind_eq_ok hbase
  obtain ⟨hquiet, rfl⟩ := Prod.mk.inj (Except.ok.inj hreturn)
  simp only [Bool.or_false, Bool.or_eq_false_iff] at hquiet
  obtain ⟨rfl, rfl⟩ := hquiet
  have hisStep : IsStep (Round.step (standard options).session root .units) :=
    Round.isStep_step hplain (fun t ↦ sameNodes_buildUnitScopes t root)
      ((Units.Resolution.isTurn_resolve hplain).isStep)
  exact ⟨_, w₁, hclear, ((hisStep _ hclear).post_of_ok hunits).rooted hclear, hunits, hstep⟩

/-- A quiet round ends with a quiet sweep, which pads the tree. -/
theorem exists_last_sweep (ht : w.tree.Rooted) (h : round options w = .ok (false, w')) :
    ∃ w₁ : Workspace, w₁.tree.Rooted ∧
      Coercion.sweep (standard options).session root w₁ = .ok (false, w') ∧ Padded w₁.tree w'.tree := by
  obtain ⟨_, w₁, -, ht₁, -, hbase⟩ := exists_steps_of_round ht h
  obtain ⟨_, _, w₂, -, -, -, ht₂, hsweep⟩ := Round.exists_parts_of_step
    (fun t ↦ sameNodes_buildScopes t root)
    ((Resolution.isTurn_resolve _).isStep.seq Enumeration.isTurn_normalize.isStep) ht₁ hbase
  exact ⟨w₂, ht₂, hsweep, .of_quiet (.refl ht₂) (Coercion.stays_sweep_coercions (tame_standard options)) hsweep⟩

/-- A compilation with its checks that succeeds ends its rounds with a tree that the products of units and
the checks annotate, and no error is found. -/
theorem trees_of_compile (ht : w.tree.Rooted) (hchecks : options.skipValidation = false)
    (h : compile { standard options with workspace := w } = .ok (.ok outcome, c')) :
    ∃ t₀ t t', t₀.Rooted ∧ Annotated t₀ t ∧
      Validation.validatePost t (standard options).session root = .ok t' ∧
      Compilation.errorsBeneath t' root = [] ∧ Annotated t c'.workspace.tree ∧
      (outcome.reachedFixedPoint = true → ∃ v v' : Workspace, v.tree.Rooted ∧
        round options v = .ok (false, v') ∧ t₀ = v'.tree) := by
  obtain ⟨w₁, w₂, w₃, w₄, w₅, grammars, hpre, hrounds, hsame, hpost, htransform, hlast⟩ :=
    stages_of_compile hchecks h
  obtain ⟨hbase, herrors⟩ := checks_of_validatePost hpost
  have ht₁ := (annotated_of_validatePre hpre).rooted ht
  refine ⟨w₂.tree, _, w₄.tree, Round.rooted_of_repeat (isStep_round options) ht₁ hrounds, ?_, hbase, herrors,
    ?_, fun hfixed ↦ ?_⟩
  · rw [hsame]
    exact annotated_addErrors ..
  · rw [hlast]
    exact (Validation.annotated_of_validatePost hbase).trans (annotated_of_transform htransform)
  · rw [hfixed] at hrounds
    exact Round.exists_last_round (isStep_round options) ht₁ hrounds

/-- After a compilation with its checks that reached its fixed point, every value whose type is known
needs nothing more to be of the type of its place: the initial values of constants and variables, the
sources of assignments, the values of returns and the arguments of calls. -/
theorem unchanged_of_compile (options : Options) (w : Workspace) (outcome : Outcome) (c' : Compiler)
    (ht : w.tree.Rooted) (hchecks : options.skipValidation = false)
    (hcompile : compile { standard options with workspace := w } = .ok (.ok outcome, c'))
    (hfixed : outcome.reachedFixedPoint = true) (n dst e src : NodeId) (index : Nat) (style : Style)
    (hn : c'.workspace.tree.isAttached n) (hplace : c'.workspace.tree.Place n index dst style)
    (he : c'.workspace.tree.child n index = some e) (hsrc : c'.workspace.tree.expressionType e = some src)
    (hresolved : c'.workspace.tree.isResolved src) (hresolved' : c'.workspace.tree.isResolved dst) :
    Coercion.coerceExpression (standard options).session.conversions c'.workspace.tree e dst style =
      .ok .unchanged := by
  have htame := tame_standard options
  obtain ⟨t₀, t, t', ht₀, hgrammars, hpost, hnone, hlast, hrounds⟩ := trees_of_compile ht hchecks hcompile
  obtain ⟨v, v', hv, hround, rfl⟩ := hrounds hfixed
  -- `u.tree` is the base: the sweep, the products and the checks pad it.
  obtain ⟨u, hu, hsweep, hpadded₀⟩ := exists_last_sweep hv hround
  have hpadded := hpadded₀.annotate hgrammars
  have hpadded' := hpadded.annotate hlast
  have ht := hgrammars.rooted ht₀
  have hwithin : u.tree.Within root n := by
    have hfinal := hlast.rooted ht
    exact (hpadded'.within_iff hfinal).1 (hfinal.isWithin_iff.1 hn)
  have hn := hwithin.has hu.has_root
  rw [hpadded'.place_iff hn] at hplace
  rw [hpadded'.child_eq hn] at he
  have hhas := hpadded.base.has_of_child he
  have hsite := (place_iff_site (standard options).session.registry).1 hplace
  have hdst := hsite.1.has hpadded.base
  rw [hpadded'.expressionType_eq hhas] at hsrc
  have hsrc' := hpadded.base.has_of_expressionType hsrc
  rw [hpadded'.isResolved_eq hsrc'] at hresolved
  rw [hpadded'.isResolved_eq hdst] at hresolved'
  -- The checks say that some coercion exists, and the sweep that nothing is left to do.
  have hcheck := Validation.checkCoercion_of_place
    (Validation.postErrors_of_validatePost ht hpost hnone ((hpadded.within_iff ht).2 hwithin))
    ((hpadded.place_iff hn).2 hplace) ((hpadded.child_eq hn index).trans he)
  obtain ⟨coercion, hcoercion⟩ := Validation.exists_coercion_of_check hcheck
    ((hpadded.child_eq hn index).trans he) ((hpadded.expressionType_eq hhas).trans hsrc)
    ((hpadded.isResolved_eq hsrc').trans hresolved) ((hpadded.isResolved_eq hdst).trans hresolved')
  have hbase := Below.of_toOption_eq
    (Coercion.coerceExpression_eq htame.steady hpadded.toInset hhas hdst) coercion hcoercion
  have hquiet := (Coercion.Sweep.ranQuietly_of_sweep htame hu hsweep hwithin).of_site
    htame hpadded.base hn hsite.1
  cases hquiet.unchanged htame hn hdst he (isExpression_of_expressionType hsrc) hbase
  exact Below.of_toOption_eq (Coercion.coerceExpression_eq htame.steady hpadded'.toInset hhas hdst).symm _ hbase

/-- The function `f(a: int<32>) -> string` and `r: string = f(1)`, where the number is an `int<64>`. -/
def narrowedArgument : Tree := .ofRows [
  (.root, [18]),
  (.shaped .string, []),
  (.value, [1]),
  (.shaped (.signed 32), []),
  (.place, [3]),
  (.declares "a" (.parameter .input), [4, 0]),
  (.shaped .function, [2, 5]),
  (.value .const, [6]),
  (.declares "f" (.function none none), [7, 0]),
  (.shaped .string, []),
  (.place, [9]),
  (.shaped (.signed 64), []),
  (.value .const, [11]),
  (.literal (.signed 1 64), [12]),
  (.expression .literal, [13]),
  (.expression (.name (.ofText "f") none), [0]),
  (.expression (.unresolved .call), [15, 14]),
  (.declares "r" .globalVariable, [10, 16]),
  (.declares "m" .module .external, [8, 17])]

/-- The call is bound and its argument made an `int<32>`, which is then of the right type. -/
theorem unchanged_of_compile_narrowedArgument :
    ∃ (outcome : Outcome) (c' : Compiler), narrowedArgument.Rooted ∧
      compile { standard {} with workspace := ⟨narrowedArgument, #[]⟩ } = .ok (.ok outcome, c') ∧
      outcome.reachedFixedPoint = true ∧ c'.workspace.tree.isAttached ⟨21⟩ ∧
      c'.workspace.tree.Place ⟨21⟩ 2 ⟨4⟩ .ofCall ∧ c'.workspace.tree.child ⟨21⟩ 2 = some ⟨25⟩ ∧
      c'.workspace.tree.expressionType ⟨25⟩ = some ⟨23⟩ ∧ c'.workspace.tree.isResolved ⟨23⟩ ∧
      c'.workspace.tree.isResolved ⟨4⟩ ∧
      Coercion.coerceExpression (standard {}).session.conversions c'.workspace.tree ⟨25⟩ ⟨4⟩ .ofCall =
        .ok .unchanged := by
  have hrooted : narrowedArgument.Rooted := by decide +kernel
  obtain ⟨outcome, c', hcompile, hfixed, hview⟩ := exists_outcome
    (c := { standard {} with workspace := ⟨narrowedArgument, #[]⟩ })
    (fun t ↦ (t.kind ⟨21⟩, [(t.parameters ⟨8⟩)[0]?, t.child ⟨5⟩ 0, t.child ⟨21⟩ 2, t.expressionType ⟨25⟩],
      [t.isAttached ⟨21⟩, t.isResolved ⟨23⟩, t.isResolved ⟨4⟩]))
    (.expression (.resolved .call (.function ⟨⟨8⟩, some "m::f"⟩)),
      [some ⟨5⟩, some ⟨4⟩, some ⟨25⟩, some ⟨23⟩], [true, true, true]) true (by decide +kernel)
  simp only [Prod.mk.injEq, List.cons.injEq, and_true] at hview
  obtain ⟨hkind, ⟨hparameter, htype, he, hsrc⟩, hn, hresolved, hresolved'⟩ := hview
  have hplace : c'.workspace.tree.Place ⟨21⟩ 2 ⟨4⟩ .ofCall := .argument hkind hparameter htype
  exact ⟨outcome, c', hrooted, hcompile, hfixed, hn, hplace, he, hsrc, hresolved, hresolved',
    unchanged_of_compile {} ⟨narrowedArgument, #[]⟩ outcome c' hrooted rfl hcompile hfixed ⟨21⟩ ⟨4⟩ ⟨25⟩
      ⟨23⟩ 2 .ofCall hn hplace he hsrc hresolved hresolved'⟩

end Compiler

end ProtocolIR
