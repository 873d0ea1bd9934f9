import Mathlib.Data.Finset.Max
import ProtocolIR.Proofs.Compile.Stages
import ProtocolIR.Proofs.Replay.Resolution
import ProtocolIR.Proofs.Round.WriteOnce
import ProtocolIR.Proofs.Tree.Orders

/-!
# Overloads

A call is bound to the one function that beats all others that fit: by the cost of the conversions,
then by the width of the parameters. Which function that is does not depend on the order in which
the functions are found. It does depend on which of them fit, and a function whose parameters have
types that are not resolved yet does not. Once a call is bound, it stays bound to this function.
-/

namespace ProtocolIR

open Tree List

variable {t t' : Tree} {session : Session} {n n' f : NodeId}
  {declarations declarations' arguments arguments' : List NodeId}

/-! ## The best candidate -/

/-- Cheaper; or as cheap, and more specific; or the same in both, and narrower. -/
def Candidate.Beats (c d : Candidate) : Prop :=
  c.cost < d.cost ∨ c.cost = d.cost ∧
    (d.specificity < c.specificity ∨ c.specificity = d.specificity ∧ c.breadth < d.breadth)

namespace Selection

variable {cs cs' : List Candidate} {c : Candidate} {key : Candidate → Nat}

theorem mem_least : c ∈ least key cs ↔ c ∈ cs ∧ ∀ d ∈ cs, key c ≤ key d := by
  simp [least]

theorem mem_greatest : c ∈ greatest key cs ↔ c ∈ cs ∧ ∀ d ∈ cs, key d ≤ key c := by
  simp [greatest]

theorem mem_best : c ∈ best cs ↔ c ∈ cs ∧ ∀ d ∈ cs, ¬d.Beats c := by
  unfold best
  simp only [mem_least, mem_greatest]
  constructor
  · rintro ⟨⟨⟨hc, hcost⟩, hspecificity⟩, hbreadth⟩
    refine ⟨hc, fun d hd ↦ ?_⟩
    rintro (hlt | ⟨heq, hlt | ⟨heq', hlt⟩⟩)
    · have hle := hcost d hd
      omega
    · have hle := hspecificity d ⟨hd, fun e he ↦ heq ▸ hcost e he⟩
      omega
    · have hle := hbreadth d ⟨⟨hd, fun e he ↦ heq ▸ hcost e he⟩, fun e he ↦ heq' ▸ hspecificity e he⟩
      omega
  · rintro ⟨hc, hbeats⟩
    have hcost : ∀ d ∈ cs, c.cost ≤ d.cost := fun d hd ↦
      Nat.le_of_not_lt fun hlt ↦ hbeats d hd (.inl hlt)
    have hspecificity : ∀ d ∈ cs, d.cost = c.cost → d.specificity ≤ c.specificity := fun d hd heq ↦
      Nat.le_of_not_lt fun hlt ↦ hbeats d hd (.inr ⟨heq, .inl hlt⟩)
    have hbreadth : ∀ d ∈ cs, d.cost = c.cost → d.specificity = c.specificity → c.breadth ≤ d.breadth :=
      fun d hd heq heq' ↦ Nat.le_of_not_lt fun hlt ↦ hbeats d hd (.inr ⟨heq, .inr ⟨heq', hlt⟩⟩)
    refine ⟨⟨⟨hc, hcost⟩, ?_⟩, ?_⟩
    · rintro d ⟨hd, hmin⟩
      exact hspecificity d hd (Nat.le_antisymm (hmin c hc) (hcost d hd))
    · rintro d ⟨⟨hd, hmin⟩, hmax⟩
      have heq := Nat.le_antisymm (hmin c hc) (hcost d hd)
      exact hbreadth d hd heq (Nat.le_antisymm (hspecificity d hd heq) (hmax c ⟨hc, hcost⟩))

instance : DecidableRel Candidate.Beats := fun c d ↦
  inferInstanceAs (Decidable (c.cost < d.cost ∨ c.cost = d.cost ∧
    (d.specificity < c.specificity ∨ c.specificity = d.specificity ∧ c.breadth < d.breadth)))

/-- The three stages of the choice are one: nothing beats what is left. -/
theorem best_eq_filter : best cs = cs.filter fun c ↦ ∀ d ∈ cs, ¬d.Beats c := by
  obtain ⟨p, hp⟩ : ∃ p, best cs = cs.filter p := by
    unfold best least greatest
    rw [filter_filter, filter_filter]
    exact ⟨_, rfl⟩
  rw [hp]
  refine filter_congr fun c hc ↦ ?_
  have hmem := @mem_best cs c
  rw [hp, mem_filter, and_iff_right hc, and_iff_right hc] at hmem
  rw [Bool.eq_iff_iff, hmem, decide_eq_true_iff]

/-- A candidate that is among the best is so as often as it was a candidate. -/
theorem count_best (h : c ∈ best cs) : (best cs).count c = cs.count c := by
  rw [best_eq_filter] at h ⊢
  exact count_filter (mem_filter.1 h).2

theorem pick_cases (cs : List Candidate) :
    best cs = [] ∧ pick cs = .noMatch ∨ (∃ c, best cs = [c] ∧ pick cs = .selected c) ∨
      2 ≤ (best cs).length ∧ pick cs = .ambiguous ((best cs).map Candidate.description) := by
  unfold pick
  rcases best cs with _ | ⟨c, _ | ⟨d, rest⟩⟩ <;> simp

theorem pick_eq_selected : pick cs = .selected c ↔ best cs = [c] := by
  obtain ⟨hbest, hpick⟩ | ⟨d, hbest, hpick⟩ | ⟨hlength, hpick⟩ := pick_cases cs
  · simp [hpick, hbest]
  · simp [hpick, hbest]
  · rw [hpick]
    refine iff_of_false Selection.noConfusion fun hbest ↦ ?_
    simp [hbest] at hlength

/-- The choice is made if one candidate beats all others. -/
theorem pick_eq_selected_iff :
    pick cs = .selected c ↔ cs.count c = 1 ∧ ∀ d ∈ cs, d ≠ c → c.Beats d := by
  rw [pick_eq_selected]
  constructor
  · intro hbest
    have hc : c ∈ best cs := hbest ▸ mem_singleton_self c
    refine ⟨?_, fun d hd hne ↦ ?_⟩
    · rw [← count_best hc, hbest, count_singleton_self]
    · by_contra hnot
      have hminimal := (mem_best.1 hc).2
      -- a candidate that `c` does not beat has the keys of `c`
      have hd' : d ∈ best cs := by
        refine mem_best.2 ⟨hd, fun e he hbeats ↦ hminimal e he ?_⟩
        have hno := hminimal d hd
        unfold Candidate.Beats at *
        omega
      rw [hbest] at hd'
      exact hne (mem_singleton.1 hd')
  · rintro ⟨hcount, hbeats⟩
    have hc : c ∈ cs := count_pos_iff.1 (by omega)
    have hbest : c ∈ best cs := by
      refine mem_best.2 ⟨hc, fun d hd hdc ↦ ?_⟩
      have hcd : d ≠ c → c.Beats d := hbeats d hd
      by_cases hne : d = c
      · subst hne
        unfold Candidate.Beats at hdc
        omega
      · have hcd := hcd hne
        unfold Candidate.Beats at *
        omega
    have hall : ∀ d ∈ best cs, d = c := by
      intro d hd
      by_contra hne
      obtain ⟨hd, hminimal⟩ := mem_best.1 hd
      exact hminimal c hc (hbeats d hd hne)
    have hone : (best cs).length = 1 := by
      rw [← count_eq_length.2 fun d hd ↦ (hall d hd).symm, count_best hbest, hcount]
    obtain ⟨d, hd⟩ := length_eq_one_iff.1 hone
    rw [hd, hall d (by rw [hd]; exact mem_singleton_self d)]

theorem best_eq_nil : best cs = [] ↔ cs = [] := by
  have hleast : ∀ key ds, ds ≠ [] → least key ds ≠ [] := by
    intro key ds h
    obtain ⟨c, hc, hle⟩ := ds.toFinset.exists_min_image key (ds.toFinset_nonempty_iff.2 h)
    simp only [mem_toFinset] at hc hle
    exact ne_nil_of_mem (mem_least.2 ⟨hc, hle⟩)
  have hgreatest : ∀ key ds, ds ≠ [] → greatest key ds ≠ [] := by
    intro key ds h
    obtain ⟨c, hc, hle⟩ := ds.toFinset.exists_max_image key (ds.toFinset_nonempty_iff.2 h)
    simp only [mem_toFinset] at hc hle
    exact ne_nil_of_mem (mem_greatest.2 ⟨hc, hle⟩)
  constructor
  · intro h
    by_contra hne
    exact hleast _ _ (hgreatest _ _ (hleast _ _ hne)) h
  · rintro rfl
    rfl

theorem best_perm (h : cs.Perm cs') : (best cs).Perm (best cs') := by
  rw [best_eq_filter, best_eq_filter]
  simp only [h.mem_iff]
  exact h.filter _

/-- The same outcome, with the candidates of a tie in any order. -/
def SameUpToOrder : Selection → Selection → Prop
  | .ambiguous ds, .ambiguous ds' => ds.Perm ds'
  | s, s' => s = s'

theorem pick_perm (h : cs.Perm cs') : SameUpToOrder (pick cs) (pick cs') := by
  have hperm := best_perm h
  obtain ⟨hbest, hpick⟩ | ⟨c, hbest, hpick⟩ | ⟨hlength, hpick⟩ := pick_cases cs
  · rw [hbest, nil_perm] at hperm
    simp [pick, hbest, hperm, SameUpToOrder]
  · rw [hbest, singleton_perm] at hperm
    simp [pick, hbest, ← hperm, SameUpToOrder]
  · rw [hperm.length_eq] at hlength
    obtain ⟨hbest', -⟩ | ⟨c, hbest', -⟩ | ⟨-, hpick'⟩ := pick_cases cs'
    · simp [hbest'] at hlength
    · simp [hbest'] at hlength
    · rw [hpick, hpick']
      exact hperm.map _

/-- The outcome is read off the candidates that nothing beats, and the order of the candidates only
shows in the order in which a tie is listed. -/
theorem pick_ranking (cs : List Candidate) :
    let unbeaten := cs.filter fun c ↦ ∀ d ∈ cs, ¬d.Beats c
    pick cs ≠ .notReady ∧ (pick cs = .noMatch ↔ cs = []) ∧
      (∀ c, pick cs = .selected c ↔ unbeaten = [c]) ∧
      (∀ ds, pick cs = .ambiguous ds ↔
        2 ≤ unbeaten.length ∧ ds = unbeaten.map Candidate.description) ∧
      ∀ cs', cs.Perm cs' → SameUpToOrder (pick cs) (pick cs') := by
  intro unbeaten
  have hbest : best cs = unbeaten := best_eq_filter
  rw [← hbest, ← best_eq_nil]
  clear hbest unbeaten
  refine ⟨?_, ?_, fun c ↦ pick_eq_selected, fun ds ↦ ?_, fun cs' ↦ pick_perm⟩
  all_goals obtain ⟨hbest, hpick⟩ | ⟨c, hbest, hpick⟩ | ⟨hlength, hpick⟩ := pick_cases cs
  case refine_2.inr.inr => simp [hpick, ne_nil_of_length_pos (by omega : 0 < (best cs).length)]
  case refine_3.inr.inr => simp [hpick, hlength, eq_comm]
  all_goals simp [*]

/-- Of two cheapest candidates the more specific one is selected, wherever it stands. -/
theorem pick_ranking_specific :
    let a : Candidate := ⟨.builtin 0, 0, 2, 8, "a"⟩
    let b : Candidate := ⟨.builtin 1, 0, 1, 8, "b"⟩
    pick [a, b] = .selected a ∧ SameUpToOrder (pick [a, b]) (pick [b, a]) :=
  ⟨by decide, (pick_ranking _).2.2.2.2 _ (.swap _ _ _)⟩

/-! ## The functions that fit -/

/-- A function as a candidate for a call with some arguments. -/
def functionCandidate (t : Tree) (session : Session) (arguments : List NodeId) (f : NodeId) :
    Option Candidate :=
  (matchArguments t session (t.parameters f) arguments).map fun fit ↦
    { choice := .function f
      cost := fit.1
      specificity := 2 * arguments.length
      breadth := fit.2
      description := (t.short f).toOption.getD "" }

theorem eq_of_matchFunction {o : Option Candidate} (h : matchFunction t session arguments f = .ok o) :
    o = functionCandidate t session arguments f := by
  unfold matchFunction at h
  unfold functionCandidate
  split at h
  next hnone => rw [hnone]; exact (Except.ok.inj h).symm
  next cost breadth hfit =>
    obtain ⟨text, htext, h⟩ := exists_of_bind_eq_ok h
    rw [hfit, htext]
    exact (Except.ok.inj h).symm

theorem eq_of_functionCandidates (h : functionCandidates t session declarations arguments = .ok cs) :
    cs = (functionsOf t declarations).filterMap (functionCandidate t session arguments) := by
  obtain ⟨os, hos, h⟩ := exists_of_bind_eq_ok h
  have hmap : ∀ {l : List NodeId} {os}, l.mapM (matchFunction t session arguments) = .ok os →
      os = l.map (functionCandidate t session arguments) := by
    intro l
    induction l with
    | nil => intro os h; exact (Except.ok.inj h).symm
    | cons f rest ih =>
      intro os h
      rw [mapM_cons] at h
      obtain ⟨o, ho, h⟩ := exists_of_bind_eq_ok h
      obtain ⟨others, hothers, h⟩ := exists_of_bind_eq_ok h
      rw [← Except.ok.inj h, eq_of_matchFunction ho, ih hothers]
      rfl
  rw [← Except.ok.inj h, hmap hos, filterMap_map]
  rfl

theorem functionCandidate_eq_some :
    functionCandidate t session arguments f = some c ↔
      ∃ fit, matchArguments t session (t.parameters f) arguments = some fit ∧
        c = ⟨.function f, fit.1, 2 * arguments.length, fit.2, (t.short f).toOption.getD ""⟩ := by
  unfold functionCandidate
  rw [Option.map_eq_some_iff]
  exact exists_congr fun fit ↦ and_congr_right fun _ ↦ eq_comm

/-- Different functions are different candidates. -/
theorem count_filterMap (h : functionCandidate t session arguments f = some c) (l : List NodeId) :
    (l.filterMap (functionCandidate t session arguments)).count c = l.count f := by
  induction l with
  | nil => rfl
  | cons g rest ih =>
    by_cases hg : g = f
    · subst hg
      rw [filterMap_cons_some h, count_cons_self, count_cons_self, ih]
    · rw [count_cons_of_ne hg]
      cases hcandidate : functionCandidate t session arguments g with
      | none => rw [filterMap_cons_none hcandidate, ih]
      | some d =>
        have hne : d ≠ c := by
          rintro rfl
          obtain ⟨_, -, hd⟩ := functionCandidate_eq_some.1 hcandidate
          obtain ⟨_, -, hd'⟩ := functionCandidate_eq_some.1 h
          exact hg (Choice.function.inj (congrArg Candidate.choice (hd.symm.trans hd')))
        rw [filterMap_cons_some hcandidate, count_cons_of_ne hne, ih]

/-- A function that is found once, fits, and is preferred to all others that fit: its conversions
cost less, or they cost the same and its parameters are narrower. -/
structure Preferred (t : Tree) (session : Session) (declarations arguments : List NodeId) (f : NodeId) :
    Prop where
  once : (functionsOf t declarations).count f = 1
  fits : ∃ fit, matchArguments t session (t.parameters f) arguments = some fit ∧
    ∀ g ∈ functionsOf t declarations, g ≠ f → ∀ fit',
      matchArguments t session (t.parameters g) arguments = some fit' →
        fit.1 < fit'.1 ∨ fit.1 = fit'.1 ∧ fit.2 < fit'.2

theorem pick_iff_preferred (h : functionCandidates t session declarations arguments = .ok cs) :
    (∃ c, pick cs = .selected c ∧ c.choice = .function f) ↔ Preferred t session declarations arguments f := by
  rw [eq_of_functionCandidates h]
  constructor
  · rintro ⟨c, hpick, hchoice⟩
    obtain ⟨hcount, hbeats⟩ := pick_eq_selected_iff.1 hpick
    have hc : c ∈ (functionsOf t declarations).filterMap (functionCandidate t session arguments) :=
      count_pos_iff.1 (by omega)
    obtain ⟨f', hf', hcandidate⟩ := mem_filterMap.1 hc
    obtain ⟨fit, hfit, hc⟩ := functionCandidate_eq_some.1 hcandidate
    have hf : f' = f := by
      rw [hc] at hchoice
      exact Choice.function.inj hchoice
    subst hf
    refine ⟨(count_filterMap hcandidate _).symm.trans hcount, fit, hfit, fun g hg hne fit' hfit' ↦ ?_⟩
    have hd := functionCandidate_eq_some.2 ⟨fit', hfit', rfl⟩
    have hbeats := hbeats _ (mem_filterMap.2 ⟨g, hg, hd⟩) fun heq ↦
      hne (Choice.function.inj (congrArg Candidate.choice (heq.trans hc)))
    rw [hc] at hbeats
    simpa [Candidate.Beats] using hbeats
  · rintro ⟨honce, fit, hfit, hbeats⟩
    have hcandidate := functionCandidate_eq_some.2 ⟨fit, hfit, rfl⟩
    refine ⟨_, pick_eq_selected_iff.2 ⟨(count_filterMap hcandidate _).trans honce, ?_⟩, rfl⟩
    intro d hd hne
    obtain ⟨g, hg, hd⟩ := mem_filterMap.1 hd
    obtain ⟨fit', hfit', rfl⟩ := functionCandidate_eq_some.1 hd
    have hgf : g ≠ f := by
      rintro rfl
      cases hfit.symm.trans hfit'
      exact hne rfl
    simpa [Candidate.Beats] using hbeats g hg hgf fit' hfit'

theorem isTyped_of_coerceExpression {conversions : List Conversions} {e dst : NodeId} {style : Style}
    {coercion : Coercion} (h : Coercion.coerceExpression conversions t e dst style = .ok coercion) :
    isTyped t e = true := by
  unfold Coercion.coerceExpression at h
  unfold isTyped
  cases hsrc : t.expressionType e with
  | none => rw [hsrc] at h; cases h
  | some src =>
    rw [hsrc] at h
    dsimp only at h
    split at h
    · cases h
    next hresolved =>
      rw [Option.any_some]
      simp only [Bool.or_eq_true, Bool.not_eq_true', not_or, Bool.not_eq_false] at hresolved
      exact hresolved.1

/-- Only arguments whose types are known fit. -/
theorem isTyped_of_matchArguments {parameters : List NodeId} {fit : Nat × Nat}
    (h : matchArguments t session parameters arguments = some fit) : arguments.all (isTyped t) = true := by
  obtain ⟨_, hlength, h⟩ := Option.bind_eq_some_iff.1 h
  obtain ⟨-, -, h⟩ := Option.bind_eq_some_iff.1 h
  obtain ⟨fits, hfits, -⟩ := Option.bind_eq_some_iff.1 h
  rw [all_eq_true]
  intro e he
  have hle : arguments.length ≤ parameters.length := by simpa [guard] using hlength
  rw [← map_fst_zip hle] at he
  obtain ⟨⟨e, parameter⟩, hmem, rfl⟩ := mem_map.1 he
  obtain ⟨fit', -, hfit'⟩ := exists_mem_of_forall₂ (forall₂_of_mapM_eq_some hfits) hmem
  obtain ⟨type, -, hfit'⟩ := Option.bind_eq_some_iff.1 hfit'
  split at hfit'
  next coercion hcoercion => exact isTyped_of_coerceExpression hcoercion
  · cases hfit'

end Selection

/-! ## Calls -/

namespace Tree

variable {name name' : QualifiedId}

/-- A call of a name that is not resolved yet. -/
structure CallOf (t : Tree) (n : NodeId) (name : QualifiedId) (arguments : List NodeId) : Prop where
  kind : t.kind n = .expression (.unresolved .call)
  operands : ∃ callee link, t.slots n = (callee :: arguments).map some ∧
    t.kind callee = .expression (.name name link)

/-- A call stands for a function. -/
def BindsTo (t : Tree) (session : Session) (n f : NodeId) : Prop :=
  ∃ c, t.select session n = .ok (.selected c) ∧ c.choice = .function f

instance : Decidable (t.BindsTo session n f) :=
  match h : t.select session n with
  | .ok (.selected c) =>
    decidable_of_iff (c.choice = .function f)
      ⟨fun hc ↦ ⟨c, h, hc⟩, fun ⟨_, hd, hc⟩ ↦ by cases h.symm.trans hd; exact hc⟩
  | .ok .notReady | .ok .noMatch | .ok (.ambiguous _) | .error _ =>
    isFalse fun ⟨_, hd, _⟩ ↦ by cases h.symm.trans hd

theorem CallOf.select_eq (h : t.CallOf n name arguments) :
    t.select session n =
      if !(t.lookup n name).any fun d ↦ (t.kind d).isFunction then .ok .noMatch
      else if !arguments.all (Selection.isTyped t) then .ok .notReady
      else do return Selection.pick (← Selection.functionCandidates t session (t.lookup n name) arguments) := by
  obtain ⟨callee, link, hslots, hcallee⟩ := h.operands
  unfold select
  rw [h.kind]
  dsimp only
  rw [hslots, mapM_id_map_some]
  show Selection.selectCall t session n (callee :: arguments) = _
  unfold Selection.selectCall
  dsimp only
  rw [hcallee]

/-- If a call can be decided at all, it stands for the preferred one of the functions that are found. -/
theorem CallOf.bindsTo_iff (h : t.CallOf n name arguments)
    (hreturns : ∃ selection, t.select session n = .ok selection) :
    t.BindsTo session n f ↔ Selection.Preferred t session (t.lookup n name) arguments f := by
  unfold BindsTo
  obtain ⟨selection, hselect⟩ := hreturns
  rw [h.select_eq] at hselect ⊢
  split at hselect
  next hnone =>
    rw [if_pos hnone]
    refine iff_of_false (fun ⟨_, hselected, _⟩ ↦ by cases hselected) fun hpreferred ↦ ?_
    have hmem := count_pos_iff.1 (hpreferred.once ▸ Nat.one_pos)
    have hfunction := mem_filter.1 (mem_of_mem_filter hmem)
    rw [Bool.not_eq_true', any_eq_false] at hnone
    exact hnone f hfunction.1 hfunction.2
  next hsome =>
    rw [if_neg hsome]
    split at hselect
    next huntyped =>
      rw [if_pos huntyped]
      refine iff_of_false (fun ⟨_, hselected, _⟩ ↦ by cases hselected) fun hpreferred ↦ ?_
      obtain ⟨fit, hfit, -⟩ := hpreferred.fits
      rw [Selection.isTyped_of_matchArguments hfit] at huntyped
      cases huntyped
    next htyped =>
      rw [if_neg htyped]
      obtain ⟨cs, hcs, -⟩ := exists_of_bind_eq_ok hselect
      rw [← Selection.pick_iff_preferred hcs, hcs]
      refine exists_congr fun c ↦ and_congr_left fun _ ↦ ?_
      exact ⟨fun heq ↦ Except.ok.inj heq, fun heq ↦ congrArg Except.ok heq⟩

end Tree

namespace Selection

/-- Only the functions that are found and how they fit matter. -/
theorem preferred_congr {σ : NodeId → NodeId} (hσ : Function.Injective σ)
    (hperm : (functionsOf t' declarations').Perm ((functionsOf t declarations).map σ))
    (hfits : ∀ g ∈ functionsOf t declarations, matchArguments t' session (t'.parameters (σ g)) arguments' =
      matchArguments t session (t.parameters g) arguments) :
    Preferred t' session declarations' arguments' (σ f) ↔ Preferred t session declarations arguments f := by
  have hcount : (functionsOf t' declarations').count (σ f) = (functionsOf t declarations).count f :=
    (hperm.count_eq _).trans (count_map_of_injective _ σ hσ f)
  have hmem : ∀ {g'}, g' ∈ functionsOf t' declarations' ↔ ∃ g ∈ functionsOf t declarations, σ g = g' := by
    intro g'
    rw [hperm.mem_iff, mem_map]
  constructor
  · rintro ⟨honce, fit, hfit, hbeats⟩
    rw [hcount] at honce
    have hf := count_pos_iff.1 (honce ▸ Nat.one_pos)
    refine ⟨honce, fit, (hfits f hf).symm.trans hfit, fun g hg hne fit' hfit' ↦ ?_⟩
    exact hbeats (σ g) (hmem.2 ⟨g, hg, rfl⟩) (hσ.ne hne) fit' ((hfits g hg).trans hfit')
  · rintro ⟨honce, fit, hfit, hbeats⟩
    have hf := count_pos_iff.1 (honce ▸ Nat.one_pos)
    refine ⟨hcount.trans honce, fit, (hfits f hf).trans hfit, fun g' hg' hne fit' hfit' ↦ ?_⟩
    obtain ⟨g, hg, rfl⟩ := hmem.1 hg'
    exact hbeats g hg (fun heq ↦ hne (congrArg σ heq)) fit' ((hfits g hg).symm.trans hfit')

end Selection

/-- Two calls, in one program or in two, stand for corresponding functions if the functions that are
found for them correspond, in whatever order they are found, and fit alike. -/
theorem Tree.bindsTo_iff_of_perm {t t' : Tree} {session : Session} {n n' f : NodeId}
    {name name' : QualifiedId} {arguments arguments' : List NodeId} {σ : NodeId → NodeId}
    (hσ : Function.Injective σ) (hcall : t.CallOf n name arguments) (hcall' : t'.CallOf n' name' arguments')
    (hreturns : ∃ selection, t.select session n = .ok selection)
    (hreturns' : ∃ selection, t'.select session n' = .ok selection)
    (hperm : (Selection.functionsOf t' (t'.lookup n' name')).Perm
      ((Selection.functionsOf t (t.lookup n name)).map σ))
    (hfits : ∀ g ∈ Selection.functionsOf t (t.lookup n name),
      Selection.matchArguments t' session (t'.parameters (σ g)) arguments' =
        Selection.matchArguments t session (t.parameters g) arguments) :
    t'.BindsTo session n' (σ f) ↔ t.BindsTo session n f := by
  rw [hcall.bindsTo_iff hreturns, hcall'.bindsTo_iff hreturns']
  exact Selection.preferred_congr hσ hperm hfits

/-- A call that is visited while it stands for a function gives way to a call of this function, and
stays one over any number of rounds. -/
theorem Compiler.target_of_bindsTo {options : Options} {w w₁ w₂ : Workspace} {kind : OperatorKind} {p : NodeId}
    (ht : w.tree.Coherent) (hp : w.tree.parent n = some p)
    (hkind : w.tree.kind n = .expression (.unresolved kind)) (hbinds : w.tree.BindsTo session n f)
    (hvisit : Resolution.resolveNode session n w = .ok (true, w₁))
    (hrounds : Relation.ReflTransGen (RoundFrom options) w₁ w₂) :
    ∃ p i call link, w.tree.child p i = some n ∧ w₁.tree.child p i = some call ∧ link.node = f ∧
      (w₂.tree.kind call).facts.target = some (.function link) := by
  have hrun : Resolution.resolveOperator session n kind w = .ok (true, w₁) := by
    unfold Resolution.resolveNode at hvisit
    rwa [Pass.tree_bind, hkind] at hvisit
  obtain ⟨c, hselect, h, hcallee, hremove, hcreate, hreplace⟩ :=
    ((Resolution.sure_resolveOperator .any hkind).1 true w₁ hrun).2 rfl
  obtain ⟨_, hselect', hchoice⟩ := hbinds
  cases hselect.symm.trans hselect'
  obtain ⟨hlinks, hedit⟩ := (Resolution.safe_bindCallee _ _ _).post_of_ok hcallee
  obtain ⟨_, _, hcreate', hreplace', -, ⟨⟨q, i, hi, hi'⟩, -⟩, hcall, -⟩ :=
    exists_rebound ht h.grows.1 (h.piece (mem_singleton_self _)) hp hkind hlinks hedit hremove _ _
  cases hcreate.symm.trans hcreate'
  cases hreplace.symm.trans hreplace'
  rw [hchoice] at hcall
  have hkept := (refines_of_rounds options hrounds).kind (has_of_kind (hcall.trans_ne (by simp)))
  exact ⟨q, i, _, _, hi, hi', rfl, hkept.kept.target _ (by rw [hcall]; rfl)⟩

namespace Compiler

/-- The functions `f(a: int<32>) -> bool` and `f(b: T) -> string`, the type `T = int<64>` and the
variable `r: auto = f(1)` as the members of a module in some order. -/
def overloaded (link : Option Link) (declarations : List NodeId) : Tree := .ofRows [
  (.root, [29]), (.shaped .auto, []), (.place, [1]),
  (.shaped (.signed 64), []), (.value .const, [3]), (.literal (.signed 1 64), [4]),
  (.expression .literal, [5]), (.expression (.name (.ofText "f") none), [0]),
  (.expression (.unresolved .call), [7, 6]),
  (.declares "r" .globalVariable, [2, 8]),
  (.shaped .bool, []), (.value, [10]),
  (.shaped (.signed 32), []), (.place, [12]),
  (.declares "a" (.parameter .input), [13, 0]),
  (.shaped .function, [11, 14]), (.value .const, [15]),
  (.declares "f" (.function none none), [16, 0]),
  (.shaped .string, []), (.value, [18]),
  (.shaped (.name (.ofText "T") link), []), (.place, [20]),
  (.declares "b" (.parameter .input), [21, 0]),
  (.shaped .function, [19, 22]), (.value .const, [23]),
  (.declares "f" (.function none none), [24, 0]),
  (.shaped (.signed 64), []), (.value, [26]),
  (.declares "T" .type, [27]),
  (.declares "m" .module .external, declarations.map NodeId.index)]

/-- Once the name of `T` is bound, the second function is chosen wherever it stands. -/
theorem bindsTo_iff_of_perm_overloaded :
    let t := (overloaded (some ⟨⟨28⟩, none⟩) [⟨9⟩, ⟨17⟩, ⟨25⟩, ⟨28⟩]).buildScopes root
    let t' := (overloaded (some ⟨⟨28⟩, none⟩) [⟨28⟩, ⟨25⟩, ⟨17⟩, ⟨9⟩]).buildScopes root
    t.lookup ⟨8⟩ (.ofText "f") = [⟨17⟩, ⟨25⟩] ∧ t'.lookup ⟨8⟩ (.ofText "f") = [⟨25⟩, ⟨17⟩] ∧
      t.BindsTo (standard {}).session ⟨8⟩ ⟨25⟩ ∧ t'.BindsTo (standard {}).session ⟨8⟩ ⟨25⟩ := by
  intro t t'
  have hfound : t.lookup ⟨8⟩ (.ofText "f") = [⟨17⟩, ⟨25⟩] := by decide +kernel
  have hfound' : t'.lookup ⟨8⟩ (.ofText "f") = [⟨25⟩, ⟨17⟩] := by decide +kernel
  have hcall : t.CallOf ⟨8⟩ (.ofText "f") [⟨6⟩] :=
    ⟨by decide +kernel, ⟨7⟩, none, by decide +kernel, by decide +kernel⟩
  have hcall' : t'.CallOf ⟨8⟩ (.ofText "f") [⟨6⟩] :=
    ⟨by decide +kernel, ⟨7⟩, none, by decide +kernel, by decide +kernel⟩
  have hperm : (Selection.functionsOf t' (t'.lookup ⟨8⟩ (.ofText "f"))).Perm
      ((Selection.functionsOf t (t.lookup ⟨8⟩ (.ofText "f"))).map fun g ↦ g) := by
    decide +kernel
  have hfits : ∀ g ∈ Selection.functionsOf t (t.lookup ⟨8⟩ (.ofText "f")),
      Selection.matchArguments t' (standard {}).session (t'.parameters g) [⟨6⟩] =
        Selection.matchArguments t (standard {}).session (t.parameters g) [⟨6⟩] := by
    decide +kernel
  have hbinds : t.BindsTo (standard {}).session ⟨8⟩ ⟨25⟩ := by decide +kernel
  have hreturns' : (t'.select (standard {}).session ⟨8⟩).toOption.isSome := by decide +kernel
  refine ⟨hfound, hfound', hbinds, ?_⟩
  obtain ⟨c, hselect, -⟩ := id hbinds
  cases hselect' : t'.select (standard {}).session ⟨8⟩ with
  | error f => rw [hselect'] at hreturns'; cases hreturns'
  | ok selection =>
    exact (Tree.bindsTo_iff_of_perm Function.injective_id hcall hcall' ⟨_, hselect⟩ ⟨_, hselect'⟩
      hperm hfits).2 hbinds

/-- Before that it is not a candidate. So the order decides whether it is chosen. -/
theorem overload_depends_on_order :
    ∃ (outcome outcome' : Outcome) (c c' : Compiler),
      (overloaded none [⟨9⟩, ⟨17⟩, ⟨25⟩, ⟨28⟩]).Rooted ∧ (overloaded none [⟨28⟩, ⟨17⟩, ⟨25⟩, ⟨9⟩]).Rooted ∧
      compile { standard {} with workspace := ⟨overloaded none [⟨9⟩, ⟨17⟩, ⟨25⟩, ⟨28⟩], #[]⟩ } =
        .ok (.ok outcome, c) ∧
      compile { standard {} with workspace := ⟨overloaded none [⟨28⟩, ⟨17⟩, ⟨25⟩, ⟨9⟩], #[]⟩ } =
        .ok (.ok outcome', c') ∧
      outcome.reachedFixedPoint = true ∧ outcome'.reachedFixedPoint = true ∧
      (c.workspace.tree.child ⟨9⟩ 1).map c.workspace.tree.kind =
        some (.expression (.resolved .call (.function ⟨⟨17⟩, some "m::f"⟩))) ∧
      (c'.workspace.tree.child ⟨9⟩ 1).map c'.workspace.tree.kind =
        some (.expression (.resolved .call (.function ⟨⟨25⟩, some "m::f_1"⟩))) := by
  have hrun := exists_outcome
    (c := { standard {} with workspace := ⟨overloaded none [⟨9⟩, ⟨17⟩, ⟨25⟩, ⟨28⟩], #[]⟩ })
    (fun t ↦ (t.child ⟨9⟩ 1).map t.kind)
    (some (.expression (.resolved .call (.function ⟨⟨17⟩, some "m::f"⟩)))) true (by decide +kernel)
  have hrun' := exists_outcome
    (c := { standard {} with workspace := ⟨overloaded none [⟨28⟩, ⟨17⟩, ⟨25⟩, ⟨9⟩], #[]⟩ })
    (fun t ↦ (t.child ⟨9⟩ 1).map t.kind)
    (some (.expression (.resolved .call (.function ⟨⟨25⟩, some "m::f_1"⟩)))) true (by decide +kernel)
  obtain ⟨outcome, c, hcompile, hfixed, hcall⟩ := hrun
  obtain ⟨outcome', c', hcompile', hfixed', hcall'⟩ := hrun'
  exact ⟨outcome, outcome', c, c', by decide +kernel, by decide +kernel, hcompile, hcompile',
    hfixed, hfixed', hcall, hcall'⟩

end Compiler

end ProtocolIR
