import ProtocolIR.Proofs.Grammar.Construction
import ProtocolIR.Proofs.Grammar.Follow

/-!
# The analysis of the grammar of a unit

The grammar of a unit only refers to its own productions, so its analysis comes to an end with
the least solution of the equations for nullability and FIRST, and with all that FOLLOW asks for.
-/

namespace ProtocolIR.Grammar

open List

variable {g : Grammar} {t : Tree} {declaration : NodeId} {lines : List String}

/-- What the analysis of a grammar comes to. -/
structure Analyzed (g : Grammar) : Prop where
  wellFormed : g.WellFormed
  saturated : g.Saturated
  following : g.Following
  followSettled : g.FollowSettled

theorem analyzed_analyze (hg : g.WellFormed) :
    (analyze g).1.Analyzed ∧ (analyze g).1.productions = g.productions ∧
      (analyze g).1.root = g.root := by
  obtain ⟨hrising, hproductions, hroot, hfollow⟩ := g.settledFirst_rising
  have hsaturated := settledFirst_saturated hg
  generalize hfirst : g.settledFirst.1 = g₁ at *
  have hg₁ := hg.congr hproductions
  have hfollowing : g₁.Following := by
    refine ⟨hrising.size, fun p ↦ ?_, hrising.tokens, fun p ↦ ?_⟩
    · rw [hfollow]
      exact .nil
    · simp [hfollow]
  have hfuel : g₁.size * g₁.size < g₁.followWeight + (g₁.size * g₁.size + 2) := by omega
  obtain ⟨hfollowing₂, hsettled₂, hsame⟩ := hfollowing.settleFollow hg₁ hfuel
  generalize hsecond : settleFollow (g₁.size * g₁.size + 2) g₁ = g₂ at *
  have hanalyze : (analyze g).1 = g₂.checkLookAheads := by
    rw [← hsecond, ← hfirst]
    rfl
  rw [hanalyze]
  refine ⟨⟨?_, ?_, ?_, ?_⟩, hsame.productions.trans hproductions, hsame.root.trans hroot⟩
  · exact (hg₁.congr hsame.productions).congr rfl
  · exact Saturated.congr (g := g₂) rfl (fun _ ↦ rfl) (fun _ ↦ rfl)
      (hsaturated.congr hsame.productions hsame.nullable hsame.first)
  · exact ⟨hfollowing₂.size, hfollowing₂.ascending, hfollowing₂.first, hfollowing₂.follow⟩
  · exact FollowSettled.congr (g := g₂) rfl (fun _ ↦ rfl) hsettled₂

theorem analyzed_of_ofDeclaration? (h : ofDeclaration? t declaration = .ok (some (g, lines))) :
    g.Analyzed ∧ ∃ root, g.root = some root ∧ root ∈ g.ids := by
  obtain ⟨_, -, -, g₀, root, _, _, rfl, hg₀, hroot, hmem, -⟩ := told_of_declaration h
  obtain ⟨hanalyzed, hproductions, hroot'⟩ := analyzed_analyze hg₀
  refine ⟨hanalyzed, root, hroot'.trans hroot, ?_⟩
  rwa [ids_congr hproductions]

/-! ## Nullability and FIRST -/

/-- For the grammar of a unit the computation of nullability and FIRST comes to an end. A
production is nullable exactly if it derives no token at all, and FIRST has every token that
begins what it derives. What is computed is the least solution of the equations, and the same
under every numbering of the productions. -/
theorem first_least_and_sound (h : ofDeclaration? t declaration = .ok (some (g, lines))) :
    g.firstRound = (g, false) ∧
      (∀ p ∈ g.ids, (g.isNullable p = true ↔ g.Derives [p] []) ∧
        ∀ token rest, g.Derives [p] (token :: rest) → token ∈ g.first p) ∧
      g.Solves ∧
      (∀ attributes, { g with attributes }.Solves → ∀ p ∈ g.ids,
        (g.isNullable p = true → { g with attributes }.isNullable p = true) ∧
          g.first p ⊆ { g with attributes }.first p) ∧
      ∀ f g', Renumbers f g g' → ∀ p ∈ g.ids,
        (analyze g').1.isNullable (f p) = g.isNullable p ∧
          (analyze g').1.first (f p) = g.first p := by
  obtain ⟨⟨hg, hsaturated, -, -⟩, -⟩ := analyzed_of_ofDeclaration? h
  refine ⟨firstRound_of_settled hsaturated.settled, fun p hp ↦ ⟨?_, fun token rest ↦ ?_⟩,
    hsaturated.settled.solves, fun attributes hsolves p hp ↦ ?_, fun f g' hrenumbers p hp ↦ ?_⟩
  · exact hsaturated.isNullable_iff hg hp
  · exact hsaturated.mem_first_of_derives hg hp
  · exact hsaturated.le_of_solves hg rfl hsolves hp
  · obtain ⟨hanalyzed, hproductions, -⟩ := analyzed_analyze (hrenumbers.wellFormed hg)
    exact (hrenumbers.congr hproductions).eq hg hsaturated hanalyzed.saturated hp

/-- A unit that may contain itself, with a value before and a value after that. -/
def chunkUnit : Tree := .ofRows [
  (.root, [1]),
  (.declares "Chunk" .type .external, [2]),
  (.value .const, [3]),
  (.type { shape := .unit, typeId := some "m::Chunk" }, [4, 6, 10]),
  (.item (.field (some "size") false), [5]),
  (.shaped (.unsigned 8), []),
  (.item (.field (some "next") false), [7]),
  (.shaped .optional, [8]),
  (.value .const, [9]),
  (.shaped (.name (.ofText "Chunk") (some ⟨⟨1⟩, none⟩)), []),
  (.item (.field (some "check") false), [11]),
  (.shaped (.unsigned 16), [])]

/-- What is computed from the grammar of a declaration holds for a grammar that there is. -/
theorem exists_of_eval (t : Tree) (declaration : NodeId) {α : Type} {f : Grammar → α} {a : α}
    (h : ((ofDeclaration? t declaration).toOption.join.map fun r ↦ f r.1) = some a) :
    ∃ g lines, ofDeclaration? t declaration = .ok (some (g, lines)) ∧ f g = a := by
  obtain ⟨⟨g, lines⟩, hjoin, hf⟩ := Option.map_eq_some_iff.1 h
  refine ⟨g, lines, ?_, hf⟩
  cases hrun : ofDeclaration? t declaration with
  | error => rw [hrun] at hjoin; cases hjoin
  | ok r => rw [hrun, Except.toOption, Option.join_some] at hjoin; rw [hjoin]

theorem ofDeclaration?_chunkUnit : ∃ g lines,
    ofDeclaration? chunkUnit ⟨1⟩ = .ok (some (g, lines)) ∧ g.size = 7 ∧ g.root = some ⟨0⟩ ∧
      g.kind ⟨0⟩ = .unit "m::Chunk" [] [⟨1⟩, ⟨5⟩, ⟨6⟩] ∧ g.kind ⟨1⟩ = .value "uint<8>" ∧
      g.kind ⟨4⟩ = .epsilon ∧ g.kind ⟨5⟩ = .lookAhead ⟨3⟩ ⟨4⟩ ∧ g.kind ⟨6⟩ = .value "uint<16>" := by
  obtain ⟨g, lines, hrun, heval⟩ := exists_of_eval chunkUnit ⟨1⟩
    (f := fun g ↦ (g.size, g.root, [0, 1, 4, 5, 6].map fun i ↦ g.kind ⟨i⟩))
    (a := (7, some ⟨0⟩, [.unit "m::Chunk" [] [⟨1⟩, ⟨5⟩, ⟨6⟩], .value "uint<8>", .epsilon,
      .lookAhead ⟨3⟩ ⟨4⟩, .value "uint<16>"])) (by decide +kernel)
  simp only [Prod.mk.injEq, map_cons, map_nil, cons.injEq, and_true] at heval
  exact ⟨g, lines, hrun, heval⟩

/-- The middle field may match nothing, and the unit starts with the value of its first field. -/
theorem first_of_chunkUnit : ∃ g lines, ofDeclaration? chunkUnit ⟨1⟩ = .ok (some (g, lines)) ∧
    g.firstRound = (g, false) ∧ g.isNullable ⟨5⟩ = true ∧ .value "uint<8>" ∈ g.first ⟨0⟩ := by
  obtain ⟨g, lines, hrun, hsize, -, hunit, hsize', hepsilon, hnext, hcheck⟩ := ofDeclaration?_chunkUnit
  obtain ⟨hround, hcorrect, -⟩ := first_least_and_sound hrun
  have hmem : ∀ i, i < 7 → ⟨i⟩ ∈ g.ids := fun i hi ↦ mem_ids.2 (hsize ▸ hi)
  have hright : (g.kind ⟨5⟩).Expands [⟨4⟩] := by rw [hnext]; exact .right
  have hblank : (g.kind ⟨4⟩).Expands [] := by rw [hepsilon]; exact .epsilon
  have hfields : (g.kind ⟨0⟩).Expands [⟨1⟩, ⟨5⟩, ⟨6⟩] := by rw [hunit]; exact .unit
  have hnothing : g.Derives [⟨5⟩] [] := .singleton hright (.singleton hblank .nil)
  have hchunk : g.Derives [⟨0⟩] [.value "uint<8>", .value "uint<16>"] := by
    refine .singleton hfields (.token (by rw [hsize']; rfl) (hnothing.append ?_))
    exact .token (by rw [hcheck]; rfl) .nil
  refine ⟨g, lines, hrun, hround, ?_, ?_⟩
  · exact (hcorrect ⟨5⟩ (hmem 5 (by decide))).1.2 hnothing
  · exact (hcorrect ⟨0⟩ (hmem 0 (by decide))).2 _ _ hchunk

/-! ## FOLLOW -/

/-- For the grammar of a unit the computation of FOLLOW comes to an end, and wherever a production
occurs in what the root derives, FOLLOW has the token right after it. -/
theorem follow_sound (h : ofDeclaration? t declaration = .ok (some (g, lines))) :
    g.followRound = (g, false) ∧ ∃ root, g.root = some root ∧
      ∀ p before token after, g.Occurs root p before (token :: after) →
        token ∈ g.follow p ∧
          ∀ w, g.Derives [p] w → g.Derives [root] (before ++ w ++ token :: after) := by
  obtain ⟨hanalyzed, root, hroot, hmem⟩ := analyzed_of_ofDeclaration? h
  obtain ⟨hg, hsaturated, hfollowing, hsettled⟩ := hanalyzed
  refine ⟨followRound_of_settled hfollowing hg hsettled, root, hroot, ?_⟩
  intro p before token after hoccurs
  exact ⟨(hoccurs.follow hsaturated hsettled hg hmem).2 token after rfl, fun w ↦ hoccurs.derives⟩

/-- The middle field is followed by the value of the last one. -/
theorem follow_of_chunkUnit : ∃ g lines, ofDeclaration? chunkUnit ⟨1⟩ = .ok (some (g, lines)) ∧
    g.followRound = (g, false) ∧
      g.Occurs ⟨0⟩ ⟨5⟩ [.value "uint<8>"] [.value "uint<16>"] ∧
      .value "uint<16>" ∈ g.follow ⟨5⟩ := by
  obtain ⟨g, lines, hrun, -, hroot, hunit, hsize, -, -, hcheck⟩ := ofDeclaration?_chunkUnit
  obtain ⟨hround, root, hroot', hfollow⟩ := follow_sound hrun
  have hzero : root = ⟨0⟩ := Option.some.inj (hroot'.symm.trans hroot)
  subst hzero
  have hoccurs : g.Occurs ⟨0⟩ ⟨5⟩ [.value "uint<8>"] [.value "uint<16>"] := by
    have hfields : (g.kind ⟨0⟩).Expands ([⟨1⟩] ++ ⟨5⟩ :: [⟨6⟩]) := by rw [hunit]; exact .unit
    refine .inside .self hfields (.token ?_ .nil) (.token ?_ .nil)
    · rw [hsize]; rfl
    · rw [hcheck]; rfl
  exact ⟨g, lines, hrun, hround, hoccurs, (hfollow _ _ _ _ hoccurs).1⟩

/-! ## The end of the data -/

/-- The test for the end of the data, given what it says of the parts of a production. -/
def eodOkFrom (g : Grammar) (answer : ProductionId → Option Bool) (p : ProductionId) : Option Bool :=
  match g.kind (g.resolve p) with
  | .forEach _ true | .loop none _ => some true
  | .sequence items => items.allM answer
  | .boolean _ yes no => [yes, no].anyM answer
  | .lookAhead left right => [left, right].anyM answer
  | _ => some (g.isNullable p)

section

variable {answer answer' : ProductionId → Option Bool} {ps : List ProductionId} {p : ProductionId} {b : Bool}

theorem allM_mono (h : ∀ q ∈ ps, ∀ b, answer q = some b → answer' q = some b)
    (hb : ps.allM answer = some b) : ps.allM answer' = some b := by
  induction ps with
  | nil => exact hb
  | cons q ps ih =>
    obtain ⟨a, ha, hb⟩ := Option.bind_eq_some_iff.1 hb
    refine Option.bind_eq_some_iff.2 ⟨a, h q mem_cons_self a ha, ?_⟩
    cases a with
    | true => exact ih (fun r hr ↦ h r (mem_cons_of_mem _ hr)) hb
    | false => exact hb

theorem anyM_mono (h : ∀ q ∈ ps, ∀ b, answer q = some b → answer' q = some b)
    (hb : ps.anyM answer = some b) : ps.anyM answer' = some b := by
  induction ps with
  | nil => exact hb
  | cons q ps ih =>
    obtain ⟨a, ha, hb⟩ := Option.bind_eq_some_iff.1 hb
    refine Option.bind_eq_some_iff.2 ⟨a, h q mem_cons_self a ha, ?_⟩
    cases a with
    | true => exact hb
    | false => exact ih (fun r hr ↦ h r (mem_cons_of_mem _ hr)) hb

theorem eodOkFrom_mono (hg : g.WellFormed) (h : ∀ q ∈ g.ids, ∀ b, answer q = some b → answer' q = some b)
    (hb : g.eodOkFrom answer p = some b) : g.eodOkFrom answer' p = some b := by
  have hparts := hg (g.resolve p)
  unfold eodOkFrom at *
  split at hb
  · exact hb
  · exact hb
  next hkind =>
    rw [hkind] at hparts
    exact allM_mono (fun q hq ↦ h q (hparts q hq)) hb
  next hkind =>
    rw [hkind] at hparts
    exact anyM_mono (fun q hq ↦ h q (hparts q hq)) hb
  next hkind =>
    rw [hkind] at hparts
    exact anyM_mono (fun q hq ↦ h q (hparts q hq)) hb
  · exact hb

/-- Nullability is an answer to the test. -/
theorem eodOkFrom_isNullable (hg : g.WellFormed) (hsettled : g.Settled) (hp : p ∈ g.ids) :
    g.eodOkFrom (fun q ↦ some (g.isNullable q)) p = some (g.isNullable p) := by
  have hnull {kind v} (hkind : g.kind (g.resolve p) = kind) (hv : g.evaluate kind = some v) :
      g.isNullable p = v.1 := (hsettled _ (resolve_mem_ids hg hp) v (hkind ▸ hv)).1
  unfold eodOkFrom
  split
  next hkind => rw [hnull hkind rfl, Bool.true_or]
  next hkind => rw [hnull hkind rfl]
  next items hkind =>
    refine (allM_pure ..).trans (congrArg some ?_)
    rw [hnull hkind rfl, Bool.eq_iff_iff, all_eq_true]
    exact firstOfSequence_snd.symm
  next yes no hkind =>
    refine (anyM_pure ..).trans (congrArg some ?_)
    rw [hnull hkind rfl]
    exact (Bool.or_false _).symm
  next left right hkind =>
    refine (anyM_pure ..).trans (congrArg some ?_)
    rw [hnull hkind rfl]
    exact (Bool.or_false _).symm
  · rfl

/-- An answer to the test does not depend on the depth at which it is found. -/
theorem eodOkWithin_keeps (hg : g.WellFormed) {fuel : Nat} (hb : g.eodOkWithin fuel p = some b) :
    g.eodOkWithin (fuel + 1) p = some b := by
  induction fuel generalizing p b with
  | zero => cases hb
  | succ fuel ih => exact eodOkFrom_mono hg (fun q _ b ↦ ih) hb

theorem eodOk?_of_eodOkWithin (hg : g.WellFormed) (hp : p ∈ g.ids) {fuel : Nat}
    (hb : g.eodOkWithin fuel p = some b) : g.eodOk? p = some b := by
  have hfollows : Saturation.Follows g.ids.toFinset g.eodOkWithin := by
    intro bound hquiet p _
    refine Option.ext fun b ↦ ⟨eodOkFrom_mono hg ?_, eodOkFrom_mono hg ?_⟩
    all_goals
      intro q hq b hb
      simpa [hquiet q (mem_toFinset.2 hq)] using hb
  have hcard : g.ids.toFinset.card ≤ g.size := (toFinset_card_le _).trans (by simp [ids])
  have hkeeps : Saturation.Keeps g.ids.toFinset g.eodOkWithin := fun _ _ _ _ ↦ eodOkWithin_keeps hg
  have hlater : ∀ k, g.eodOkWithin (fuel + k) p = some b := by
    intro k
    induction k with
    | zero => exact hb
    | succ k ih => exact eodOkWithin_keeps hg ih
  rw [eodOk?, ← hlater (g.size + 1)]
  exact (Saturation.answer_eq hkeeps hfollows (by omega) (by omega) (mem_toFinset.2 hp)).symm

end

/-- Where the test for the end of the data comes to an end, it says whether the production is nullable. -/
theorem eodOk?_eq_isNullable (h : ofDeclaration? t declaration = .ok (some (g, lines))) {p : ProductionId}
    (hp : p ∈ g.ids) {fuel : Nat} {b : Bool} (hends : g.eodOkWithin fuel p = some b) :
    g.eodOk? p = some (g.isNullable p) := by
  obtain ⟨⟨hg, hsaturated, -, -⟩, -⟩ := analyzed_of_ofDeclaration? h
  have hnull : ∀ fuel, ∀ q ∈ g.ids, ∀ b, g.eodOkWithin fuel q = some b → some (g.isNullable q) = some b := by
    intro fuel
    induction fuel with
    | zero => exact fun _ _ _ hb ↦ by cases hb
    | succ fuel ih =>
      intro q hq b hb
      rw [← eodOkFrom_isNullable hg hsaturated.settled hq]
      exact eodOkFrom_mono hg ih hb
  rw [hnull fuel p hp b hends]
  exact eodOk?_of_eodOkWithin hg hp hends

/-- The data may end where the inner chunk is left out. -/
theorem eodOk?_of_chunkUnit : ∃ g lines, ofDeclaration? chunkUnit ⟨1⟩ = .ok (some (g, lines)) ∧
    g.eodOkWithin 2 ⟨5⟩ = some true ∧ g.eodOk? ⟨5⟩ = some (g.isNullable ⟨5⟩) := by
  obtain ⟨g, lines, hrun, heval⟩ := exists_of_eval chunkUnit ⟨1⟩
    (f := fun g ↦ (g.size, g.eodOkWithin 2 ⟨5⟩)) (a := (7, some true)) (by decide +kernel)
  obtain ⟨hsize, hends⟩ := Prod.mk.inj heval
  exact ⟨g, lines, hrun, hends, eodOk?_eq_isNullable hrun (mem_ids.2 (by rw [hsize]; decide)) hends⟩

end ProtocolIR.Grammar
