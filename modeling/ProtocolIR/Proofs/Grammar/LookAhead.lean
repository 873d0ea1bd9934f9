import ProtocolIR.Proofs.Grammar.Analysis

/-!
# Decisions at look-aheads

A look-ahead takes one of two alternatives by the next symbol: a token, or the end of the data. An
alternative can be taken on a token that begins it, on a token that may come after the look-ahead
if it can match nothing, and at the end of the data if it can match nothing.

The analysis compares sets of tokens. So it accepts a grammar exactly if no token leaves a choice;
the end of the data leaves one only where both alternatives can match nothing and no token may come
after them.
-/

namespace ProtocolIR.Grammar

open List Option

variable {g : Grammar} {t : Tree} {declaration : NodeId} {lines : List String}
  {p left right alternative : ProductionId} {token : Token} {sets : TokenSet × TokenSet}

/-- Whether an alternative of a look-ahead can be taken on the next symbol, where none is the end
of the data. -/
def Viable (g : Grammar) (p alternative : ProductionId) : Option Token → Prop
  | some token =>
    token ∈ g.first alternative ∨ g.isNullable alternative = true ∧ token ∈ g.follow p
  | none => g.isNullable alternative = true

theorem mem_selecting : token ∈ g.selecting p alternative ↔ g.Viable p alternative (some token) := by
  unfold selecting Viable
  split
  · next hnullable => simp [hnullable]
  · next hnullable => simp [hnullable]

theorem ambiguity_eq_none_iff : g.ambiguity p sets = none ↔ ∀ token ∈ sets.1, token ∉ sets.2 := by
  unfold ambiguity
  split
  · next hshared =>
    refine iff_of_true rfl fun token hleft hright ↦ ?_
    exact filter_eq_nil_iff.1 hshared token hleft (contains_iff_mem.2 hright)
  · next hshared =>
    refine iff_of_false (fun h ↦ by cases h) fun hdisjoint ↦ hshared ?_
    exact filter_eq_nil_iff.2 fun token hleft hright ↦
      hdisjoint token hleft (contains_iff_mem.1 hright)

theorem lookAheadSets_eq_some_iff :
    g.lookAheadSets p = some sets ↔ ∃ left right, g.kind p = .lookAhead left right ∧
      sets = (g.selecting p left, g.selecting p right) := by
  unfold lookAheadSets
  split
  · next left right hkind =>
    constructor
    · rintro h
      exact ⟨left, right, hkind, (some.inj h).symm⟩
    · rintro ⟨left', right', hkind', rfl⟩
      cases hkind.symm.trans hkind'
      rfl
  · next hno =>
    refine iff_of_false (fun h ↦ by cases h) ?_
    rintro ⟨left, right, hkind, -⟩
    exact hno left right hkind

theorem mem_ids_of_lookAhead (hp : g.kind p = .lookAhead left right) : p ∈ g.ids := by
  by_contra hmem
  have hdefault : g.production p = default := by
    unfold production
    rw [Array.getElem?_eq_none (Nat.le_of_not_lt fun hlt ↦ hmem (mem_ids.2 hlt))]
    rfl
  rw [kind, hdefault] at hp
  cases hp

/-- The check of the look-aheads finds nothing exactly if no token selects both alternatives of
one. -/
theorem errors_checkLookAheads_eq_nil_iff : g.checkLookAheads.errors = [] ↔
    ∀ p left right token, g.kind p = .lookAhead left right →
      token ∈ g.selecting p left → token ∉ g.selecting p right := by
  have hentries : g.checkLookAheads.errors = [] ↔
      ∀ p ∈ g.ids, ∀ sets, g.lookAheadSets p = some sets → g.ambiguity p sets = none := by
    simp only [checkLookAheads, filterMap_eq_nil_iff, mem_filterMap,
      map_eq_some_iff]
    constructor
    · intro h p hp sets hsets
      exact h (p, sets) ⟨p, hp, sets, hsets, rfl⟩
    · rintro h _ ⟨p, hp, sets, hsets, rfl⟩
      exact h p hp sets hsets
  rw [hentries]
  constructor
  · intro h p left right token hp hleft
    have hsets := lookAheadSets_eq_some_iff.2 ⟨left, right, hp, rfl⟩
    exact ambiguity_eq_none_iff.1 (h p (mem_ids_of_lookAhead hp) _ hsets) token hleft
  · intro h p _ sets hsets
    obtain ⟨left, right, hp, rfl⟩ := lookAheadSets_eq_some_iff.1 hsets
    exact ambiguity_eq_none_iff.2 fun token hleft ↦ h p left right token hp hleft

/-- The analysis ends with the check of the look-aheads, which changes nothing that it reads. -/
theorem errors_analyze_eq_nil_iff : (analyze g).1.errors = [] ↔
    ∀ p left right token, (analyze g).1.kind p = .lookAhead left right →
      (analyze g).1.Viable p left (some token) → ¬(analyze g).1.Viable p right (some token) := by
  obtain ⟨g', hg'⟩ : ∃ g', (analyze g).1 = checkLookAheads g' := ⟨_, rfl⟩
  have hkind : ∀ p, (checkLookAheads g').kind p = g'.kind p := fun _ ↦ rfl
  have hattributes : ∀ p, (checkLookAheads g').attributesOf p = g'.attributesOf p :=
    attributesOf_congr rfl fun _ ↦ rfl
  have hselecting : ∀ p a, (checkLookAheads g').selecting p a = g'.selecting p a := by
    intro p a
    rw [selecting, selecting, isNullable, first, follow, hattributes, hattributes]
    rfl
  simp only [hg', ← mem_selecting, hkind, hselecting]
  exact errors_checkLookAheads_eq_nil_iff

/-- The analysis accepts the grammar of a unit exactly if at every look-ahead the next symbol
leaves no choice, but for the end of the data at a look-ahead that nothing may follow. -/
theorem errors_eq_nil_iff_deterministic
    (h : ofDeclaration? t declaration = .ok (some (g, lines))) :
    g.errors = [] ↔ ∀ p left right next, g.kind p = .lookAhead left right →
      g.Viable p left next → g.Viable p right next → next = none ∧ g.follow p = [] := by
  obtain ⟨_, -, -, g₀, _, _, _, rfl, -⟩ := told_of_declaration h
  rw [errors_analyze_eq_nil_iff]
  constructor
  · intro hdisjoint p left right next hp hleft hright
    cases next with
    | some token => exact absurd hright (hdisjoint p left right token hp hleft)
    | none =>
      refine ⟨rfl, eq_nil_iff_forall_not_mem.2 fun token hfollow ↦ ?_⟩
      exact hdisjoint p left right token hp (.inr ⟨hleft, hfollow⟩) (.inr ⟨hright, hfollow⟩)
  · intro hdecided p left right token hp hleft hright
    cases (hdecided p left right (some token) hp hleft hright).1

/-- The grammar of a declaration, given what is seen of it. -/
theorem exists_of_view {α : Type} (t : Tree) (declaration : NodeId) (view : Grammar → α) (seen : α)
    (h : ((ofDeclaration? t declaration).map fun r ↦ r.map fun r ↦ view r.1).toOption.join =
      some seen) :
    ∃ g lines, ofDeclaration? t declaration = .ok (some (g, lines)) ∧ view g = seen := by
  cases hrun : ofDeclaration? t declaration with
  | error f => rw [hrun] at h; cases h
  | ok r =>
    rw [hrun] at h
    cases r with
    | none => cases h
    | some r => exact ⟨r.1, r.2, rfl, some.inj h⟩

/-- The unit that may contain itself is accepted, and where the data ends it does not do so. -/
theorem deterministic_chunkUnit : ∃ g lines,
    ofDeclaration? chunkUnit ⟨1⟩ = .ok (some (g, lines)) ∧ g.errors = [] ∧
      g.kind ⟨5⟩ = .lookAhead ⟨3⟩ ⟨4⟩ ∧ g.Viable ⟨5⟩ ⟨4⟩ none ∧ ¬g.Viable ⟨5⟩ ⟨3⟩ none := by
  obtain ⟨g, lines, hrun, hview⟩ := exists_of_view chunkUnit ⟨1⟩
    (fun g ↦ (g.errors, g.kind ⟨5⟩, g.isNullable ⟨4⟩, (g.follow ⟨5⟩).isEmpty))
    ([], .lookAhead ⟨3⟩ ⟨4⟩, true, false) (by decide +kernel)
  simp only [Prod.mk.injEq] at hview
  obtain ⟨herrors, hkind, hnullable, hfollow⟩ := hview
  refine ⟨g, lines, hrun, herrors, hkind, hnullable, fun hviable ↦ ?_⟩
  have hdecided := (errors_eq_nil_iff_deterministic hrun).1 herrors
  rw [(hdecided _ _ _ none hkind hviable hnullable).2] at hfollow
  cases hfollow

/-- A unit that ends with a value that is optional twice. -/
def twiceOptional : Tree := .ofRows [
  (.root, [1]),
  (.declares "U" .type .external, [2]),
  (.value, [3]),
  (.type { shape := .unit, typeId := some "m::U" }, [4]),
  (.item (.field (some "x") false), [5]),
  (.value, [6]),
  (.shaped .optional, [7]),
  (.value, [8]),
  (.shaped .optional, [9]),
  (.value, [10]),
  (.shaped (.unsigned 8), [])]

/-- It is accepted, although at the end of the data nothing tells an optional value that is not
there from one that is there and is not there in turn. -/
theorem both_viable_twiceOptional : ∃ g lines,
    ofDeclaration? twiceOptional ⟨1⟩ = .ok (some (g, lines)) ∧ g.errors = [] ∧
      g.kind ⟨5⟩ = .lookAhead ⟨3⟩ ⟨4⟩ ∧ g.Viable ⟨5⟩ ⟨3⟩ none ∧ g.Viable ⟨5⟩ ⟨4⟩ none := by
  obtain ⟨g, lines, hrun, hview⟩ := exists_of_view twiceOptional ⟨1⟩
    (fun g ↦ (g.errors, g.kind ⟨5⟩, g.isNullable ⟨3⟩, g.isNullable ⟨4⟩))
    ([], .lookAhead ⟨3⟩ ⟨4⟩, true, true) (by decide +kernel)
  simp only [Prod.mk.injEq] at hview
  obtain ⟨herrors, hkind, hleft, hright⟩ := hview
  exact ⟨g, lines, hrun, herrors, hkind, hleft, hright⟩

end ProtocolIR.Grammar
