import ProtocolIR.Proofs.Grammar.First

/-!
# The least solution and the language

The least solution of the equations says which productions derive nothing at all and has every
token that begins what a production derives. It does not depend on how the productions are
numbered.
-/

namespace ProtocolIR

open List

namespace ProductionKind

/-- The kind with all productions renumbered. -/
def map (f : ProductionId → ProductionId) : ProductionKind → ProductionKind
  | .epsilon => .epsilon
  | .literal text => .literal text
  | .typeLiteral type => .typeLiteral type
  | .boolean predicate yes no => .boolean predicate (f yes) (f no)
  | .block size body => .block size (f body)
  | .counter count body => .counter count (f body)
  | .sequence items => .sequence (items.map f)
  | .enclosure body => .enclosure (f body)
  | .forEach body eod => .forEach (f body) eod
  | .loop condition body => .loop condition (f body)
  | .switch expression cases otherwise =>
    .switch expression (cases.map fun entry ↦ (entry.1, f entry.2)) (otherwise.map f)
  | .lookAhead left right => .lookAhead (f left) (f right)
  | .reference target => .reference (f target)
  | .placeholder target => .placeholder (target.map f)
  | .skip type => .skip type
  | .value type => .value type
  | .unit typeId parameters fields => .unit typeId parameters (fields.map f)

variable {kind : ProductionKind}

theorem map_id (kind : ProductionKind) : kind.map id = kind := by
  cases kind <;> simp [map]

theorem map_map (f f' : ProductionId → ProductionId) (kind : ProductionKind) :
    (kind.map f).map f' = kind.map (f' ∘ f) := by
  cases kind <;> simp [map]

theorem children_map (f : ProductionId → ProductionId) (kind : ProductionKind) :
    (kind.map f).children = kind.children.map f := by
  have hoption (o : Option ProductionId) : (o.map f).toList = o.toList.map f := by
    cases o <;> rfl
  cases kind <;> simp [map, children, hoption, Function.comp_def]

theorem Expands.map {ps : List ProductionId} (h : kind.Expands ps)
    (f : ProductionId → ProductionId) : (kind.map f).Expands (ps.map f) := by
  cases h with
  | epsilon => exact .epsilon
  | sequence => exact .sequence
  | unit => exact .unit
  | yes => exact .yes
  | no => exact .no
  | left => exact .left
  | right => exact .right
  | case h => exact .case (mem_map.2 ⟨_, h, rfl⟩)
  | otherwise => exact .otherwise
  | noCase => exact .noCase
  | counter n => exact map_replicate ▸ .counter n
  | loop n => exact map_replicate ▸ .loop n
  | forEach n h => exact map_replicate ▸ .forEach n h
  | enclosure => exact .enclosure
  | block => exact .block
  | reference => exact .reference
  | placeholder => exact .placeholder

end ProductionKind

namespace Grammar

variable {g g' : Grammar} {p q : ProductionId} {ps : List ProductionId} {kind : ProductionKind}
  {token : Token} {w : List Token} {f : Equiv.Perm ProductionId} {nullable : ProductionId → Prop}
  {first : ProductionId → Token → Prop}

/-! ## The result of the rounds -/

/-- What is recorded is the least solution of the equations. -/
structure Saturated (g : Grammar) : Prop where
  settled : g.Settled
  blank : g.ReferencesBlank
  ascending : ∀ p, (g.recorded p).first.Ascending
  tokens : ∀ p, (g.recorded p).first ⊆ g.tokens
  least : ∀ nullable first, Closed nullable first g → Bounded nullable first g

/-- A grammar before its analysis. -/
def cleared (g : Grammar) : Grammar := { g with attributes := g.productions.map fun _ ↦ {} }

theorem recorded_cleared (g : Grammar) (p : ProductionId) : g.cleared.recorded p = {} := by
  simp only [recorded, cleared, Array.getElem?_map]
  cases g.productions[p.index]? <;> rfl

theorem rising_cleared (g : Grammar) : g.cleared.Rising where
  size := by simp [cleared, size]
  ascending p := by
    rw [recorded_cleared]
    exact .nil
  tokens p := by simp [recorded_cleared]
  references p _ := by simp [recorded_cleared]
  evaluate p v _ := by simp [recorded_cleared]

theorem WellFormed.congr (h : g.WellFormed) (hproductions : g'.productions = g.productions) :
    g'.WellFormed := by
  intro p q hq
  rw [kind_congr hproductions] at hq
  rw [ids_congr hproductions]
  exact h p q hq

theorem Closed.congr (h : Closed nullable first g) (hproductions : g'.productions = g.productions) :
    Closed nullable first g' := by
  constructor
  · intro p hp
    rw [ids_congr hproductions] at hp
    rw [kind_congr hproductions]
    exact h.of_vanishes p hp
  · intro p hp
    rw [ids_congr hproductions] at hp
    rw [kind_congr hproductions]
    exact h.of_begins p hp

/-- The rounds from a grammar of which nothing is recorded. -/
def settledFirst (g : Grammar) : Grammar × Nat :=
  settleFirst (g.size * (g.size + 1) + 2) 0 g.cleared

theorem settledFirst_rising (g : Grammar) :
    g.settledFirst.1.Rising ∧ g.settledFirst.1.productions = g.productions ∧
      g.settledFirst.1.root = g.root ∧ ∀ p, (g.settledFirst.1.recorded p).follow = [] := by
  refine settleFirst_induction (P := fun g' ↦ g'.Rising ∧ g'.productions = g.productions ∧
    g'.root = g.root ∧ ∀ p, (g'.recorded p).follow = []) ?_ ⟨g.rising_cleared, rfl, rfl, ?_⟩ _ _
  · rintro g' p v ⟨hrising, hproductions, hroot, hfollow⟩ hp hv
    refine ⟨hrising.record hp hv, hproductions, hroot, fun q ↦ ?_⟩
    rw [record, recorded_modifyAttributes (hrising.size ▸ mem_ids.1 hp)]
    split
    · exact hfollow p
    · exact hfollow q
  · simp [recorded_cleared]

theorem settledFirst_bounded (hg : g.WellFormed) (hclosed : Closed nullable first g) :
    Bounded nullable first g.settledFirst.1 := by
  have h := settleFirst_induction
    (P := fun g' ↦ g'.Rising ∧ g'.productions = g.productions ∧ Bounded nullable first g') ?_
    ⟨g.rising_cleared, rfl, ?_⟩ (g.size * (g.size + 1) + 2) 0
  · exact h.2.2
  · rintro g' p v ⟨hrising, hproductions, hbounded⟩ hp hv
    refine ⟨hrising.record hp hv, hproductions, ?_⟩
    exact hbounded.record (hclosed.congr hproductions) (hg.congr hproductions) hrising hp hv
  · intro p _
    simp [recorded_cleared]

theorem settledFirst_saturated (hg : g.WellFormed) : g.settledFirst.1.Saturated := by
  obtain ⟨hrising, hproductions, -⟩ := g.settledFirst_rising
  refine ⟨?_, hrising.references, hrising.ascending, hrising.tokens,
    fun nullable first hclosed ↦ ?_⟩
  · refine settled_settleFirst g.rising_cleared ?_ 0
    have hsize : g.cleared.size = g.size := rfl
    rw [hsize]
    omega
  · exact settledFirst_bounded hg (hclosed.congr hproductions.symm)

theorem firstOfSequence_congr (hnull : g'.isNullable = g.isNullable) (hfirst : g'.first = g.first)
    (ps : List ProductionId) : g'.firstOfSequence ps = g.firstOfSequence ps := by
  induction ps with
  | nil => rfl
  | cons p ps ih => rw [firstOfSequence, firstOfSequence, hnull, hfirst, ih]

section

variable (hproductions : g'.productions = g.productions)
  (hnull : ∀ p, (g'.recorded p).nullable = (g.recorded p).nullable)
  (hfirst : ∀ p, (g'.recorded p).first = (g.recorded p).first)
include hproductions hnull hfirst

theorem evaluate_congr (kind : ProductionKind) : g'.evaluate kind = g.evaluate kind := by
  have hisNullable : g'.isNullable = g.isNullable := by
    funext p
    rw [isNullable, isNullable, attributesOf_eq, attributesOf_eq, resolve_congr hproductions, hnull]
  have hfirst' : g'.first = g.first := by
    funext p
    rw [first, first, attributesOf_eq, attributesOf_eq, resolve_congr hproductions, hfirst]
  have hsequence := firstOfSequence_congr hisNullable hfirst'
  cases kind <;> simp only [evaluate, firstOfChoice, hsequence, hisNullable, hfirst']

/-- What is recorded about FOLLOW does not matter. -/
theorem Saturated.congr (h : g.Saturated) : g'.Saturated where
  settled p hp v hv := by
    rw [ids_congr hproductions] at hp
    rw [kind_congr hproductions, evaluate_congr hproductions hnull hfirst] at hv
    rw [hnull, hfirst]
    exact h.settled p hp v hv
  blank p hp := by
    rw [kind_congr hproductions] at hp
    rw [hnull, hfirst]
    exact h.blank p hp
  ascending p := by
    rw [hfirst]
    exact h.ascending p
  tokens p := by
    rw [hfirst, tokens_congr hproductions]
    exact h.tokens p
  least nullable first hclosed := by
    have hbounded := h.least nullable first (hclosed.congr hproductions.symm)
    intro p hp
    rw [ids_congr hproductions] at hp
    rw [hnull, hfirst]
    exact hbounded p hp

end

/-! ## The language -/

/-- What begins a sequence of tokens that is derived. -/
theorem Saturated.of_derives (h : g.Saturated) (hg : g.WellFormed) (hw : g.Derives ps w)
    (hps : ∀ p ∈ ps, p ∈ g.ids) :
    (w = [] → ∀ p ∈ ps, g.isNullable p = true) ∧ ∀ token rest, w = token :: rest →
      BeginsSequence (g.isNullable · = true) (fun p token ↦ token ∈ g.first p) ps token := by
  induction hw with
  | nil => simp
  | token htoken _ _ =>
    rw [forall_mem_cons] at hps
    refine ⟨by simp, ?_⟩
    rintro _ _ ⟨⟩
    exact beginsSequence_cons.2 (.inl (((h.settled.behaves h.blank hg hps.1).2 _).1 (.inl htoken)))
  | @expand p ps qs v w hexpands _ _ ihbody ihrest =>
    rw [forall_mem_cons] at hps
    obtain ⟨hnull, hfirst⟩ := h.settled.behaves h.blank hg hps.1
    obtain ⟨hbody, hbody'⟩ := ihbody fun q hq ↦ hg p q (hexpands.subset_children hq)
    obtain ⟨hrest, hrest'⟩ := ihrest hps.2
    cases v with
    | nil =>
      have hp : g.isNullable p = true := hnull.1 ⟨qs, hexpands, hbody rfl⟩
      refine ⟨fun hw ↦ forall_mem_cons.2 ⟨hp, hrest hw⟩, fun token rest hw ↦ ?_⟩
      exact beginsSequence_cons.2 (.inr ⟨hp, hrest' token rest hw⟩)
    | cons head tail =>
      refine ⟨by simp, ?_⟩
      rintro _ _ ⟨⟩
      exact beginsSequence_cons.2 (.inl ((hfirst _).1 (.inr ⟨qs, hexpands, hbody' _ _ rfl⟩)))

theorem Saturated.mem_first_of_derives (h : g.Saturated) (hg : g.WellFormed) (hp : p ∈ g.ids)
    (hw : g.Derives [p] (token :: w)) : token ∈ g.first p := by
  have hbegins := (h.of_derives hg hw (by simpa using hp)).2 token w rfl
  simpa using hbegins

theorem Saturated.isNullable_iff (h : g.Saturated) (hg : g.WellFormed) (hp : p ∈ g.ids) :
    g.isNullable p = true ↔ g.Derives [p] [] := by
  constructor
  · intro hnull
    -- Deriving nothing is closed under the equations, with any FIRST whatsoever.
    have hclosed : Closed (fun p ↦ g.Derives [p] []) (fun _ _ ↦ True) g := by
      refine ⟨?_, fun _ _ _ _ ↦ trivial⟩
      rintro p - ⟨ps, hps, hall⟩
      exact .singleton hps (.of_forall hall)
    exact (h.least _ _ hclosed).of_isNullable hclosed hg hp hnull
  · intro hw
    simpa using (h.of_derives hg hw (by simpa using hp)).1 rfl

/-! ## Solutions -/

/-- What is recorded, whatever it is, satisfies the equations by which it is evaluated. -/
def Solves (g : Grammar) : Prop :=
  ∀ p ∈ g.ids, ∀ nullable first, g.evaluate (g.kind p) = some (nullable, first) →
    (g.recorded p).nullable = nullable ∧ ∀ token, token ∈ (g.recorded p).first ↔ token ∈ first

theorem Settled.solves (h : g.Settled) : g.Solves := by
  intro p hp nullable first hv
  obtain ⟨hnull, hfirst⟩ := h p hp _ hv
  exact ⟨hnull, fun token ↦ by rw [hfirst]⟩

theorem Solves.of_evaluate (h : g.Solves) (hp : p ∈ g.ids) {v : Bool × TokenSet}
    (hv : g.evaluate (g.kind p) = some v) :
    g.isNullable p = v.1 ∧ ∀ token, token ∈ g.first p ↔ token ∈ v.2 := by
  rw [isNullable, first, attributesOf_eq, resolve_of_final (reference?_eq_none_of_evaluate hv)]
  exact h p hp v.1 v.2 hv

/-- A solution is closed under the equations, as far as the chains of references end. -/
theorem Solves.closed (h : g.Solves) (hg : g.WellFormed) :
    Closed (fun p ↦ g.Ends p ∧ g.isNullable p = true) (fun p token ↦ g.Ends p ∧ token ∈ g.first p)
      g := by
  suffices hall : ∀ p ∈ g.ids,
      (Vanishes (fun p ↦ g.Ends p ∧ g.isNullable p = true) (g.kind p) →
        g.Ends p ∧ g.isNullable p = true) ∧
      ∀ token, Begins (fun p ↦ g.Ends p ∧ g.isNullable p = true)
        (fun p token ↦ g.Ends p ∧ token ∈ g.first p) (g.kind p) token →
          g.Ends p ∧ token ∈ g.first p from
    ⟨fun p hp ↦ (hall p hp).1, fun p hp ↦ (hall p hp).2⟩
  intro p hp
  cases hv : g.evaluate (g.kind p) with
  | some v =>
    have hends := ends_of_final (reference?_eq_none_of_evaluate hv)
    obtain ⟨hnull, hfirst⟩ := behaves_evaluate hv
    obtain ⟨hnull', hfirst'⟩ := h.of_evaluate hp hv
    refine ⟨fun hvanishes ↦ ⟨hends, ?_⟩, fun token hbegins ↦ ⟨hends, ?_⟩⟩
    · exact hnull'.trans (hnull.1 (hvanishes.mono fun _ _ hq ↦ hq.2))
    · exact (hfirst' token).2 ((hfirst token).1
        (hbegins.mono (fun _ _ hq ↦ hq.2) fun _ _ hq ↦ hq.2))
  | none =>
    have hreference := evaluate_eq_none_iff.1 hv
    cases hq : (g.kind p).reference? with
    | none =>
      obtain ⟨hnull, hfirst⟩ := behaves_blank hreference hq
      exact ⟨fun hvanishes ↦ (hnull.1 hvanishes).elim, fun token hbegins ↦
        ((hfirst token).1 hbegins).elim⟩
    | some q =>
      obtain ⟨hnull, hfirst⟩ := behaves_reference hq
      have hends := ends_reference_iff hg hp hq
      have hresolve := resolve_reference hg hp hq
      refine ⟨fun hvanishes ↦ ?_, fun token hbegins ↦ ?_⟩
      · obtain ⟨hq, hnull⟩ := hnull.1 hvanishes
        refine ⟨hends.2 hq, ?_⟩
        rwa [isNullable, attributesOf_eq, hresolve (hends.2 hq)]
      · obtain ⟨hq, hfirst⟩ := (hfirst token).1 hbegins
        refine ⟨hends.2 hq, ?_⟩
        rwa [first, attributesOf_eq, hresolve (hends.2 hq)]

/-- What is recorded is below every solution of the equations. -/
theorem Saturated.le_of_solves (h : g.Saturated) (hg : g.WellFormed)
    (hproductions : g'.productions = g.productions) (hsolves : g'.Solves) (hp : p ∈ g.ids) :
    (g.isNullable p = true → g'.isNullable p = true) ∧ g.first p ⊆ g'.first p := by
  have hclosed := (hsolves.closed (hg.congr hproductions)).congr hproductions.symm
  have hbounded := h.least _ _ hclosed
  refine ⟨fun hnull ↦ ?_, fun token hfirst ↦ ?_⟩
  · exact (hbounded.of_isNullable hclosed hg hp hnull).2
  · exact (hbounded.of_mem_first hclosed hg hp hfirst).2

/-! ## Other numberings -/

theorem token?_map (f : ProductionId → ProductionId) (kind : ProductionKind) :
    token? (kind.map f) = token? kind := by
  cases kind <;> rfl

/-- The second grammar has the productions of the first one under other numbers. -/
structure Renumbers (f : Equiv.Perm ProductionId) (g g' : Grammar) : Prop where
  mem_ids : ∀ p, f p ∈ g'.ids ↔ p ∈ g.ids
  kind : ∀ p ∈ g.ids, g'.kind (f p) = (g.kind p).map f

variable (h : Renumbers f g g')

include h

theorem Renumbers.symm :
    Renumbers f.symm g' g where
  mem_ids p := by
    rw [← h.mem_ids, f.apply_symm_apply]
  kind p hp := by
    have hmem : f.symm p ∈ g.ids := by
      rwa [← h.mem_ids, f.apply_symm_apply]
    have hkind := h.kind _ hmem
    rw [f.apply_symm_apply] at hkind
    rw [hkind, ProductionKind.map_map, f.symm_comp_self, ProductionKind.map_id]

theorem Renumbers.wellFormed (hg : g.WellFormed) : g'.WellFormed := by
  intro p q hq
  by_cases hp : p ∈ g'.ids
  · obtain ⟨p, rfl⟩ := f.surjective p
    rw [h.kind p ((h.mem_ids p).1 hp), ProductionKind.children_map] at hq
    obtain ⟨r, hr, rfl⟩ := mem_map.1 hq
    exact (h.mem_ids r).2 (hg p r hr)
  · rw [kind_of_notMem hp] at hq
    cases hq

theorem Renumbers.congr {g'' : Grammar} (hproductions : g''.productions = g'.productions) :
    Renumbers f g g'' where
  mem_ids p := by
    rw [ids_congr hproductions]
    exact h.mem_ids p
  kind p hp := by
    rw [kind_congr hproductions]
    exact h.kind p hp

/-- What is recorded under one numbering is below what is recorded under another one. -/
theorem Renumbers.le (hg : g.WellFormed) (hsat : g.Saturated) (hsat' : g'.Saturated)
    (hp : p ∈ g.ids) :
    (g.isNullable p = true → g'.isNullable (f p) = true) ∧ g.first p ⊆ g'.first (f p) := by
  have hclosed : Closed (fun p ↦ g'.isNullable (f p) = true)
      (fun p token ↦ token ∈ g'.first (f p)) g := by
    constructor
    · rintro p hp ⟨ps, hps, hnull⟩
      have hmem := (h.mem_ids p).2 hp
      have hexpands := hps.map f
      rw [← h.kind p hp] at hexpands
      refine (hsat'.settled.behaves hsat'.blank (h.wellFormed hg) hmem).1.1 ⟨_, hexpands, ?_⟩
      simpa using hnull
    · intro p hp token hbegins
      have hmem := (h.mem_ids p).2 hp
      refine ((hsat'.settled.behaves hsat'.blank (h.wellFormed hg) hmem).2 token).1 ?_
      rw [h.kind p hp]
      obtain htoken | ⟨_, hps, before, q, after, rfl, hbefore, hq⟩ := hbegins
      · exact .inl ((token?_map _ _).trans htoken)
      · have hexpands := hps.map f
        rw [map_append, map_cons] at hexpands
        exact .inr ⟨_, hexpands, before.map f, f q, after.map f, rfl, by simpa using hbefore, hq⟩
  have hbounded := hsat.least _ _ hclosed
  exact ⟨hbounded.of_isNullable hclosed hg hp, fun _ ↦ hbounded.of_mem_first hclosed hg hp⟩

theorem Renumbers.eq (hg : g.WellFormed) (hsat : g.Saturated) (hsat' : g'.Saturated)
    (hp : p ∈ g.ids) : g'.isNullable (f p) = g.isNullable p ∧ g'.first (f p) = g.first p := by
  obtain ⟨hnull, hfirst⟩ := h.le hg hsat hsat' hp
  obtain ⟨hnull', hfirst'⟩ := h.symm.le (h.wellFormed hg) hsat' hsat ((h.mem_ids p).2 hp)
  rw [f.symm_apply_apply] at hnull' hfirst'
  refine ⟨Bool.eq_iff_iff.2 ⟨hnull', hnull⟩, ?_⟩
  exact (hsat'.ascending _).eq_of_subset (hsat.ascending _) hfirst' hfirst

end Grammar

end ProtocolIR
