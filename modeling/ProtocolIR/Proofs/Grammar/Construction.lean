import ProtocolIR.Proofs.Grammar.Keeping

/-!
# References in a grammar that is built

Productions are only ever added, and what a production refers to has been added before. When the
first unit is complete, so are all others, and every placeholder is told the production of the unit
that it waits for. So in the grammar of a unit every reference is a production.
-/

namespace ProtocolIR.Grammar

open List Option

open ProductionKind (Role)

variable {t : Tree} {start : NodeId} {g : Grammar} {target : ProductionId}

/-! ## Placeholders are told their targets -/

/-- A placeholder that has got its target, with the symbol that the target has in a draft. -/
def Draft.told (d : Draft) (target : ProductionId) (production : Production) : Production :=
  { production with
    symbol := (d.productions[target.index]?.getD default).symbol
    kind := .placeholder (some target) }

theorem tiePlaceholder_of_lookup {state : Draft × List String} {entry : ProductionId × NodeId}
    (h : state.1.units.lookup entry.2 = some (some target)) :
    (tiePlaceholder state entry).1 = { state.1 with
      productions := state.1.productions.modify entry.1.index (state.1.told target) } := by
  unfold tiePlaceholder
  simp only [h, join_some]
  rfl

/-- Each placeholder is told its target, and no other production changes. -/
theorem foldl_tiePlaceholder {entries : List (ProductionId × NodeId)}
    (target : NodeId → ProductionId)
    (state : Draft × List String) (hdistinct : (entries.map Prod.fst).Nodup)
    (htarget : ∀ entry ∈ entries, state.1.units.lookup entry.2 = some (some (target entry.2)) ∧
      target entry.2 ∉ entries.map Prod.fst) :
    (∀ q ∉ entries.map Prod.fst, (entries.foldl tiePlaceholder state).1.productions[q.index]? =
        state.1.productions[q.index]?) ∧
      ∀ entry ∈ entries, (entries.foldl tiePlaceholder state).1.productions[entry.1.index]? =
        state.1.productions[entry.1.index]?.map (state.1.told (target entry.2)) := by
  induction entries generalizing state with
  | nil => exact ⟨fun _ _ ↦ rfl, fun _ h ↦ nomatch h⟩
  | cons entry entries ih =>
    rw [map_cons, nodup_cons] at hdistinct
    obtain ⟨⟨hlookup, hfresh⟩, hrest⟩ := forall_mem_cons.1 htarget
    have hstep := tiePlaceholder_of_lookup hlookup
    -- Apart from the first placeholder the first step changes nothing.
    have hother : ∀ q, q ≠ entry.1 → (tiePlaceholder state entry).1.productions[q.index]? =
        state.1.productions[q.index]? := by
      intro q hq
      rw [hstep, Array.getElem?_modify, if_neg (ProductionId.index_ne (Ne.symm hq))]
    obtain ⟨hsame, htold⟩ := ih (tiePlaceholder state entry) hdistinct.2 fun other hmem ↦ by
      obtain ⟨hother, hnew⟩ := hrest other hmem
      exact ⟨by rw [hstep]; exact hother, fun h ↦ hnew (mem_cons_of_mem _ h)⟩
    refine ⟨fun q hq ↦ ?_, fun other hmem ↦ ?_⟩
    · rw [map_cons, mem_cons, not_or] at hq
      exact (hsame q hq.2).trans (hother q hq.1)
    · have htarget' : target other.2 ≠ entry.1 := fun h ↦
        (htarget other hmem).2 (mem_map.2 ⟨entry, mem_cons_self, h.symm⟩)
      rw [foldl_cons]
      rcases mem_cons.1 hmem with rfl | hmem
      · rw [hsame _ hdistinct.1, hstep, Array.getElem?_modify, if_pos rfl]
      · have hne : other.1 ≠ entry.1 := fun h ↦ hdistinct.1 (mem_map.2 ⟨other, hmem, h⟩)
        rw [htold other hmem, hother _ hne]
        unfold Draft.told
        rw [hother _ htarget']

/-! ## When the first unit is complete -/

section

variable {d : Draft} {ledger : Ledger} {root : ProductionId} {g : Grammar} {kind : ProductionKind}
  {role : Role} {field : Option NodeId} {u : NodeId} {p : ProductionId}

/-- Once no unit is left incomplete, the table of units is the ledger. -/
theorem Tied.lookup (h : d.Tied t start ledger) (hcompletes : Completes (fun _ ↦ none) d)
    (hu : ledger u = some p) : d.units.lookup u = some (some p) := by
  have hknown := h.known u
  rw [hu] at hknown
  obtain ⟨q, hq⟩ := isSome_iff_exists.1 hknown
  cases q with
  | none => exact absurd hq (hcompletes u rfl)
  | some q => rw [hq, ← hu, h.finished hq]

/-- A grammar has the productions of a draft, and its placeholders have been told the productions
of a ledger. -/
structure Draft.Told (d : Draft) (ledger : Ledger) (g : Grammar) : Prop where
  other : ∀ {q}, q ∉ d.placeholders.map Prod.fst →
    g.productions[q.index]? = d.productions[q.index]?
  told : ∀ {p u target}, (p, u) ∈ d.placeholders → ledger u = some target →
    g.productions[p.index]? = d.productions[p.index]?.map (d.told target)

/-- The role of a production that was added while building tells it apart from placeholders. -/
theorem Tied.notMem_placeholders (h : d.Tied t start ledger)
    (hp : d.role? p = some (role, field)) (hrole : role ≠ .placeholder none) :
    p ∉ d.placeholders.map Prod.fst := by
  intro hmem
  obtain ⟨⟨q, u⟩, hq, rfl⟩ := mem_map.1 hmem
  obtain ⟨⟨field', hrole'⟩, -⟩ := h.placeholder hq
  exact hrole (Prod.mk.inj (some.inj (hp.symm.trans hrole'))).1

theorem Tied.exists_target (h : d.Tied t start ledger) (hp : p ∈ d.placeholders.map Prod.fst) :
    ∃ u target, (p, u) ∈ d.placeholders ∧ ledger u = some target := by
  obtain ⟨⟨p, u⟩, hu, rfl⟩ := mem_map.1 hp
  exact ⟨u, _, hu, (isSome_iff_exists.1 (h.placeholder hu).2).choose_spec⟩

theorem Tied.told (h : d.Tied t start ledger) (hcompletes : Completes (fun _ ↦ none) d)
    (hg : g.productions = (d.placeholders.foldl tiePlaceholder (d, [])).1.productions) :
    d.Told ledger g := by
  have htarget : ∀ entry ∈ d.placeholders, ∃ target, ledger entry.2 = some target ∧
      target ∉ d.placeholders.map Prod.fst := by
    intro entry hentry
    obtain ⟨target, htarget⟩ := isSome_iff_exists.1 (h.placeholder hentry).2
    obtain ⟨_, _, hrole, -⟩ := h.unit htarget
    exact ⟨target, htarget, h.notMem_placeholders hrole (by simp)⟩
  obtain ⟨hother, htold⟩ := foldl_tiePlaceholder (fun u ↦ (ledger u).getD default) (d, [])
    h.distinct fun entry hentry ↦ by
      obtain ⟨target, hledger, hnotMem⟩ := htarget entry hentry
      rw [hledger]
      exact ⟨h.lookup hcompletes hledger, hnotMem⟩
  refine ⟨fun {q} hq ↦ ?_, fun {p u target} hp hu ↦ ?_⟩
  · rw [hg, hother q hq]
  · rw [hg, htold (p, u) hp, hu]
    rfl

theorem role?_eq_some_iff :
    d.role? p = some (role, field) ↔ ∃ production, d.productions[p.index]? = some production ∧
      production.kind.role = role ∧ production.field = field := by
  unfold Draft.role?
  simp [map_eq_some_iff]

theorem eq_placeholder_of_role {target : Option ProductionId} (h : kind.role = .placeholder target) :
    kind = .placeholder target := by
  cases kind <;> cases h
  rfl

namespace Draft.Told

variable (h : d.Told ledger g)

include h

theorem congr {g' : Grammar} (hg : g'.productions = g.productions) : d.Told ledger g' := by
  refine ⟨?_, ?_⟩ <;> rw [hg]
  exacts [h.other, h.told]

theorem of_role? (hd : d.Tied t start ledger) {role : Role}
    {field : Option NodeId} (hp : d.role? p = some (role, field)) (hrole : role ≠ .placeholder none) :
    p ∈ g.ids ∧ (g.kind p).role = role ∧ (g.production p).field = field := by
  obtain ⟨production, hproduction, rfl, rfl⟩ := role?_eq_some_iff.1 hp
  have hsame := (h.other (hd.notMem_placeholders hp hrole)).trans hproduction
  obtain ⟨hlt, -⟩ := Array.getElem?_eq_some_iff.1 hsame
  rw [kind, Grammar.production, hsame]
  exact ⟨mem_ids.2 hlt, rfl, rfl⟩

/-- A placeholder has got its target. -/
theorem of_placeholder (hd : d.Tied t start ledger)
    (hp : (p, u) ∈ d.placeholders) (hu : ledger u = some target) :
    p ∈ g.ids ∧ g.kind p = .placeholder (some target) ∧ g.symbol p = g.symbol target := by
  obtain ⟨⟨field, hrole⟩, -⟩ := hd.placeholder hp
  obtain ⟨production, hproduction, -⟩ := role?_eq_some_iff.1 hrole
  have htold := h.told hp hu
  rw [hproduction, map_some] at htold
  obtain ⟨hlt, -⟩ := Array.getElem?_eq_some_iff.1 htold
  obtain ⟨_, _, htarget, -⟩ := hd.unit hu
  refine ⟨mem_ids.2 hlt, ?_, ?_⟩
  · rw [kind, Grammar.production, htold]
    rfl
  · rw [symbol, symbol, Grammar.production, Grammar.production, htold,
      h.other (hd.notMem_placeholders htarget (by simp))]
    rfl

theorem getElem?_of_notMem (hp : p ∈ g.ids) (hnotMem : p ∉ d.placeholders.map Prod.fst) :
    d.productions[p.index]? = some (g.production p) := by
  rw [← h.other hnotMem, production, Array.getElem?_eq_getElem (mem_ids.1 hp)]
  rfl

variable (hd : d.Tied t start ledger)

include hd

/-- A production is still there, for the same field, and refers to the same productions at least. -/
theorem getElem? {production : Production} (hp : d.productions[p.index]? = some production) :
    ∃ production', g.productions[p.index]? = some production' ∧ production'.field = production.field ∧
      production.kind.children ⊆ production'.kind.children := by
  by_cases hmem : p ∈ d.placeholders.map Prod.fst
  · obtain ⟨u, target, hu, htarget⟩ := hd.exists_target hmem
    obtain ⟨⟨_, hrole⟩, -⟩ := hd.placeholder hu
    obtain ⟨_, hp', hkind, -⟩ := role?_eq_some_iff.1 hrole
    cases hp.symm.trans hp'
    refine ⟨d.told target production, by rw [h.told hu htarget, hp]; rfl, rfl, ?_⟩
    rw [eq_placeholder_of_role hkind]
    exact nil_subset _
  · exact ⟨production, (h.other hmem).trans hp, rfl, Subset.refl _⟩

theorem refersTo {q : ProductionId} (hpq : d.RefersTo p q) : q ∈ (g.kind p).children := by
  obtain ⟨production, hp, hq⟩ := hpq
  obtain ⟨_, hg, -, hchildren⟩ := h.getElem? hd hp
  rw [kind, Grammar.production, hg]
  exact hchildren hq

theorem isFor {field : Option NodeId} (hp : d.IsFor p field) : p ∈ g.ids ∧ (g.production p).field = field := by
  obtain ⟨_, hrole⟩ := hp
  obtain ⟨production, hp, -, rfl⟩ := role?_eq_some_iff.1 hrole
  obtain ⟨_, hg, hfield, -⟩ := h.getElem? hd hp
  rw [Grammar.production, hg]
  exact ⟨mem_ids.2 (Array.getElem?_eq_some_iff.1 hg).1, hfield⟩

theorem mem_ids_of_has (hp : d.Has p) : p ∈ g.ids :=
  hp.elim fun _ hrole ↦ (h.isFor hd ⟨_, hrole⟩).1

theorem wellFormed : g.WellFormed := by
  intro p q hq
  have hp : p ∈ g.ids := by
    by_contra hp
    rw [kind_of_notMem hp] at hq
    cases hq
  refine h.mem_ids_of_has hd ?_
  by_cases hmem : p ∈ d.placeholders.map Prod.fst
  · obtain ⟨u, target, hu, htarget⟩ := hd.exists_target hmem
    rw [(h.of_placeholder hd hu htarget).2.1] at hq
    cases mem_singleton.1 hq
    obtain ⟨_, _, hrole, -⟩ := hd.unit htarget
    exact ⟨_, hrole⟩
  · exact hd.wellFormed _ (Array.mem_of_getElem? (h.getElem?_of_notMem hp hmem)) q hq

end Draft.Told

/-- The grammar of a declared unit is the analysis of productions that only refer to one another. -/
theorem told_of_declaration {declaration : NodeId} {lines : List String}
    (h : ofDeclaration? t declaration = .ok (some (g, lines))) :
    ∃ unit, t.declaredType declaration = some unit ∧ t.shape? unit = some .unit ∧
      ∃ g₀ root d ledger, g = (analyze g₀).1 ∧ g₀.WellFormed ∧ g₀.root = some root ∧ root ∈ g₀.ids ∧
        d.Tied t unit ledger ∧ Completes (fun _ ↦ none) d ∧ ledger unit = some root ∧
        d.Told ledger g₀ ∧ d.ShowsUnit t root unit ∧
        ∃ fuel, unitProduction t (producer t fuel) unit {} = .ok (root, d) := by
  cases hunit : (t.declaredType declaration).filter fun u ↦ t.shape? u == some .unit with
  | none =>
    rw [ofDeclaration?, hunit] at h
    cases h
  | some unit =>
    rw [ofDeclaration?, hunit] at h
    obtain ⟨hdeclared, hshape⟩ := filter_eq_some_iff.1 hunit
    obtain ⟨_, hr, h⟩ := exists_of_bind_eq_ok h
    cases h
    obtain ⟨⟨root, d⟩, hrun, h⟩ := exists_of_bind_eq_ok hr
    obtain ⟨ledger, hd, -, hcompletes, hroot, hshows⟩ :=
      (keeping_producer t unit _).unitProduction rfl .refl Tied.empty _ _ hrun
    obtain ⟨rfl, -⟩ := Prod.mk.inj (Except.ok.inj h)
    have htold := hd.told (g := {
      name := unitName t unit declaration
      root := some root
      productions := (d.placeholders.foldl tiePlaceholder (d, [])).1.productions }) hcompletes rfl
    obtain ⟨_, _, hrole, -⟩ := hd.unit hroot
    exact ⟨unit, hdeclared, by simpa using hshape, _, root, d, ledger, rfl, htold.wellFormed hd, rfl,
      htold.mem_ids_of_has hd ⟨_, hrole⟩, hd, hcompletes, hroot, htold, hshows, _, hrun⟩

end

end ProtocolIR.Grammar
