import ProtocolIR.Proofs.Grammar.Analysis

/-!
# Recursive units

When the first unit is complete, so are all others, and every placeholder is told the production
of the unit that it waits for. The main result is about the grammar of a declared unit: it has one
unit production for each unit that is reached, and every reference in it leads there at once.
-/

namespace ProtocolIR.Grammar

open List Option

open ProductionKind (Role)

variable {t : Tree} {start : NodeId} {g : Grammar} {target : ProductionId}

/-! ## When the first unit is complete -/

section

variable {d : Draft} {ledger : Ledger} {root : ProductionId} {g : Grammar} {kind : ProductionKind}
  {role : Role} {field : Option NodeId} {u : NodeId} {p : ProductionId}

/-- The ledger has all units that are reached. -/
theorem Tied.exists_of_reached (h : d.Tied t start ledger) (hcompletes : Completes (fun _ ↦ none) d)
    (hroot : ledger start = some root) (hu : t.UnitReached start u) :
    ∃ p, ledger u = some p := by
  induction hu with
  | refl => exact ⟨root, hroot⟩
  | tail _ hleads ih =>
    obtain ⟨p, hp⟩ := ih
    exact isSome_iff_exists.1 (h.closed (h.lookup hcompletes hp) hleads)

theorem eq_unit_of_role {typeId : String} {parameters : List String}
    (h : kind.role = .unit typeId parameters) : ∃ fields, kind = .unit typeId parameters fields := by
  cases kind <;> cases h
  exact ⟨_, rfl⟩

theorem eq_enclosure_of_role {body : ProductionId} (h : kind.role = .enclosure body) :
    kind = .enclosure body := by
  cases kind <;> cases h
  rfl

theorem eq_lookAhead_of_role (h : kind.role = .choice) :
    ∃ left right, kind = .lookAhead left right := by
  cases kind <;> cases h
  exact ⟨_, _, rfl⟩

theorem resolve_of_reference {q : ProductionId} (hp : p ∈ g.ids)
    (h : (g.kind p).reference? = some q) (hq : (g.kind q).reference? = none) : g.resolve p = q := by
  obtain ⟨n, hn⟩ : ∃ n, g.size = n + 1 := Nat.exists_eq_succ_of_ne_zero (Nat.ne_zero_of_lt (mem_ids.1 hp))
  rw [Grammar.resolve, hn, resolveWithin_of_reference h, resolveWithin_of_final hq]

namespace Draft.Told

variable (h : d.Told ledger g)

include h

theorem role?_of_notMem (hp : p ∈ g.ids) (hnotMem : p ∉ d.placeholders.map Prod.fst) :
    d.role? p = some ((g.kind p).role, (g.production p).field) :=
  role?_eq_some_iff.2 ⟨g.production p, h.getElem?_of_notMem hp hnotMem, rfl, rfl⟩

variable (hd : d.Tied t start ledger)

include hd

/-- A production that is not a placeholder had its role before. -/
theorem role?_of_kind {kind : ProductionKind} (hp : p ∈ g.ids)
    (hkind : g.kind p = kind) (hplaceholder : ∀ target, kind ≠ .placeholder target) :
    d.role? p = some (kind.role, (g.production p).field) := by
  rw [← hkind]
  refine h.role?_of_notMem hp fun hmem ↦ ?_
  obtain ⟨u, target, hq, htarget⟩ := hd.exists_target hmem
  exact hplaceholder _ (hkind.symm.trans (h.of_placeholder hd hq htarget).2.1)

/-- A placeholder waited for a unit of the ledger. -/
theorem exists_of_kind {target : Option ProductionId} (hp : p ∈ g.ids)
    (hkind : g.kind p = .placeholder target) : ∃ u, (p, u) ∈ d.placeholders := by
  by_cases hmem : p ∈ d.placeholders.map Prod.fst
  · obtain ⟨⟨q, u⟩, hq, rfl⟩ := mem_map.1 hmem
    exact ⟨u, hq⟩
  · have hrole := h.role?_of_notMem hp hmem
    rw [hkind] at hrole
    exact hd.of_placeholder hrole

/-- A unit of the ledger has its unit production. -/
theorem unit (hu : ledger u = some p) :
    p ∈ g.ids ∧ ∃ typeId fields, g.kind p = .unit typeId (t.parameterIds u) fields ∧
      ∀ id ∈ (t.typeData? u).bind TypeData.typeId, typeId = id := by
  obtain ⟨typeId, field, hrole, hid⟩ := hd.unit hu
  obtain ⟨hp, hkind, -⟩ := h.of_role? hd hrole nofun
  obtain ⟨fields, hkind⟩ := eq_unit_of_role hkind
  exact ⟨hp, typeId, fields, hkind, hid⟩

theorem resolve_unit (hu : ledger u = some p) : g.resolve p = p := by
  obtain ⟨-, typeId, fields, hkind, -⟩ := h.unit hd hu
  exact resolve_of_final (by rw [hkind]; rfl)

theorem resolve_placeholder (hp : (p, u) ∈ d.placeholders)
    (hu : ledger u = some target) : g.resolve p = target := by
  obtain ⟨hmem, hkind, -⟩ := h.of_placeholder hd hp hu
  obtain ⟨-, typeId, fields, htarget, -⟩ := h.unit hd hu
  exact resolve_of_reference hmem (by rw [hkind]; rfl) (by rw [htarget]; rfl)

/-- What a production stands for is never a reference itself. -/
theorem isReference_resolve (hp : p ∈ g.ids) : (g.kind (g.resolve p)).isReference = false := by
  cases hkind : g.kind p with
  | reference q =>
    obtain ⟨field, hrole⟩ := hd.of_reference (h.role?_of_kind hd hp hkind nofun)
    obtain ⟨hq, hchoice, -⟩ := h.of_role? hd hrole nofun
    obtain ⟨left, right, hchoice⟩ := eq_lookAhead_of_role hchoice
    rw [resolve_of_reference hp (by rw [hkind]; rfl) (by rw [hchoice]; rfl), hchoice]
    rfl
  | placeholder target =>
    obtain ⟨u, hu⟩ := h.exists_of_kind hd hp hkind
    obtain ⟨target, htarget⟩ := isSome_iff_exists.1 (hd.placeholder hu).2
    obtain ⟨-, typeId, fields, hunit, -⟩ := h.unit hd htarget
    rw [h.resolve_placeholder hd hu htarget, hunit]
    rfl
  | _ =>
    rw [resolve_of_final (by rw [hkind]; rfl), hkind]
    rfl

end Draft.Told

end

/-! ## The grammar of a declared unit -/

/-- Units refer to each other in a grammar as they do in the tree, where each unit has the
production that it is given. -/
structure UnitsTied (t : Tree) (start : NodeId) (production : NodeId → ProductionId) (g : Grammar) :
    Prop where
  root : g.root = some (production start)
  /-- Each unit that is reached has a unit production. -/
  unit : ∀ u, t.UnitReached start u → production u ∈ g.ids ∧ ∃ typeId fields,
    g.kind (production u) = .unit typeId (t.parameterIds u) fields ∧
      ∀ id ∈ (t.typeData? u).bind TypeData.typeId, typeId = id
  /-- No two units have the same production. -/
  injective : ∀ u v, t.UnitReached start u → t.UnitReached start v → production u = production v → u = v
  /-- Every unit production is that of a unit that is reached. -/
  of_unit : ∀ p ∈ g.ids, ∀ typeId parameters fields, g.kind p = .unit typeId parameters fields →
    ∃ u, t.UnitReached start u ∧ production u = p
  /-- Every placeholder stands inside a field that leads to a unit, and has got the production of
  this unit as its target, with its symbol. -/
  placeholder : ∀ p ∈ g.ids, ∀ target, g.kind p = .placeholder target → ∃ e ∈ g.ids, ∃ n u,
    g.kind e = .enclosure p ∧ (g.production e).field = some n ∧ t.FieldLeads n u ∧
      t.UnitReached start u ∧ target = some (production u) ∧ g.symbol p = g.symbol (production u)
  /-- Every unit inside a field is the one that the field leads to. -/
  enclosure : ∀ e ∈ g.ids, ∀ body, g.kind e = .enclosure body → ∃ n u,
    (g.production e).field = some n ∧ t.FieldLeads n u ∧ t.UnitReached start u ∧
      g.resolve body = production u
  wellFormed : g.WellFormed
  resolve : ∀ p ∈ g.ids, (g.kind (g.resolve p)).isReference = false

theorem Draft.Told.unitsTied {d : Draft} {ledger : Ledger} {root : ProductionId}
    (h : d.Told ledger g) (hd : d.Tied t start ledger) (hcompletes : Completes (fun _ ↦ none) d)
    (hstart : ledger start = some root) (hroot : g.root = some root) (hg : g.WellFormed) :
    g.UnitsTied t start fun u ↦ (ledger u).getD root where
  root := by rw [hroot, hstart, getD_some]
  unit u hu := by
    obtain ⟨p, hp⟩ := hd.exists_of_reached hcompletes hstart hu
    rw [hp]
    exact h.unit hd hp
  injective u v hu hv huv := by
    obtain ⟨p, hp⟩ := hd.exists_of_reached hcompletes hstart hu
    obtain ⟨q, hq⟩ := hd.exists_of_reached hcompletes hstart hv
    rw [hp, hq] at huv
    cases huv
    exact hd.injective hp hq
  of_unit p hp typeId parameters fields hkind := by
    obtain ⟨u, hu⟩ := hd.of_unit (h.role?_of_kind hd hp hkind nofun)
    exact ⟨u, hd.reached hu, by rw [hu, getD_some]⟩
  placeholder p hp target hkind := by
    obtain ⟨u, hu⟩ := h.exists_of_kind hd hp hkind
    obtain ⟨q, hq⟩ := isSome_iff_exists.1 (hd.placeholder hu).2
    obtain ⟨e, n, he, hleads⟩ := hd.enclosed hu
    obtain ⟨hmem, hrole, hfield⟩ := h.of_role? hd he nofun
    obtain ⟨-, hkind', hsymbol⟩ := h.of_placeholder hd hu hq
    refine ⟨e, hmem, n, u, eq_enclosure_of_role hrole, hfield, hleads, hd.reached hq, ?_⟩
    rw [hq]
    cases hkind.symm.trans hkind'
    exact ⟨rfl, hsymbol⟩
  enclosure e he body hkind := by
    obtain ⟨n, u, hfield, hleads, hbody⟩ := hd.of_enclosure (h.role?_of_kind hd he hkind nofun)
    rcases hbody with hbody | hbody
    · refine ⟨n, u, hfield, hleads, hd.reached hbody, ?_⟩
      rw [h.resolve_unit hd hbody, hbody, getD_some]
    · obtain ⟨q, hq⟩ := isSome_iff_exists.1 (hd.placeholder hbody).2
      refine ⟨n, u, hfield, hleads, hd.reached hq, ?_⟩
      rw [h.resolve_placeholder hd hbody hq, hq, getD_some]
  wellFormed := hg
  resolve p hp := h.isReference_resolve hd hp

/-- The grammar of a declared unit has one unit production for each unit that is reached from it.
Every placeholder in it has as its target the production of the unit for which it was made, with
its symbol; all references are in range; and nothing stands for a reference in the end. -/
theorem unitsTied_of_declaration {declaration : NodeId} {g : Grammar} {lines : List String}
    (h : ofDeclaration? t declaration = .ok (some (g, lines))) :
    ∃ unit, t.declaredType declaration = some unit ∧ t.shape? unit = some .unit ∧
      ∃ production, g.UnitsTied t unit production := by
  obtain ⟨unit, hdeclared, hshape, g₀, root, d, ledger, rfl, hg₀, hroot, -, hd, hcompletes, hstart, htold, -⟩ :=
    told_of_declaration h
  -- The analysis changes neither the productions nor the root.
  obtain ⟨hanalyzed, hproductions, hroot'⟩ := analyzed_analyze hg₀
  exact ⟨unit, hdeclared, hshape, _,
    (htold.congr hproductions).unitsTied hd hcompletes hstart (hroot'.trans hroot) hanalyzed.wellFormed⟩

/-- The unit inside of the recursive unit is a placeholder for the outer one. -/
theorem unitsTied_chunkUnit : ∃ g lines production,
    ofDeclaration? chunkUnit ⟨1⟩ = .ok (some (g, lines)) ∧ g.UnitsTied chunkUnit ⟨3⟩ production ∧
      production ⟨3⟩ = ⟨0⟩ ∧ g.kind ⟨3⟩ = .enclosure ⟨2⟩ ∧ g.kind ⟨2⟩ = .placeholder (some ⟨0⟩) ∧
      g.symbol ⟨2⟩ = g.symbol ⟨0⟩ := by
  obtain ⟨g, lines, hrun, hsize, hroot, -⟩ := ofDeclaration?_chunkUnit
  have heval : ((ofDeclaration? chunkUnit ⟨1⟩).toOption.join.map fun r ↦ (r.1.kind ⟨3⟩, r.1.kind ⟨2⟩)) =
      some (.enclosure ⟨2⟩, .placeholder (some ⟨0⟩)) := by decide +kernel
  rw [hrun] at heval
  obtain ⟨henclosure, hplaceholder⟩ := Prod.mk.inj (some.inj heval)
  obtain ⟨unit, hdeclared, -, production, htied⟩ := unitsTied_of_declaration hrun
  have hunit : unit = ⟨3⟩ := some.inj (hdeclared.symm.trans (by decide +kernel))
  subst hunit
  have hproduction : production ⟨3⟩ = ⟨0⟩ := some.inj (htied.root.symm.trans hroot)
  obtain ⟨_, _, _, _, _, _, _, _, htarget, hsymbol⟩ :=
    htied.placeholder ⟨2⟩ (mem_ids.2 (hsize ▸ by decide)) _ hplaceholder
  rw [← some.inj htarget] at hsymbol
  exact ⟨g, lines, production, hrun, htied, hproduction, henclosure, hplaceholder, hsymbol⟩

end ProtocolIR.Grammar
