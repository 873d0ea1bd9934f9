import Mathlib.Logic.Relation
import ProtocolIR.Grammar.Construction
import ProtocolIR.Proofs.Ensures
import ProtocolIR.Proofs.Grammar.Derivation

/-!
# Which unit a production is for

While a grammar is built, a unit has its production before it is complete, and the table of units
does not say which one it is until then. So a ledger is kept beside the draft that has the
production of every unit met so far. The units of the ledger are those that the first unit leads
to; each unit production belongs to one of them; a placeholder waits for the unit that the field
around it leads to. Whatever is built keeps the ledger and completes the units that it opens, and
refers to productions that were added before.
-/

namespace ProtocolIR

open List Option

variable {n u : NodeId} {p : ProductionId}

/-! ## Where units lead -/

namespace Tree

variable (t : Tree)

/-- Values of a type are values of a unit, or lists or optionals of such. -/
inductive TypeLeads : NodeId → NodeId → Prop
  | unit {type u : NodeId} : t.follow type = some u → t.shape? u = some .unit → TypeLeads type u
  | list {type list element u : NodeId} : t.follow type = some list → t.shape? list = some .list →
      t.elementType list = some element → TypeLeads element u → TypeLeads type u
  | optional {type optional element u : NodeId} : t.follow type = some optional →
      t.shape? optional = some .optional → t.child optional 0 = some element →
      TypeLeads element u → TypeLeads type u

/-- A field that is neither fixed by a literal nor skipped, with a type that leads to a unit. -/
def FieldLeads (n u : NodeId) : Prop :=
  ∃ id type, (t.kind n).item? = some (.field id false) ∧ t.child n 1 = none ∧
    t.child n 0 = some type ∧ t.TypeLeads type u

/-- An item is a field that leads to a unit, or has one in its cases. -/
inductive ItemLeads : NodeId → NodeId → Prop
  | field {n u : NodeId} : t.FieldLeads n u → ItemLeads n u
  | switch {n c u : NodeId} : (t.kind n).item? = some .switch → c ∈ t.childrenFrom n 1 .item →
      ItemLeads c u → ItemLeads n u
  | alternative {n inner u : NodeId} {isDefault : Bool} :
      (t.kind n).item? = some (.alternative isDefault) → t.child n 0 = some inner →
      ItemLeads inner u → ItemLeads n u

/-- Some item of a unit leads to another unit. -/
def UnitLeads (v u : NodeId) : Prop := ∃ n ∈ t.childrenFrom v 0 .item, t.ItemLeads n u

/-- The units that are reached from a unit, itself included. -/
def UnitReached (start u : NodeId) : Prop := Relation.ReflTransGen t.UnitLeads start u

/-- The IDs of the parameters of a unit. -/
def parameterIds (u : NodeId) : List String :=
  (t.childrenFrom u 0 .declaration).filterMap fun p ↦ (t.declaration? p).map Declaration.id

variable {t}

theorem TypeLeads.follow {type : NodeId} (h : t.TypeLeads type u) : ∃ v, t.follow type = some v ∧
    (t.shape? v = some .unit ∧ u = v ∨
      t.shape? v = some .list ∧ (∃ element ∈ t.elementType v, t.TypeLeads element u) ∨
      t.shape? v = some .optional ∧ ∃ element ∈ t.child v 0, t.TypeLeads element u) := by
  cases h with
  | unit hfollow hshape => exact ⟨u, hfollow, .inl ⟨hshape, rfl⟩⟩
  | list hfollow hshape helement hu => exact ⟨_, hfollow, .inr (.inl ⟨hshape, _, helement, hu⟩)⟩
  | optional hfollow hshape helement hu => exact ⟨_, hfollow, .inr (.inr ⟨hshape, _, helement, hu⟩)⟩

theorem ItemLeads.item? (h : t.ItemLeads n u) :
    (∃ id, (t.kind n).item? = some (.field id false)) ∧ t.FieldLeads n u ∨
      (t.kind n).item? = some .switch ∧ (∃ c ∈ t.childrenFrom n 1 .item, t.ItemLeads c u) ∨
      (∃ isDefault, (t.kind n).item? = some (.alternative isDefault)) ∧
        ∃ inner ∈ t.child n 0, t.ItemLeads inner u := by
  cases h with
  | field h =>
    obtain ⟨id, type, hn, hrest⟩ := h
    exact .inl ⟨⟨id, hn⟩, id, type, hn, hrest⟩
  | switch hn hc hu => exact .inr (.inl ⟨hn, _, hc, hu⟩)
  | alternative hn hinner hu => exact .inr (.inr ⟨⟨_, hn⟩, _, hinner, hu⟩)

/-- A type leads to one unit only. -/
theorem TypeLeads.unique {type v : NodeId} (hu : t.TypeLeads type u) (hv : t.TypeLeads type v) :
    u = v := by
  induction hu with
  | unit hfollow hshape =>
    cases hv with
    | unit hfollow' _ => exact some.inj (hfollow.symm.trans hfollow')
    | list hfollow' hshape' _ _ | optional hfollow' hshape' _ _ =>
      cases hfollow.symm.trans hfollow'
      cases hshape.symm.trans hshape'
  | list hfollow hshape helement _ ih =>
    cases hv with
    | list hfollow' hshape' helement' hv =>
      cases hfollow.symm.trans hfollow'
      cases helement.symm.trans helement'
      exact ih hv
    | unit hfollow' hshape' | optional hfollow' hshape' _ _ =>
      cases hfollow.symm.trans hfollow'
      cases hshape.symm.trans hshape'
  | optional hfollow hshape helement _ ih =>
    cases hv with
    | optional hfollow' hshape' helement' hv =>
      cases hfollow.symm.trans hfollow'
      cases helement.symm.trans helement'
      exact ih hv
    | unit hfollow' hshape' | list hfollow' hshape' _ _ =>
      cases hfollow.symm.trans hfollow'
      cases hshape.symm.trans hshape'

/-! ## Where fields stand -/

variable (t)

/-- An item stands in another one, as part of its cases. -/
inductive ItemIn : NodeId → NodeId → Prop
  | self {n : NodeId} : ItemIn n n
  | switch {n c m : NodeId} : (t.kind n).item? = some .switch → c ∈ t.childrenFrom n 1 .item →
      ItemIn c m → ItemIn n m
  | alternative {n inner m : NodeId} {isDefault : Bool} :
      (t.kind n).item? = some (.alternative isDefault) → t.child n 0 = some inner →
      ItemIn inner m → ItemIn n m

/-- An item of a unit, or one that stands in an item of it. -/
def UnitHolds (u n : NodeId) : Prop := ∃ i ∈ t.childrenFrom u 0 .item, t.ItemIn i n

/-- The number of default cases among some items. -/
def defaults (is : List NodeId) : Nat := is.countP fun i ↦ t.kind i == .item (.alternative true)

/-- A switch has at most one default case. -/
def OneDefault (n : NodeId) : Prop :=
  (t.kind n).item? = some .switch → t.defaults (t.childrenFrom n 1 .item) ≤ 1

variable {t}

theorem ItemIn.item? {m : NodeId} (h : t.ItemIn n m) : m = n ∨
    (t.kind n).item? = some .switch ∧ (∃ c ∈ t.childrenFrom n 1 .item, t.ItemIn c m) ∨
    (∃ isDefault, (t.kind n).item? = some (.alternative isDefault)) ∧ ∃ c ∈ t.child n 0, t.ItemIn c m := by
  cases h with
  | self => exact .inl rfl
  | switch hn hc hm => exact .inr (.inl ⟨hn, _, hc, hm⟩)
  | alternative hn hc hm => exact .inr (.inr ⟨⟨_, hn⟩, _, hc, hm⟩)

end Tree

/-! ## Roles of productions -/

/-- What a production does for the way in which units refer to each other. -/
inductive ProductionKind.Role where
  | unit (typeId : String) (parameters : List String)
  | placeholder (target : Option ProductionId)
  | reference (target : ProductionId)
  | enclosure (body : ProductionId)
  | choice
  | part

def ProductionKind.role : ProductionKind → ProductionKind.Role
  | .unit typeId parameters _ => .unit typeId parameters
  | .placeholder target => .placeholder target
  | .reference target => .reference target
  | .enclosure body => .enclosure body
  | .lookAhead .. => .choice
  | _ => .part

theorem ProductionId.index_ne {q : ProductionId} (h : p ≠ q) : p.index ≠ q.index := by
  intro hindex
  cases p
  cases hindex
  exact h rfl

namespace Grammar

open ProductionKind (Role)

variable {t : Tree} {start : NodeId} {field : Option NodeId} {r : Role} {kind : ProductionKind}

namespace Draft

variable {d : Draft} {r : Role × Option NodeId}

/-- The role of a production and the field it is for. -/
def role? (d : Draft) (p : ProductionId) : Option (Role × Option NodeId) :=
  d.productions[p.index]?.map fun production ↦ (production.kind.role, production.field)

def push (d : Draft) (production : Production) : Draft :=
  { d with productions := d.productions.push production }

/-- The number that the next production gets. -/
def next (d : Draft) : ProductionId := ⟨d.productions.size⟩

theorem role?_push (d : Draft) (production : Production) (p : ProductionId) :
    (d.push production).role? p =
      if p = d.next then some (production.kind.role, production.field) else d.role? p := by
  unfold role? push next
  rw [Array.getElem?_push]
  by_cases hp : p = ⟨d.productions.size⟩
  · subst hp
    simp
  · rw [if_neg hp, if_neg (ProductionId.index_ne hp)]

theorem role?_next (d : Draft) : d.role? d.next = none := by
  simp [role?, next]

theorem getElem?_push {i : Nat} {old : Production} (h : d.productions[i]? = some old)
    (production : Production) : (d.push production).productions[i]? = some old := by
  have hlt := (Array.getElem?_eq_some_iff.1 h).1
  rw [push, Array.getElem?_push, if_neg (by omega), h]

theorem ne_next_of_role? (h : d.role? p = some r) : p ≠ d.next := by
  rintro rfl
  rw [role?_next] at h
  cases h

theorem role?_push_of_role? (h : d.role? p = some r)
    (production : Production) : (d.push production).role? p = some r := by
  rw [role?_push, if_neg (ne_next_of_role? h), h]

/-- There is such a production. -/
def Has (d : Draft) (p : ProductionId) : Prop := ∃ r, d.role? p = some r

/-- A production is for a field, or for none. -/
def IsFor (d : Draft) (p : ProductionId) (field : Option NodeId) : Prop := ∃ r, d.role? p = some (r, field)

theorem IsFor.has (h : d.IsFor p field) : d.Has p :=
  h.elim fun _ hr ↦ ⟨_, hr⟩

/-- A production refers to another one. -/
def RefersTo (d : Draft) (p q : ProductionId) : Prop :=
  ∃ production, d.productions[p.index]? = some production ∧ q ∈ production.kind.children

/-- There is a production for a field on a way down. -/
def Shows (d : Draft) (p : ProductionId) (n : NodeId) : Prop :=
  ∃ q, Relation.ReflTransGen d.RefersTo p q ∧ d.IsFor q (some n)

/-- There are productions for all fields of a unit, if no switch in it has two default cases. -/
def ShowsUnit (d : Draft) (t : Tree) (p : ProductionId) (u : NodeId) : Prop :=
  (∀ s, t.UnitHolds u s → t.OneDefault s) → ∀ m, t.UnitHolds u m → t.isUnitField m → d.Shows p m

/-- Every reference in a draft is a production of it. -/
def WellFormed (d : Draft) : Prop :=
  ∀ production ∈ d.productions, ∀ q ∈ production.kind.children, d.Has q

theorem WellFormed.push {production : Production} (h : d.WellFormed)
    (hchildren : ∀ q ∈ production.kind.children, d.Has q) : (d.push production).WellFormed := by
  intro other hother q hq
  have hhas : d.Has q := by
    obtain hother | rfl := Array.mem_push.1 hother
    · exact h other hother q hq
    · exact hchildren q hq
  exact hhas.imp fun _ hr ↦ role?_push_of_role? hr production

theorem lookup_cons {α : Type} (u : NodeId) (x : α) (entries : List (NodeId × α)) (v : NodeId) :
    ((u, x) :: entries).lookup v = if v = u then some x else entries.lookup v := by
  rw [List.lookup_cons]
  by_cases hv : v = u
  · simp [hv]
  · simp [hv, beq_false_of_ne hv]

/-- The production of a unit is added, and the unit is marked as not complete. -/
def meet (d : Draft) (u : NodeId) (production : Production) : Draft :=
  { d with units := (u, none) :: d.units, productions := d.productions.push production }

theorem role?_meet (d : Draft) (u : NodeId) (production : Production) (p : ProductionId) :
    (d.meet u production).role? p =
      if p = d.next then some (production.kind.role, production.field) else d.role? p :=
  role?_push d production p

theorem lookup_meet (d : Draft) (u : NodeId) (production : Production) (v : NodeId) :
    (d.meet u production).units.lookup v = if v = u then some none else d.units.lookup v :=
  lookup_cons u none d.units v

/-- A production is added that waits for a unit. -/
def await (d : Draft) (u : NodeId) (production : Production) : Draft :=
  { d with
    productions := d.productions.push production
    placeholders := d.placeholders ++ [(d.next, u)] }

theorem role?_await (d : Draft) (u : NodeId) (production : Production) (p : ProductionId) :
    (d.await u production).role? p =
      if p = d.next then some (production.kind.role, production.field) else d.role? p :=
  role?_push d production p

/-- A production gets another kind. -/
def setKind (d : Draft) (p : ProductionId) (kind : ProductionKind) : Draft :=
  { d with productions := d.productions.modify p.index fun production ↦ { production with kind } }

theorem role?_setKind
    (h : d.role? p = some (kind.role, field)) : (d.setKind p kind).role? = d.role? := by
  funext q
  unfold role? setKind at *
  rw [Array.getElem?_modify]
  by_cases hq : p.index = q.index
  · rw [if_pos hq]
    rw [hq] at h
    obtain ⟨production, hproduction, heq⟩ := map_eq_some_iff.1 h
    rw [hproduction]
    simp only [map_some, some.injEq]
    exact Prod.ext (Prod.mk.inj heq).1.symm rfl
  · rw [if_neg hq]

theorem IsFor.setKind {field' : Option NodeId} (h : d.IsFor q field)
    (hrole : d.role? p = some (kind.role, field')) : (d.setKind p kind).IsFor q field :=
  h.imp fun _ hr ↦ (congrFun (role?_setKind hrole) q).trans hr

theorem getElem?_setKind {production : Production} (h : d.productions[p.index]? = some production) :
    (d.setKind p kind).productions[p.index]? = some { production with kind } := by
  rw [setKind, Array.getElem?_modify, if_pos rfl, h]
  rfl

end Draft

/-- The production of each unit that was met. -/
abbrev Ledger := NodeId → Option ProductionId

def Ledger.enter (ledger : Ledger) (u : NodeId) (p : ProductionId) : Ledger :=
  fun v ↦ if v = u then some p else ledger v

/-- The roles of the productions, the table of units, the placeholders and the ledger agree. -/
structure Tied (t : Tree) (start : NodeId) (role : ProductionId → Option (Role × Option NodeId))
    (productions : Array Production) (units : List (NodeId × Option ProductionId))
    (placeholders : List (ProductionId × NodeId)) (ledger : Ledger) : Prop where
  known : ∀ u, (units.lookup u).isSome = (ledger u).isSome
  finished : ∀ {u p}, units.lookup u = some (some p) → ledger u = some p
  reached : ∀ {u p}, ledger u = some p → t.UnitReached start u
  unit : ∀ {u p}, ledger u = some p → ∃ typeId field,
    role p = some (.unit typeId (t.parameterIds u), field) ∧
      ∀ id ∈ (t.typeData? u).bind TypeData.typeId, typeId = id
  injective : ∀ {u v p}, ledger u = some p → ledger v = some p → u = v
  of_unit : ∀ {p typeId parameters field}, role p = some (.unit typeId parameters, field) →
    ∃ u, ledger u = some p
  placeholder : ∀ {p u}, (p, u) ∈ placeholders →
    (∃ field, role p = some (.placeholder none, field)) ∧ (ledger u).isSome
  /-- A field that leads to the unit of a placeholder is around it. -/
  enclosed : ∀ {p u}, (p, u) ∈ placeholders →
    ∃ e n, role e = some (.enclosure p, some n) ∧ t.FieldLeads n u
  of_placeholder : ∀ {p target field}, role p = some (.placeholder target, field) →
    ∃ u, (p, u) ∈ placeholders
  distinct : (placeholders.map Prod.fst).Nodup
  of_reference : ∀ {p q field}, role p = some (.reference q, field) →
    ∃ field', role q = some (.choice, field')
  of_enclosure : ∀ {e body field}, role e = some (.enclosure body, field) →
    ∃ n u, field = some n ∧ t.FieldLeads n u ∧ (ledger u = some body ∨ (body, u) ∈ placeholders)
  closed : ∀ {v u p}, units.lookup v = some (some p) → t.UnitLeads v u → (ledger u).isSome
  wellFormed : ∀ production ∈ productions, ∀ q ∈ production.kind.children, ∃ r, role q = some r

/-- A draft agrees with a ledger. -/
abbrev Draft.Tied (t : Tree) (start : NodeId) (d : Draft) (ledger : Ledger) : Prop :=
  Grammar.Tied t start d.role? d.productions d.units d.placeholders ledger

/-- A production of such a role, for such a field, may be added by itself: a reference leads to a
choice, and an enclosure to the production of the unit that the field leads to, or to one that
waits for this unit. -/
def Draft.Fits (t : Tree) (d : Draft) (ledger : Ledger) (field : Option NodeId) : Role → Prop
  | .unit .. | .placeholder _ => False
  | .reference q => ∃ field, d.role? q = some (.choice, field)
  | .enclosure body => ∃ n u, field = some n ∧ t.FieldLeads n u ∧
      (ledger u = some body ∨ (body, u) ∈ d.placeholders)
  | .choice | .part => True

/-- What a production of such a role, for such a field, stands for in the draft. -/
def Draft.Sound (t : Tree) (d : Draft) (ledger : Ledger) (p : ProductionId)
    (field : Option NodeId) :
    Role → Prop
  | .unit .. => ∃ u, ledger u = some p
  | .placeholder _ => ∃ u, (p, u) ∈ d.placeholders
  | .reference q => ∃ field, d.role? q = some (.choice, field)
  | .enclosure body => ∃ n u, field = some n ∧ t.FieldLeads n u ∧
      (ledger u = some body ∨ (body, u) ∈ d.placeholders)
  | .choice | .part => True

theorem Draft.Fits.sound {d : Draft} {ledger : Ledger}
    (h : d.Fits t ledger field r) : d.Sound t ledger p field r := by
  cases r with
  | unit | placeholder => exact h.elim
  | reference | enclosure | choice | part => exact h

/-- What a later draft keeps of an earlier one. -/
structure Extends (d : Draft) (ledger : Ledger) (d' : Draft) (ledger' : Ledger) : Prop where
  production : ∀ {i : Nat} {production}, d.productions[i]? = some production →
    d'.productions[i]? = some production
  entry : ∀ {u p}, ledger u = some p → ledger' u = some p
  placeholder : ∀ {p u}, (p, u) ∈ d.placeholders → (p, u) ∈ d'.placeholders
  units : ∀ {u p}, ledger u = some p → d'.units.lookup u = d.units.lookup u

/-- The units that were not met before are complete. -/
def Completes (ledger : Ledger) (d' : Draft) : Prop :=
  ∀ u, ledger u = none → d'.units.lookup u ≠ some none

/-- All that something leads to has been met. -/
def Ledger.Meets (ledger : Ledger) (leads : NodeId → Prop) : Prop := ∀ u, leads u →
    (ledger u).isSome

section

variable {d d' d'' : Draft} {ledger ledger' ledger'' : Ledger}

namespace Extends

theorem refl (d : Draft) (ledger : Ledger) : Extends d ledger d ledger := ⟨id, id, id, fun _ ↦ rfl⟩

section

variable (h : Extends d ledger d' ledger')

include h

theorem trans (h' : Extends d' ledger' d'' ledger'') : Extends d ledger d'' ledger'' where
  production hp := h'.production (h.production hp)
  entry hu := h'.entry (h.entry hu)
  placeholder he := h'.placeholder (h.placeholder he)
  units hu := (h'.units (h.entry hu)).trans (h.units hu)

theorem role {r : Role × Option NodeId} (hp : d.role? p = some r) : d'.role? p = some r := by
  obtain ⟨production, hproduction, rfl⟩ := map_eq_some_iff.1 hp
  rw [Draft.role?, h.production hproduction]
  rfl

theorem has (hp : d.Has p) : d'.Has p := hp.imp fun _ ↦ h.role

theorem isFor (hp : d.IsFor p field) : d'.IsFor p field := hp.imp fun _ ↦ h.role

theorem refersTo {q : ProductionId} (hpq : d.RefersTo p q) : d'.RefersTo p q :=
  hpq.imp fun _ ↦ And.imp_left h.production

theorem shows (hp : d.Shows p n) : d'.Shows p n := by
  obtain ⟨q, hq, hfor⟩ := hp
  exact ⟨q, hq.lift id fun _ _ ↦ h.refersTo, h.isFor hfor⟩

theorem isSome (hu : (ledger u).isSome) : (ledger' u).isSome := by
  obtain ⟨p, hp⟩ := isSome_iff_exists.1 hu
  rw [h.entry hp]
  rfl

theorem meets {leads : NodeId → Prop} (hmeets : ledger.Meets leads) :
    ledger'.Meets leads := fun u hu ↦ h.isSome (hmeets u hu)

/-- Giving a kind to a production changes nothing that was known before it was added. -/
theorem setKind (hp : ¬d.Has p) (kind : ProductionKind) : Extends d ledger (d'.setKind p kind) ledger' :=
  { h with
    production := fun {i production} hi ↦ by
      rw [Draft.setKind, Array.getElem?_modify, if_neg, h.production hi]
      rintro rfl
      exact hp ⟨_, by rw [Draft.role?, hi]; rfl⟩ }

/-- Completing a unit changes nothing that was known before the unit was met. -/
theorem complete (hu : ledger u = none) (p : ProductionId) :
    Extends d ledger { d' with units := (u, some p) :: d'.units } ledger' :=
  { h with
    units := fun {v q} hv ↦ by
      rw [Draft.lookup_cons, if_neg]
      · exact h.units hv
      · rintro rfl
        rw [hu] at hv
        cases hv }

end

theorem completes (h' : Extends d' ledger' d'' ledger'') (hd : Completes ledger d')
    (hd' : Completes ledger' d'') : Completes ledger d'' := by
  intro u hu
  cases hu' : ledger' u with
  | none => exact hd' u hu'
  | some p =>
    rw [h'.units hu']
    exact hd u hu

end Extends

theorem Draft.Sound.mono (h : d.Sound t ledger p field r) (hextends : Extends d ledger d' ledger') :
    d'.Sound t ledger' p field r := by
  cases r with
  | unit => exact h.imp fun _ ↦ hextends.entry
  | placeholder => exact h.imp fun _ ↦ hextends.placeholder
  | reference => exact h.imp fun _ ↦ hextends.role
  | enclosure =>
    obtain ⟨n, u, hfield, hleads, hbody⟩ := h
    exact ⟨n, u, hfield, hleads, hbody.imp hextends.entry hextends.placeholder⟩
  | choice | part => trivial

namespace Tied

variable {production : Production}

theorem completes_self (h : d.Tied t start ledger) : Completes ledger d := by
  intro u hu hunit
  have hknown := h.known u
  rw [hu, hunit] at hknown
  cases hknown

/-- The ledger of an empty draft is empty. -/
theorem empty : ({} : Draft).Tied t start fun _ ↦ none := by
  constructor <;> first | (intro _; rfl) | (intros; contradiction) | exact nodup_nil | simp

variable (h : d.Tied t start ledger)

include h

/-- A production gets another kind of the same role. -/
theorem setKind (hrole : d.role? p = some (kind.role, field))
    (hchildren : ∀ q ∈ kind.children, d.Has q) : (d.setKind p kind).Tied t start ledger := by
  have hsame := Draft.role?_setKind hrole
  unfold Draft.Tied
  rw [hsame]
  refine { h with wellFormed := fun production hproduction q hq ↦ ?_ }
  unfold Draft.setKind at hproduction
  obtain ⟨j, hj, rfl⟩ := Array.mem_iff_getElem.1 hproduction
  rw [Array.getElem_modify] at hq
  split at hq
  · exact hchildren q hq
  · exact h.wellFormed _ (Array.getElem_mem _) q hq

theorem sound (hp : d.role? p = some (r, field)) : d.Sound t ledger p field r := by
  cases r with
  | unit => exact h.of_unit hp
  | placeholder => exact h.of_placeholder hp
  | reference => exact h.of_reference hp
  | enclosure => exact h.of_enclosure hp
  | choice | part => trivial

/-- A draft that extends another one agrees with its ledger if what is new in it does. -/
theorem extend (hextends : Extends d ledger d' ledger')
    (hknown : ∀ u, (d'.units.lookup u).isSome = (ledger' u).isSome)
    (hfinished : ∀ {u p}, d'.units.lookup u = some (some p) → d.units.lookup u = some (some p))
    (hentries : ∀ {u p}, ledger' u = some p → ledger u = some p ∨ t.UnitReached start u ∧
      ∃ typeId field, d'.role? p = some (.unit typeId (t.parameterIds u), field) ∧
      ∀ id ∈ (t.typeData? u).bind TypeData.typeId, typeId = id)
    (hinjective : ∀ {u v p}, ledger' u = some p → ledger' v = some p → u = v)
    (hroles : ∀ {p r field}, d'.role? p = some (r, field) → d.role? p = some (r, field) ∨
      d'.Sound t ledger' p field r)
    (hplaceholders : ∀ {p u}, (p, u) ∈ d'.placeholders → (p, u) ∈ d.placeholders ∨
      ((∃ field, d'.role? p = some (.placeholder none, field)) ∧ (ledger' u).isSome) ∧
      ∃ e n, d'.role? e = some (.enclosure p, some n) ∧ t.FieldLeads n u)
    (hdistinct : (d'.placeholders.map Prod.fst).Nodup) (hwellFormed : d'.WellFormed) :
    d'.Tied t start ledger' := by
  have hsound : ∀ {p r field}, d'.role? p = some (r, field) → d'.Sound t ledger' p field r := fun hp ↦
    (hroles hp).elim (fun hp ↦ (h.sound hp).mono hextends) id
  exact {
    known := hknown
    finished := fun hv ↦ hextends.entry (h.finished (hfinished hv))
    reached := fun hv ↦ (hentries hv).elim h.reached And.left
    unit := fun hv ↦ by
      obtain hv | ⟨-, hunit⟩ := hentries hv
      · obtain ⟨typeId, field, hp, hid⟩ := h.unit hv
        exact ⟨typeId, field, hextends.role hp, hid⟩
      · exact hunit
    injective := hinjective
    of_unit := hsound
    placeholder := fun hp ↦ by
      obtain hp | ⟨hp, -⟩ := hplaceholders hp
      · obtain ⟨⟨field, hp⟩, hsome⟩ := h.placeholder hp
        exact ⟨⟨field, hextends.role hp⟩, hextends.isSome hsome⟩
      · exact hp
    enclosed := fun hp ↦ by
      obtain hp | ⟨-, hp⟩ := hplaceholders hp
      · obtain ⟨e, n, he, hleads⟩ := h.enclosed hp
        exact ⟨e, n, hextends.role he, hleads⟩
      · exact hp
    of_placeholder := hsound
    distinct := hdistinct
    of_reference := hsound
    of_enclosure := hsound
    closed := fun hv hleads ↦ hextends.isSome (h.closed (hfinished hv) hleads)
    wellFormed := hwellFormed }

theorem push (hfits : d.Fits t ledger production.field production.kind.role)
    (hchildren : ∀ q ∈ production.kind.children, d.Has q) :
    (d.push production).Tied t start ledger ∧ Extends d ledger (d.push production) ledger := by
  have hextends : Extends d ledger (d.push production) ledger :=
    ⟨fun hp ↦ Draft.getElem?_push hp production, id, id, fun _ ↦ rfl⟩
  refine ⟨h.extend hextends h.known id .inl h.injective (fun {p r field} hp ↦ ?_) .inl h.distinct
    (Draft.WellFormed.push h.wellFormed hchildren), hextends⟩
  rw [Draft.role?_push] at hp
  split at hp
  next =>
    cases hp
    exact .inr (hfits.sound.mono hextends)
  next => exact .inl hp

/-- A unit that is met for the first time gets a production, and is not complete yet. -/
theorem meet (hu : ledger u = none) (hreached : t.UnitReached start u)
    {typeId : String} (hrole : production.kind.role = .unit typeId (t.parameterIds u))
    (hid : ∀ id ∈ (t.typeData? u).bind TypeData.typeId, typeId = id)
    (hchildren : production.kind.children = []) :
    (d.meet u production).Tied t start (ledger.enter u d.next) ∧
      Extends d ledger (d.meet u production) (ledger.enter u d.next) := by
  have hne {v : NodeId} {p : ProductionId} (hv : ledger v = some p) : v ≠ u := by
    rintro rfl
    rw [hu] at hv
    cases hv
  have hextends : Extends d ledger (d.meet u production) (ledger.enter u d.next) :=
    { production := fun hp ↦ Draft.getElem?_push hp production
      entry := fun hv ↦ by rw [Ledger.enter, if_neg (hne hv), hv]
      placeholder := id
      units := fun hv ↦ by rw [Draft.lookup_meet, if_neg (hne hv)] }
  have hentries {v : NodeId} {p : ProductionId} (hv : ledger.enter u d.next v = some p) :
      v = u ∧ p = d.next ∨ ledger v = some p := by
    unfold Ledger.enter at hv
    split at hv
    next hvu => exact .inl ⟨hvu, (some.inj hv).symm⟩
    next => exact .inr hv
  have hfresh {v : NodeId} {p : ProductionId} (hv : ledger v = some p) : p ≠ d.next := by
    obtain ⟨_, _, hp, -⟩ := h.unit hv
    exact Draft.ne_next_of_role? hp
  refine ⟨h.extend hextends (fun v ↦ ?_) (fun {v p} hv ↦ ?_) (fun {v p} hv ↦ ?_) (fun {v w p} hv hw ↦ ?_)
    (fun {p r field} hp ↦ ?_) .inl h.distinct (Draft.WellFormed.push h.wellFormed (by simp [hchildren])),
    hextends⟩
  · rw [Draft.lookup_meet, Ledger.enter]
    split
    next => rfl
    next => exact h.known v
  · rw [Draft.lookup_meet] at hv
    split at hv
    next => cases hv
    next => exact hv
  · rcases hentries hv with ⟨rfl, rfl⟩ | hv
    · refine .inr ⟨hreached, typeId, production.field, ?_, hid⟩
      rw [Draft.role?_meet, if_pos rfl, hrole]
    · exact .inl hv
  · rcases hentries hv with ⟨hvu, hp⟩ | hv'
    · rcases hentries hw with ⟨hwu, -⟩ | hw'
      · exact hvu.trans hwu.symm
      · exact absurd hp (hfresh hw')
    · rcases hentries hw with ⟨-, hp⟩ | hw'
      · exact absurd hp (hfresh hv')
      · exact h.injective hv' hw'
  · rw [Draft.role?_meet, hrole] at hp
    split at hp
    next hnext =>
      cases hp
      exact .inr ⟨u, by rw [hnext]; exact if_pos rfl⟩
    next => exact .inl hp

/-- A unit that is met again gets a placeholder, inside the field that leads to it. -/
theorem await (hu : (ledger u).isSome) (hleads : t.FieldLeads n u)
    {around : Production} (hproduction : production.kind = .placeholder none)
    (haround : around.kind = .enclosure d.next) (hfield : around.field = some n) :
    ((d.await u production).push around).Tied t start ledger ∧
      Extends d ledger ((d.await u production).push around) ledger := by
  have hextends : Extends d ledger ((d.await u production).push around) ledger :=
    { production := fun hp ↦ Draft.getElem?_push (Draft.getElem?_push hp production) around
      entry := id
      placeholder := mem_append_left _
      units := fun _ ↦ rfl }
  have hnew : (d.next, u) ∈ ((d.await u production).push around).placeholders :=
    mem_append_right _ (mem_singleton_self _)
  have hnext : (d.await u production).role? d.next = some (.placeholder none, production.field) := by
    rw [Draft.role?_await, if_pos rfl, hproduction]
    rfl
  have hwaits := Draft.role?_push_of_role? hnext around
  have hencloses : ((d.await u production).push around).role? (d.await u production).next =
      some (.enclosure d.next, some n) := by
    rw [Draft.role?_push, if_pos rfl, haround, hfield]
    rfl
  refine ⟨h.extend hextends h.known id .inl h.injective (fun {p r field} hp ↦ ?_) (fun {p v} hp ↦ ?_) ?_ ?_,
    hextends⟩
  · rw [Draft.role?_push, Draft.role?_await, haround, hfield, hproduction] at hp
    split at hp
    next =>
      cases hp
      exact .inr ⟨n, u, rfl, hleads, .inr hnew⟩
    next =>
      split at hp
      next hnext =>
        cases hp
        exact .inr ⟨u, by rw [hnext]; exact hnew⟩
      next => exact .inl hp
  · rcases mem_append.1 hp with hp | hp
    · exact .inl hp
    · cases mem_singleton.1 hp
      exact .inr ⟨⟨⟨_, hwaits⟩, hu⟩, _, n, hencloses, hleads⟩
  · have hfresh : d.next ∉ d.placeholders.map Prod.fst := by
      intro hmem
      obtain ⟨⟨p, v⟩, hp, hnext⟩ := mem_map.1 hmem
      obtain ⟨⟨_, hp⟩, -⟩ := h.placeholder hp
      exact Draft.ne_next_of_role? hp hnext
    change ((d.placeholders ++ [(d.next, u)]).map Prod.fst).Nodup
    rw [map_append]
    exact h.distinct.append (nodup_singleton _) (by simpa using hfresh)
  · have hwellFormed : (d.await u production).WellFormed :=
      Draft.WellFormed.push h.wellFormed (by simp [hproduction, ProductionKind.children])
    exact hwellFormed.push (by simpa [haround, ProductionKind.children] using ⟨_, hnext⟩)

/-- A unit is complete once everything that it leads to has been met. -/
theorem complete (hu : ledger u = some p) (hmeets : ledger.Meets (t.UnitLeads u)) :
    ({ d with units := (u, some p) :: d.units } : Draft).Tied t start ledger := by
  have hlookup : ∀ v, ((u, some p) :: d.units).lookup v =
      if v = u then some (some p) else d.units.lookup v := Draft.lookup_cons u (some p) d.units
  exact { h with
    known := fun v ↦ by
      rw [hlookup]
      split
      next hv => rw [hv, hu]; rfl
      next => exact h.known v
    finished := fun {v q} hv ↦ by
      rw [hlookup] at hv
      split at hv
      next hvu =>
        cases hv
        rw [hvu, hu]
      next => exact h.finished hv
    closed := fun {v w q} hv hleads ↦ by
      rw [hlookup] at hv
      split at hv
      next hvu => exact hmeets w (hvu ▸ hleads)
      next => exact h.closed hv hleads }

end Tied

end

end Grammar

end ProtocolIR
