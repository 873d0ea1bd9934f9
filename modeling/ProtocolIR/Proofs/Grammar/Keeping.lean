import ProtocolIR.Proofs.Grammar.Ledger

/-!
# What is built keeps the ledger

Every step of the construction of a grammar leaves a draft that agrees with a ledger, and every
unit that it meets is complete afterwards. So does what is built for a type, for an item and for
a unit, where in addition all units are met to which it leads. What is given back is always a
production of the draft. What is given back for an item is on the way to a production of every field
in the item, as long as no switch on this way has two default cases: the last one of them takes the
place of the others.
-/

namespace ProtocolIR.Grammar

open List Option

open ProductionKind (Role)

variable {t : Tree} {start : NodeId}

/-! ## Steps -/

section

variable {α β : Type} {d : Draft} {ledger : Ledger} {kind : ProductionKind} {u n : NodeId}
  {skip : Bool} {name symbol : Option String} {origin : Origin} {unit : String}
  {attributes : Option NodeId}

/-- From a draft that agrees with a ledger, what is built extends both, so that they agree, and
completes the units that it meets. -/
def Keeps (t : Tree) (start : NodeId) (d : Draft) (ledger : Ledger) (m : Construct α)
    (post : α → Draft → Ledger → Prop) : Prop :=
  d.Tied t start ledger → Ensures m d fun a d' ↦ ∃ ledger', d'.Tied t start ledger' ∧
    Extends d ledger d' ledger' ∧ Completes ledger d' ∧ post a d' ledger'

/-- Nothing is asked of a result. -/
def Whatever (_ : α) (_ : Draft) (_ : Ledger) : Prop := True

variable {m : Construct α} {post : α → Draft → Ledger → Prop} {post' : β → Draft → Ledger → Prop}

theorem Keeps.bind {k : α → Construct β} (hm : Keeps t start d ledger m post)
    (hk : ∀ a d' ledger', Extends d ledger d' ledger' → post a d' ledger' →
      Keeps t start d' ledger' (k a) post') : Keeps t start d ledger (m >>= k) post' := by
  intro hd
  refine (hm hd).bind fun a d' ⟨ledger', hd', hext, hcompletes, ha⟩ ↦ ?_
  refine (hk a d' ledger' hext ha hd').mono fun b d'' ⟨ledger'', hd'', hext', hcompletes', hb⟩ ↦ ?_
  exact ⟨ledger'', hd'', hext.trans hext', hext'.completes hcompletes hcompletes', hb⟩

theorem Keeps.mono {post' : α → Draft → Ledger → Prop} (hm : Keeps t start d ledger m post)
    (h : ∀ a d' ledger', Extends d ledger d' ledger' → post a d' ledger' → post' a d' ledger') :
    Keeps t start d ledger m post' := by
  intro hd
  refine (hm hd).mono fun a d' ⟨ledger', hd', hext, hcompletes, ha⟩ ↦ ?_
  exact ⟨ledger', hd', hext, hcompletes, h a d' ledger' hext ha⟩

/-- What has been met stays so, whatever is built next. -/
theorem Keeps.then {k : α → Construct β} {leads : NodeId → Prop} {made : α → Draft → Prop}
    {made' : β → Draft → Prop}
    (hm : Keeps t start d ledger m fun a d' ledger' ↦ made a d' ∧ ledger'.Meets leads)
    (hk : ∀ a d' ledger', made a d' → Keeps t start d' ledger' (k a) fun b d' _ ↦ made' b d') :
    Keeps t start d ledger (m >>= k) fun b d' ledger' ↦ made' b d' ∧ ledger'.Meets leads := by
  refine hm.bind fun a d' ledger' _ ⟨ha, hmeets⟩ ↦ ?_
  exact (hk a d' ledger' ha).mono fun _ _ _ hext hp ↦ ⟨hp, hext.meets hmeets⟩

theorem keeps_pure {a : α} (ha : post a d ledger) : Keeps t start d ledger (pure a) post :=
  fun hd ↦ ensures_pure ⟨ledger, hd, .refl d ledger, hd.completes_self, ha⟩

theorem Keeps.map {f : α → β} (hm : Keeps t start d ledger m fun a ↦ post' (f a)) :
    Keeps t start d ledger (f <$> m) post' := by
  rw [map_eq_pure_bind]
  exact hm.bind fun a d' ledger' _ ha ↦ keeps_pure ha

theorem keeps_throw (f : Fault) : Keeps t start d ledger (throw f) post := fun _ ↦ ensures_throw f

theorem keeps_lift (x : Except Fault α) :
    Keeps t start d ledger (liftM x : Construct α) Whatever := by
  cases x with
  | error f => exact keeps_throw f
  | ok a => exact keeps_pure trivial

open Construct

theorem keeps_freshNumber : Keeps t start d ledger freshNumber Whatever := by
  intro hd _ _ hrun
  cases hrun
  exact ⟨ledger, hd, ⟨id, id, id, fun _ ↦ rfl⟩, hd.completes_self, trivial⟩

theorem ensures_add (symbol : Option String) (kind : ProductionKind) (origin : Origin) :
    Ensures (add symbol kind origin) d fun p d' ↦ p = d.next ∧ ∃ counter production,
      d' = { d with counter }.push production ∧ production.kind = kind ∧
        production.field = origin.field := by
  unfold add
  extract_lets push
  have hpush : ∀ symbol counter, Ensures (push symbol) { d with counter } fun p d' ↦
      p = d.next ∧ ∃ counter production, d' = { d with counter }.push production ∧
        production.kind = kind ∧ production.field = origin.field := by
    intro symbol counter p d' hrun
    cases hrun
    exact ⟨rfl, counter, _, rfl, rfl, rfl⟩
  split
  · exact hpush _ d.counter
  · refine Ensures.bind (q := fun _ d' ↦ d' = { d with counter := d.counter + 1 }) ?_ ?_
    · intro a d' hrun
      cases hrun
      rfl
    · rintro a d' rfl
      exact hpush _ _

/-- A production of a kind and for a field is new in a draft. -/
structure Draft.Added (d : Draft) (kind : ProductionKind) (field : Option NodeId) (p : ProductionId)
    (d' : Draft) : Prop where
  role : d'.role? p = some (kind.role, field)
  new : ¬d.Has p
  refersTo : ∀ q ∈ kind.children, d'.RefersTo p q

theorem Draft.Added.isFor {d' : Draft} {field : Option NodeId} {p : ProductionId}
    (h : d.Added kind field p d') : d'.IsFor p field := ⟨_, h.role⟩

theorem keeps_add (hfits : d.Fits t ledger origin.field kind.role)
    (hchildren : ∀ q ∈ kind.children, d.Has q) :
    Keeps t start d ledger (add symbol kind origin) fun p d' _ ↦ d.Added kind origin.field p d' := by
  intro hd
  refine (ensures_add symbol kind origin).mono ?_
  rintro p d' ⟨rfl, counter, production, rfl, rfl, hfield⟩
  have hcounted : ({ d with counter } : Draft).Tied t start ledger := hd
  rw [← hfield] at hfits ⊢
  obtain ⟨hpushed, hext⟩ := hcounted.push hfits hchildren
  refine ⟨ledger, hpushed, ⟨hext.production, id, id, hext.units⟩, hpushed.completes_self, ?_, ?_, fun q hq ↦ ?_⟩
  · exact (Draft.role?_push _ production _).trans (if_pos rfl)
  · rintro ⟨_, hnext⟩
    exact Draft.ne_next_of_role? hnext rfl
  · exact ⟨production, Array.getElem?_push_size, hq⟩

theorem keeps_part (h : kind.role = .part) (hchildren : ∀ q ∈ kind.children, d.Has q) :
    Keeps t start d ledger (add symbol kind origin) fun p d' _ ↦ d'.IsFor p origin.field :=
  (keeps_add (by rw [h]; trivial) hchildren).mono fun _ _ _ _ hp ↦ hp.isFor

theorem keeps_epsilon :
    Keeps t start d ledger (add symbol .epsilon origin) fun p d' _ ↦ d'.IsFor p origin.field :=
  keeps_part rfl (by simp [ProductionKind.children])

/-- A production that leads to no unit. -/
theorem keeps_leaf {leads : NodeId → Prop} (h : kind.role = .part) (hchildren : kind.children = [])
    (hnone : ∀ u, ¬leads u) :
    Keeps t start d ledger (add symbol kind origin) fun p d' ledger' ↦
      d'.IsFor p origin.field ∧ ledger'.Meets leads :=
  (keeps_part h (by simp [hchildren])).mono fun _ _ _ _ hp ↦ ⟨hp, fun u hu ↦ absurd hu (hnone u)⟩

theorem keeps_choice {left right : ProductionId} (hleft : d.Has left) (hright : d.Has right) :
    Keeps t start d ledger (add symbol (.lookAhead left right) origin) fun p d' _ ↦
      d.Added (.lookAhead left right) origin.field p d' :=
  keeps_add trivial (by simp [ProductionKind.children, hleft, hright])

theorem keeps_openList {body : ProductionId} (hbody : d.Has body) :
    Keeps t start d ledger (openList body symbol origin) fun p d' _ ↦ d'.IsFor p origin.field := by
  unfold openList
  refine keeps_epsilon.bind fun epsilon d₁ ledger₁ hext₁ hepsilon hd₁ ↦ ?_
  -- The list gets its kind at the end, so it is known from before this only that it is there.
  refine (keeps_choice hepsilon.has hepsilon.has hd₁).bind fun list d₂ ⟨ledger₂, hd₂, hext₂, hc₂, hlist⟩ ↦ ?_
  refine (keeps_add (by exact ⟨_, hlist.role⟩) (by exact forall_mem_singleton.2 hlist.isFor.has) hd₂).bind
    fun again d₃ ⟨ledger₃, hd₃, hext₃, hc₃, hagain⟩ ↦ ?_
  have hbody₃ := (hext₁.trans (hext₂.trans hext₃)).has hbody
  refine (keeps_part rfl (by simp [ProductionKind.children, hbody₃, hagain.isFor.has]) hd₃).bind
    fun more d₄ ⟨ledger₄, hd₄, hext₄, hc₄, hmore⟩ ↦ ?_
  have hext := hext₃.trans hext₄
  have hrole := hext.role hlist.role
  have hepsilon₄ := (hext₂.trans hext).has hepsilon.has
  intro p d₅ hrun
  cases hrun
  refine ⟨ledger₄, hd₄.setKind hrole (by simp [ProductionKind.children, hmore.has, hepsilon₄]),
    (hext₂.trans hext).setKind hlist.new _, hext₄.completes (hext₃.completes hc₂ hc₃) hc₄,
    Draft.IsFor.setKind ⟨_, hrole⟩ hrole⟩

/-- A choice leads to what it is made of. -/
theorem keeps_chooseAhead {last : ProductionId} {before : List ProductionId} (hlast : d.Has last)
    (hbefore : ∀ p ∈ before, d.Has p) :
    Keeps t start d ledger (chooseAhead origin last before) fun p d' _ ↦ d'.Has p ∧
      ∀ q ∈ last :: before, Relation.ReflTransGen d'.RefersTo p q := by
  induction before generalizing d ledger last with
  | nil => exact keeps_pure ⟨hlast, forall_mem_singleton.2 .refl⟩
  | cons p before ih =>
    obtain ⟨hp, hbefore⟩ := forall_mem_cons.1 hbefore
    refine (keeps_choice hp hlast).bind fun choice d' ledger' hext hchoice ↦ ?_
    refine (ih hchoice.isFor.has fun q hq ↦ hext.has (hbefore q hq)).mono ?_
    refine fun r d'' _ hext' ⟨hr, hleads⟩ ↦ ⟨hr, ?_⟩
    obtain ⟨htop, hbefore⟩ := forall_mem_cons.1 hleads
    have hpart {q : ProductionId} (hq : q ∈ [p, last]) := htop.tail (hext'.refersTo (hchoice.refersTo q hq))
    exact forall_mem_cons.2 ⟨hpart (by simp), forall_mem_cons.2 ⟨hpart (by simp), hbefore⟩⟩

theorem keeps_fieldSymbol (unit : String) (id : Option String) :
    Keeps t start d ledger (fieldSymbol unit id) Whatever := by
  cases id with
  | some id => exact keeps_pure trivial
  | none => exact keeps_freshNumber.bind fun _ _ _ _ _ ↦ keeps_pure trivial

theorem keeps_texts {f : α → Except Fault String} {l : List α} :
    Keeps t start d ledger (l.mapM fun a ↦ (liftM (f a) : Construct String)) Whatever := by
  induction l generalizing d ledger with
  | nil => exact keeps_pure trivial
  | cons a l ih =>
    rw [mapM_cons]
    exact (keeps_lift _).bind fun _ _ _ _ _ ↦ ih.bind fun _ _ _ _ _ ↦ keeps_pure trivial

/-! ## Fields in items -/

/-- Productions lead to all fields in an item, if no switch in it has two default cases. -/
def Covers (t : Tree) (d : Draft) (n : NodeId) (ps : List ProductionId) : Prop :=
  (∀ s, t.ItemIn n s → t.OneDefault s) → ∀ m, t.ItemIn n m → t.isUnitField m → ∃ p ∈ ps, d.Shows p m

section

variable {d' : Draft} {ledger' : Ledger} {ps ps' : List ProductionId} {p : ProductionId}

theorem Covers.mono (h : Covers t d n ps) (hext : Extends d ledger d' ledger') (hps : ps ⊆ ps') :
    Covers t d' n ps' := by
  intro hdefaults m hm hfield
  obtain ⟨p, hp, hshows⟩ := h hdefaults m hm hfield
  exact ⟨p, hps hp, hext.shows hshows⟩

/-- An item without cases is at most a field itself. -/
theorem covers_of_leaf (hswitch : (t.kind n).item? ≠ some .switch)
    (halternative : ∀ isDefault c, (t.kind n).item? = some (.alternative isDefault) → t.child n 0 ≠ some c)
    (hself : t.isUnitField n → ∃ p ∈ ps, d.Shows p n) : Covers t d n ps := by
  intro _ m hm hfield
  obtain rfl | ⟨hn, -⟩ | ⟨⟨_, hn⟩, c, hc, -⟩ := hm.item?
  · exact hself hfield
  · exact absurd hn hswitch
  · exact absurd hc (halternative _ c hn)

/-- The one case of an item stands for the item. -/
theorem Covers.alternative {inner : NodeId} {isDefault : Bool} (h : Covers t d inner ps)
    (hn : (t.kind n).item? = some (.alternative isDefault)) (hinner : t.child n 0 = some inner) :
    Covers t d n ps := by
  intro hdefaults m hm hfield
  refine h (fun s hs ↦ hdefaults s (.alternative hn hinner hs)) m ?_ hfield
  obtain rfl | ⟨hswitch, -⟩ | ⟨-, c, hc, hm⟩ := hm.item?
  · simp [Tree.isUnitField, hn] at hfield
  · cases hn.symm.trans hswitch
  · cases hinner.symm.trans hc
    exact hm

theorem covers_switch (hn : (t.kind n).item? = some .switch)
    (hcases : t.defaults (t.childrenFrom n 1 .item) ≤ 1 → ∀ i ∈ t.childrenFrom n 1 .item, Covers t d i ps)
    (hps : ∀ q ∈ ps, Relation.ReflTransGen d.RefersTo p q) : Covers t d n [p] := by
  intro hdefaults m hm hfield
  obtain rfl | ⟨-, c, hc, hm⟩ | ⟨⟨_, halternative⟩, -⟩ := hm.item?
  · simp [Tree.isUnitField, hn] at hfield
  · obtain ⟨q, hq, q', hq', hfor⟩ := hcases (hdefaults n .self hn) c hc
      (fun s hs ↦ hdefaults s (.switch hn hc hs)) m hm hfield
    exact ⟨p, mem_singleton_self p, q', (hps q hq).trans hq', hfor⟩
  · cases hn.symm.trans halternative

end

/-! ## Parts of units -/

/-- What is given to build parts with keeps ledgers and meets all units that the parts lead to. -/
structure Producer.Keeping (t : Tree) (start : NodeId) (r : Producer) : Prop where
  type : ∀ {d ledger type n attributes symbol origin}, origin.field = some n →
    (∀ u, t.TypeLeads type u → t.FieldLeads n u) → (∀ u, t.FieldLeads n u → t.UnitReached start u) →
    Keeps t start d ledger (r.type type attributes symbol origin) fun p d' ledger' ↦
      d'.IsFor p origin.field ∧ ledger'.Meets (t.TypeLeads type)
  item : ∀ {d ledger unit i}, (∀ u, t.ItemLeads i u → t.UnitReached start u) →
    Keeps t start d ledger (r.item unit i) fun p d' ledger' ↦
      ((∀ q ∈ p.toList, d'.Has q) ∧ Covers t d' i p.toList) ∧ ledger'.Meets (t.ItemLeads i)

theorem Extends.meets_items {i : NodeId} {is : List NodeId} {ledger' : Ledger} (hext : Extends d ledger d' ledger')
    (hi : ledger.Meets (t.ItemLeads i)) (his : ledger'.Meets fun u ↦ ∃ j ∈ is, t.ItemLeads j u) :
    ledger'.Meets fun u ↦ ∃ j ∈ i :: is, t.ItemLeads j u := by
  rintro u ⟨j, hj, hu⟩
  rcases mem_cons.1 hj with rfl | hj
  · exact hext.meets hi u hu
  · exact his u ⟨j, hj, hu⟩

variable {r : Producer} (hr : r.Keeping t start)

include hr

/-- What is built for one item after another meets what any of them leads to. -/
theorem Producer.Keeping.items {is : List NodeId}
    (hreached : ∀ i ∈ is, ∀ u, t.ItemLeads i u → t.UnitReached start u) :
    Keeps t start d ledger (is.mapM (r.item unit)) fun ps d' ledger' ↦
      ((∀ q ∈ ps.filterMap id, d'.Has q) ∧ ∀ i ∈ is, Covers t d' i (ps.filterMap id)) ∧
        ledger'.Meets fun u ↦ ∃ i ∈ is, t.ItemLeads i u := by
  induction is generalizing d ledger with
  | nil => exact keeps_pure ⟨by simp, fun _ ⟨_, ha, _⟩ ↦ nomatch ha⟩
  | cons i is ih =>
    obtain ⟨hi, his⟩ := forall_mem_cons.1 hreached
    rw [mapM_cons]
    refine (hr.item hi).bind fun p d₁ ledger₁ _ ⟨⟨hp, hcovers⟩, hmeets⟩ ↦ ?_
    refine (ih his).bind fun ps d₂ ledger₂ hext ⟨⟨hps, hcovers'⟩, hmeets'⟩ ↦ ?_
    have hcons : (p :: ps).filterMap id = p.toList ++ ps.filterMap id := by cases p <;> rfl
    refine keeps_pure ⟨?_, hext.meets_items hmeets hmeets'⟩
    rw [hcons]
    refine ⟨forall_mem_append.2 ⟨fun q hq ↦ hext.has (hp q hq), hps⟩, forall_mem_cons.2 ⟨?_, fun j hj ↦ ?_⟩⟩
    · exact hcovers.mono hext (subset_append_left ..)
    · exact (hcovers' j hj).mono (.refl d₂ ledger₂) (subset_append_right ..)

/-- A unit that is met for the first time is complete at the end. -/
theorem Producer.Keeping.unitProduction (hu : ledger u = none) (hreached : t.UnitReached start u) :
    Keeps t start d ledger (unitProduction t r u) fun p d' ledger' ↦
      ledger' u = some p ∧ d'.ShowsUnit t p u := by
  intro hd
  have hunknown : (d.units.lookup u).isSome = false := by rw [hd.known, hu]; rfl
  unfold Grammar.unitProduction
  refine ensures_get_bind ?_
  rw [hunknown, if_neg Bool.false_ne_true]
  extract_lets parameters build
  have hbuild : ∀ typeId counter, (∀ id ∈ (t.typeData? u).bind TypeData.typeId, typeId = id) →
      Ensures (build typeId) { d with units := (u, none) :: d.units, counter } fun p d' ↦
        ∃ ledger', d'.Tied t start ledger' ∧ Extends d ledger d' ledger' ∧ Completes ledger d' ∧
          ledger' u = some p ∧ d'.ShowsUnit t p u := by
    intro typeId counter hid
    refine (ensures_add _ _ _).bind ?_
    rintro p d₁ ⟨rfl, counter', production, rfl, hkind, -⟩
    have hcounted : ({ d with counter := counter' } : Draft).Tied t start ledger := hd
    obtain ⟨hmet, hext₁⟩ := hcounted.meet hu hreached (by rw [hkind]; rfl) hid (by rw [hkind]; rfl)
    have hitem : ∀ i ∈ t.childrenFrom u 0 .item, ∀ v, t.ItemLeads i v → t.UnitReached start v :=
      fun i hi v hv ↦ hreached.tail ⟨i, hi, hv⟩
    refine (hr.items hitem hmet).bind ?_
    rintro fields d₂ ⟨ledger₂, hd₂, hext₂, hcompletes₂, ⟨hfields, hcovers⟩, hmeets⟩
    have hentry : ledger₂ u = some d.next := hext₂.entry (if_pos rfl)
    have hunit : d₂.productions[d.next.index]? = some production := hext₂.production Array.getElem?_push_size
    have hrole : d₂.role? d.next = some (.unit typeId parameters, production.field) := by
      rw [Draft.role?, hunit, map_some, hkind]
      rfl
    have hext : Extends d ledger d₂ ledger₂ :=
      Extends.trans ⟨hext₁.production, hext₁.entry, hext₁.placeholder, hext₁.units⟩ hext₂
    have hnew : ¬d.Has d.next := by
      rintro ⟨_, hnext⟩
      exact Draft.ne_next_of_role? hnext rfl
    intro p d₃ hrun
    cases hrun
    -- The unit is complete now, and the units met on the way were so before.
    refine ⟨ledger₂, (hd₂.setKind hrole (by exact hfields)).complete hentry hmeets,
      (hext.setKind hnew _).complete hu d.next, fun v hv ↦ ?_, hentry, ?_⟩
    · rw [Draft.lookup_cons]
      split
      next =>
        intro h
        cases h
      next hvu => exact hcompletes₂ v ((if_neg hvu).trans hv)
    · rintro hdefaults m ⟨i, hi, hm⟩ hfield
      obtain ⟨q, hq, q', hq', hfor⟩ := hcovers i hi (fun s hs ↦ hdefaults s ⟨i, hi, hs⟩) m hm hfield
      -- While its items are made the unit refers to nothing.
      have hstep {a b : ProductionId} : d₂.RefersTo a b → (d₂.setKind d.next
          (.unit typeId parameters (fields.filterMap id))).RefersTo a b := by
        rintro ⟨other, hother, hb⟩
        refine ⟨other, ?_, hb⟩
        rw [Draft.setKind, Array.getElem?_modify, if_neg, hother]
        intro hindex
        rw [← hindex, hunit] at hother
        cases hother
        rw [hkind] at hb
        cases hb
      exact ⟨q', .head ⟨_, Draft.getElem?_setKind hunit, hq⟩ (hq'.lift id fun _ _ ↦ hstep), hfor.setKind hrole⟩
  refine Ensures.bind (q := fun _ d' ↦ d' = { d with units := (u, none) :: d.units }) ?_ ?_
  · intro _ d' hrun
    cases hrun
    rfl
  rintro - d₁ rfl
  split
  next id hid => exact hbuild id d.counter fun id' hid' ↦ some.inj (hid.symm.trans hid')
  next hid =>
    refine Ensures.bind (q := fun _ d' ↦
      d' = { d with units := (u, none) :: d.units, counter := d.counter + 1 }) ?_ ?_
    · intro _ d' hrun
      cases hrun
      rfl
    · rintro number d₂ rfl
      refine hbuild _ _ fun id hid' ↦ ?_
      rw [hid] at hid'
      cases hid'

/-- A unit inside a field: a placeholder if it was met before. -/
theorem Producer.Keeping.enclosedUnit (hfield : origin.field = some n) (hleads : t.FieldLeads n u)
    (hreached : t.UnitReached start u) :
    Keeps t start d ledger (Grammar.unitProduction t r u >>= fun inner ↦ add symbol (.enclosure inner) origin)
      fun p d' ledger' ↦ d'.IsFor p origin.field ∧ (ledger' u).isSome := by
  cases hu : ledger u with
  | none =>
    refine (hr.unitProduction hu hreached).bind fun inner d' ledger' _ ⟨hinner, _⟩ hd' ↦ ?_
    obtain ⟨_, _, hrole, -⟩ := hd'.unit hinner
    refine (keeps_add (by exact ⟨n, u, hfield, hleads, .inl hinner⟩)
      (forall_mem_singleton.2 ⟨_, hrole⟩)).mono (fun _ _ _ hext hp ↦ ?_) hd'
    exact ⟨hp.isFor, hext.isSome (isSome_of_eq_some hinner)⟩
  | some q =>
    intro hd
    have hsome : (ledger u).isSome := isSome_of_eq_some hu
    have hplaceholder : Ensures (Grammar.unitProduction t r u) d fun p d' ↦ p = d.next ∧
        ∃ counter production, d' = ({ d with counter } : Draft).await u production ∧
          production.kind = .placeholder none := by
      unfold Grammar.unitProduction
      refine ensures_get_bind ?_
      rw [if_pos ((hd.known u).trans hsome)]
      refine (ensures_add _ _ _).bind ?_
      rintro p d₁ ⟨rfl, counter, production, rfl, hkind, -⟩ p d₂ hrun
      cases hrun
      exact ⟨rfl, counter, production, rfl, hkind⟩
    refine hplaceholder.bind ?_
    rintro p d₁ ⟨rfl, counter, production, rfl, hkind⟩
    refine (ensures_add _ _ _).mono ?_
    rintro p d₂ ⟨rfl, counter', around, rfl, haround, hfield'⟩
    have hcounted : ({ d with counter := counter' } : Draft).Tied t start ledger := hd
    obtain ⟨hawaited, hext⟩ := hcounted.await hsome hleads hkind haround (hfield'.trans hfield)
    exact ⟨ledger, hawaited, ⟨hext.production, id, hext.placeholder, hext.units⟩, hawaited.completes_self,
      ⟨_, (Draft.role?_push _ around _).trans ((if_pos rfl).trans (by rw [hfield']))⟩, hsome⟩

theorem Producer.Keeping.listProduction {list : NodeId} (hfield : origin.field = some n)
    (hleads : ∀ element ∈ t.elementType list, ∀ u, t.TypeLeads element u → t.FieldLeads n u)
    (hreached : ∀ u, t.FieldLeads n u → t.UnitReached start u) :
    Keeps t start d ledger (listProduction t r list attributes symbol origin) fun p d' ledger' ↦
      d'.IsFor p origin.field ∧ ledger'.Meets fun u ↦ ∃ element ∈ t.elementType list, t.TypeLeads element u := by
  unfold Grammar.listProduction
  extract_lets close
  have hclose : ∀ body d ledger, d.IsFor body origin.field →
      Keeps t start d ledger (close body) fun p d' _ ↦ d'.IsFor p origin.field := by
    intro body d ledger hbody
    refine (keeps_lift _).bind fun count d₁ ledger₁ hext₁ _ ↦ ?_
    have hbody₁ := hext₁.has hbody.has
    split
    · exact keeps_part rfl (forall_mem_singleton.2 hbody₁)
    · refine (keeps_lift _).bind fun condition d₂ ledger₂ hext₂ _ ↦ ?_
      have hbody₂ := hext₂.has hbody₁
      split
      · exact keeps_part rfl (forall_mem_singleton.2 hbody₂)
      · refine (keeps_lift _).bind fun condition d₃ ledger₃ hext₃ _ ↦ ?_
        have hbody₃ := hext₃.has hbody₂
        split
        · exact keeps_part rfl (forall_mem_singleton.2 hbody₃)
        · split
          · exact keeps_part rfl (forall_mem_singleton.2 hbody₃)
          · exact keeps_openList hbody₃
  split
  next element helement =>
    refine Keeps.then ((hr.type hfield (hleads element helement) hreached).mono ?_) hclose
    refine fun _ _ _ _ hbody ↦ hbody.imp_right ?_
    rintro hmeets u ⟨element', helement', hu⟩
    cases helement.symm.trans helement'
    exact hmeets u hu
  next helement =>
    refine (keeps_leaf rfl rfl ?_).then hclose
    rintro u ⟨element, helement', -⟩
    cases helement.symm.trans helement'

theorem Producer.Keeping.optionalProduction {element : Option NodeId}
    (hfield : origin.field = some n) (hleads : ∀ e ∈ element, ∀ u, t.TypeLeads e u → t.FieldLeads n u)
    (hreached : ∀ u, t.FieldLeads n u → t.UnitReached start u) :
    Keeps t start d ledger (optionalProduction r element symbol origin) fun p d' ledger' ↦
      d'.IsFor p origin.field ∧ ledger'.Meets fun u ↦ ∃ e ∈ element, t.TypeLeads e u := by
  unfold Grammar.optionalProduction
  extract_lets close
  have hclose : ∀ body d ledger, d.IsFor body origin.field →
      Keeps t start d ledger (close body) fun p d' _ ↦ d'.IsFor p origin.field := fun body d ledger hbody ↦
    keeps_epsilon.bind fun _ _ _ hext hepsilon ↦
      (keeps_choice (hext.has hbody.has) hepsilon.has).mono fun _ _ _ _ hp ↦ hp.isFor
  split
  next element =>
    refine Keeps.then ((hr.type hfield (hleads element rfl) hreached).mono ?_) hclose
    refine fun _ _ _ _ hbody ↦ hbody.imp_right ?_
    rintro hmeets u ⟨e, he, hu⟩
    cases he
    exact hmeets u hu
  next =>
    refine (keeps_leaf rfl rfl ?_).then hclose
    rintro u ⟨e, he, -⟩
    cases he

theorem Producer.Keeping.typeProduction {type : NodeId} (hfield : origin.field = some n)
    (hleads : ∀ u, t.TypeLeads type u → t.FieldLeads n u)
    (hreached : ∀ u, t.FieldLeads n u → t.UnitReached start u) :
    Keeps t start d ledger (typeProduction t r type attributes symbol origin) fun p d' ledger' ↦
      d'.IsFor p origin.field ∧ ledger'.Meets (t.TypeLeads type) := by
  unfold Grammar.typeProduction
  split
  next hfollow =>
    refine (keeps_lift _).bind fun _ _ _ _ _ ↦ keeps_leaf rfl rfl fun u hu ↦ ?_
    obtain ⟨v, hv, -⟩ := hu.follow
    cases hfollow.symm.trans hv
  next v hfollow =>
    have hcases : ∀ {u}, t.TypeLeads type u → t.shape? v = some .unit ∧ u = v ∨
        t.shape? v = some .list ∧ (∃ element ∈ t.elementType v, t.TypeLeads element u) ∨
        t.shape? v = some .optional ∧ ∃ element ∈ t.child v 0, t.TypeLeads element u := by
      intro u hu
      obtain ⟨v', hv, h⟩ := hu.follow
      cases hfollow.symm.trans hv
      exact h
    split
    next hshape =>
      have hv : t.FieldLeads n v := hleads v (.unit hfollow hshape)
      refine (hr.enclosedUnit hfield hv (hreached v hv)).mono fun _ _ _ _ ⟨hp, hsome⟩ ↦ ⟨hp, fun u hu ↦ ?_⟩
      rwa [hu.unique (.unit hfollow hshape)]
    next hshape =>
      refine (hr.listProduction hfield (fun e he u hu ↦ hleads u (.list hfollow hshape he hu)) hreached).mono
        fun _ _ _ _ ⟨hp, hmeets⟩ ↦ ⟨hp, fun u hu ↦ hmeets u ?_⟩
      simpa [hshape] using hcases hu
    next hshape =>
      refine (hr.optionalProduction hfield (fun e he u hu ↦ hleads u (.optional hfollow hshape he hu))
        hreached).mono fun _ _ _ _ ⟨hp, hmeets⟩ ↦ ⟨hp, fun u hu ↦ hmeets u ?_⟩
      simpa [hshape] using hcases hu
    next hshape =>
      exact (keeps_lift _).bind fun _ _ _ _ _ ↦ keeps_leaf rfl rfl fun u hu ↦ by
        simpa [hshape] using hcases hu
    next hshape => exact keeps_leaf rfl rfl fun u hu ↦ by simpa [hshape] using hcases hu
    next hunit hlist hoptional _ _ =>
      refine (keeps_lift _).bind fun _ _ _ _ _ ↦ keeps_leaf rfl rfl fun u hu ↦ ?_
      rcases hcases hu with ⟨h, -⟩ | ⟨h, -⟩ | ⟨h, -⟩
      · exact hunit h
      · exact hlist h
      · exact hoptional h

theorem Producer.Keeping.fieldValue (hn : (t.kind n).item? = some (.field name skip))
    (hfield : origin.field = some n) (hreached : ∀ u, t.FieldLeads n u → t.UnitReached start u) :
    Keeps t start d ledger (fieldValue t r n skip symbol origin) fun p d' ledger' ↦
      d'.IsFor p origin.field ∧ ledger'.Meets (t.FieldLeads n) := by
  unfold Grammar.fieldValue
  split
  next hliteral =>
    refine (keeps_lift _).bind fun _ _ _ _ _ ↦ keeps_leaf rfl rfl fun u ⟨_, _, _, hnone, _⟩ ↦ ?_
    cases hliteral.symm.trans hnone
  next =>
    refine (keeps_lift _).bind fun _ _ _ _ _ ↦ keeps_leaf rfl rfl fun u ⟨_, _, hskip, _⟩ ↦ ?_
    cases hn.symm.trans hskip
  next type hliteral htype =>
    have hleads : ∀ u, t.TypeLeads type u → t.FieldLeads n u := fun u hu ↦
      ⟨name, type, hn, hliteral, htype, hu⟩
    refine (hr.type hfield hleads hreached).mono fun _ _ _ _ ⟨hp, hmeets⟩ ↦ ⟨hp, fun u hu ↦ ?_⟩
    obtain ⟨_, type', -, -, htype', hu⟩ := hu
    cases htype.symm.trans htype'
    exact hmeets u hu
  next htype =>
    refine keeps_leaf rfl rfl fun u ⟨_, _, _, _, hsome, _⟩ ↦ ?_
    cases htype.symm.trans hsome

theorem Producer.Keeping.fieldProduction (hn : (t.kind n).item? = some (.field name skip))
    (hreached : ∀ u, t.FieldLeads n u → t.UnitReached start u) :
    Keeps t start d ledger (fieldProduction t r unit n name skip) fun p d' ledger' ↦
      d'.IsFor p (some n) ∧ ledger'.Meets (t.FieldLeads n) := by
  unfold Grammar.fieldProduction
  refine (keeps_fieldSymbol unit name).bind fun symbol _ _ _ _ ↦ ?_
  extract_lets origin
  refine (keeps_lift _).bind fun size _ _ _ _ ↦ ?_
  extract_lets size
  refine Keeps.bind (?_ : Keeps t start _ _ _ Whatever) fun condition _ _ _ _ ↦ ?_
  · cases t.child n 2 with
    | none => exact keeps_pure trivial
    | some c => exact Keeps.map (f := some) (keeps_lift (t.short c))
  refine (hr.fieldValue hn rfl hreached).then fun p d' ledger' hp ↦ ?_
  extract_lets choose
  have hchoose : ∀ p d ledger, d.IsFor p (some n) →
      Keeps t start d ledger (choose p) fun p d' _ ↦ d'.IsFor p (some n) := by
    intro p d ledger hp
    unfold choose
    split
    · refine keeps_epsilon.bind fun otherwise _ _ hext hotherwise ↦ keeps_part rfl ?_
      exact forall_mem_cons.2 ⟨hext.has hp.has, forall_mem_singleton.2 hotherwise.has⟩
    · exact keeps_pure hp
  clear_value choose size
  split
  · exact (keeps_part rfl (by simpa [ProductionKind.children] using hp.has)).bind fun q d'' ledger'' _ hq ↦
      hchoose q d'' ledger'' hq
  · exact hchoose p d' ledger' hp

/-- The last default takes the place of the others, so it is the only one that counts. -/
theorem Producer.Keeping.switchCases {is : List NodeId}
    (hreached : ∀ i ∈ is, ∀ u, t.ItemLeads i u → t.UnitReached start u) :
    Keeps t start d ledger (switchCases t r unit is) fun cases d' ledger' ↦
      ((∀ q ∈ cases.1.map Prod.snd ++ cases.2.toList, d'.Has q) ∧ (t.defaults is = 0 → cases.2 = none) ∧
        (t.defaults is ≤ 1 → ∀ i ∈ is, Covers t d' i (cases.1.map Prod.snd ++ cases.2.toList))) ∧
        ledger'.Meets fun u ↦ ∃ i ∈ is, t.ItemLeads i u := by
  induction is generalizing d ledger with
  | nil => exact keeps_pure ⟨by simp, fun _ ⟨_, hi, _⟩ ↦ nomatch hi⟩
  | cons i is ih =>
    obtain ⟨hi, his⟩ := forall_mem_cons.1 hreached
    unfold Grammar.switchCases
    refine (hr.item hi).bind fun p d₁ ledger₁ _ ⟨⟨hp, hcovers⟩, hmeets⟩ ↦ ?_
    unfold Tree.defaults at ih ⊢
    rw [countP_cons]
    split
    · refine (ih his).mono fun _ _ _ hext ⟨⟨hcases, hnone, hcases'⟩, his⟩ ↦
        ⟨⟨hcases, fun h ↦ hnone (by omega), fun h ↦ ?_⟩, hext.meets_items hmeets his⟩
      exact forall_mem_cons.2 ⟨hcovers.mono hext (nil_subset _), hcases' (by omega)⟩
    · have hp := hp _ (mem_singleton_self _)
      split
      · refine (ih his).bind fun ⟨cases, otherwise⟩ d₂ ledger₂ hext ⟨⟨hcases, hnone, hcases'⟩, his⟩ ↦
          keeps_pure ⟨⟨fun q hq ↦ ?_, by omega, fun h ↦ ?_⟩, hext.meets_items hmeets his⟩
        · simp only [mem_append, mem_toList, or_eq_some_iff] at hq
          obtain hq | hq | ⟨-, hq⟩ := hq
          · exact hcases q (mem_append_left _ hq)
          · exact hcases q (mem_append_right _ (mem_toList.2 hq))
          · cases hq
            exact hext.has hp
        · obtain rfl : otherwise = none := hnone (by omega)
          refine forall_mem_cons.2 ⟨hcovers.mono hext (subset_append_right ..), fun j hj ↦ ?_⟩
          exact (hcases' (by omega) j hj).mono (.refl d₂ ledger₂) (by simp)
      · refine keeps_texts.bind fun labels _ _ hext _ ↦ ?_
        refine (ih his).bind fun rest d₂ ledger₂ hext' ⟨⟨hcases, hnone, hcases'⟩, his⟩ ↦
          keeps_pure ⟨⟨?_, hnone, fun h ↦ ?_⟩, (hext.trans hext').meets_items hmeets his⟩
        · exact forall_mem_cons.2 ⟨(hext.trans hext').has hp, hcases⟩
        · refine forall_mem_cons.2 ⟨hcovers.mono (hext.trans hext') (by simp), fun j hj ↦ ?_⟩
          exact (hcases' h j hj).mono (.refl d₂ ledger₂) (subset_cons_self ..)

theorem Producer.Keeping.switchProduction (hn : (t.kind n).item? = some .switch)
    (hreached : ∀ i ∈ t.childrenFrom n 1 .item, ∀ u, t.ItemLeads i u → t.UnitReached start u) :
    Keeps t start d ledger (switchProduction t r unit n) fun p d' ledger' ↦
      (d'.Has p ∧ Covers t d' n [p]) ∧
        ledger'.Meets fun u ↦ ∃ i ∈ t.childrenFrom n 1 .item, t.ItemLeads i u := by
  unfold Grammar.switchProduction
  extract_lets origin
  refine (hr.switchCases hreached).then fun ⟨cases, otherwise⟩ d' ledger' ⟨hcases, _, hcovers⟩ ↦ ?_
  have hcovers' {p : ProductionId} {d'' : Draft} {ledger'' : Ledger} (hext : Extends d' ledger' d'' ledger'')
      (hps : ∀ q ∈ cases.map Prod.snd ++ otherwise.toList, Relation.ReflTransGen d''.RefersTo p q) :
      Covers t d'' n [p] :=
    covers_switch hn (fun h i hi ↦ (hcovers h i hi).mono hext (Subset.refl _)) hps
  dsimp only
  split
  · refine (keeps_lift _).bind fun _ d₁ ledger₁ hext₁ _ ↦ (keeps_add (by trivial) ?_).mono
      fun p _ _ hext hp ↦ ⟨hp.isFor.has, hcovers' (hext₁.trans hext) fun q hq ↦ .single (hp.refersTo q hq)⟩
    exact fun q hq ↦ hext₁.has (hcases q hq)
  · split
    next hreverse =>
      rw [reverse_eq_nil_iff] at hreverse
      exact keeps_epsilon.mono fun p _ _ hext hp ↦ ⟨hp.has, hcovers' hext (by simp [hreverse])⟩
    next last before hreverse =>
      have hmem (q : ProductionId) : q ∈ last :: before ↔ q ∈ cases.map Prod.snd ++ otherwise.toList := by
        rw [← hreverse, mem_reverse]
      obtain ⟨hlast, hbefore⟩ := forall_mem_cons.1 fun q hq ↦ hcases q ((hmem q).1 hq)
      exact (keeps_chooseAhead hlast hbefore).mono fun p _ _ hext ⟨hp, hleads⟩ ↦
        ⟨hp, hcovers' hext fun q hq ↦ hleads q ((hmem q).2 hq)⟩

theorem Producer.Keeping.itemProduction (hreached : ∀ u, t.ItemLeads n u → t.UnitReached start u) :
    Keeps t start d ledger (itemProduction t r unit n) fun p d' ledger' ↦
      ((∀ q ∈ p.toList, d'.Has q) ∧ Covers t d' n p.toList) ∧ ledger'.Meets (t.ItemLeads n) := by
  unfold Grammar.itemProduction
  split
  next id skip hn =>
    refine Keeps.map ((hr.fieldProduction hn fun u hu ↦ hreached u (.field hu)).mono ?_)
    refine fun p _ _ _ ⟨hp, hmeets⟩ ↦ ⟨⟨forall_mem_singleton.2 hp.has, ?_⟩, fun u hu ↦ ?_⟩
    · exact covers_of_leaf (by simp [hn]) (by simp [hn]) fun _ ↦ ⟨p, mem_singleton_self p, p, .refl, hp⟩
    · have hcases := hu.item?
      simp only [hn, some.injEq, reduceCtorEq, exists_const, false_and, or_false] at hcases
      exact hmeets u hcases.2
  next hn =>
    refine Keeps.map ((hr.switchProduction hn fun i hi u hu ↦ hreached u (.switch hn hi hu)).mono ?_)
    refine fun p _ _ _ ⟨hp, hmeets⟩ ↦ ⟨hp.imp_left forall_mem_singleton.2, fun u hu ↦ ?_⟩
    exact hmeets u (by simpa [hn] using hu.item?)
  next isDefault hn =>
    split
    next inner hinner =>
      refine (hr.item fun u hu ↦ hreached u (.alternative hn hinner hu)).mono
        fun _ _ _ _ ⟨hp, hmeets⟩ ↦ ⟨hp.imp_right fun hcovers ↦ hcovers.alternative hn hinner, fun u hu ↦ ?_⟩
      exact hmeets u (by simpa [hn, hinner] using hu.item?)
    next hinner =>
      exact keeps_pure ⟨⟨by simp, covers_of_leaf (by simp [hn]) (by simp [hinner]) (by simp [Tree.isUnitField, hn])⟩,
        fun u hu ↦ by simpa [hn, hinner] using hu.item?⟩
  all_goals
    next hn =>
      exact keeps_pure ⟨⟨by simp, covers_of_leaf (by simp [hn]) (by simp [hn]) (by simp [Tree.isUnitField, hn])⟩,
        fun u hu ↦ by simpa [hn] using hu.item?⟩

end

variable (t start)

/-- What is built for the parts of a unit keeps ledgers. -/
theorem keeping_producer (fuel : Nat) : (producer t fuel).Keeping t start := by
  induction fuel with
  | zero => exact ⟨fun _ _ _ ↦ keeps_throw _, fun _ ↦ keeps_throw _⟩
  | succ fuel ih =>
    exact ⟨fun hfield hleads hreached ↦ ih.typeProduction hfield hleads hreached,
      fun hreached ↦ ih.itemProduction hreached⟩

end ProtocolIR.Grammar
