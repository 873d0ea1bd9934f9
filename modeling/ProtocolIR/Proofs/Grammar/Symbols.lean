import ProtocolIR.Proofs.Grammar.Analysis
import ProtocolIR.Proofs.Identifiers
import ProtocolIR.Proofs.Scope.Unique

/-!
# The symbols of productions

A symbol begins with its head: the type ID of a unit, or a stem with a number that no other symbol
draws. What is under the head of a unit is the ID of a field, or again a number. A unit is built once and
the IDs of its fields differ, so no symbol is made twice, as long as none of the IDs reads like a symbol
of another origin.
-/

namespace ProtocolIR

open List

theorem append_path_inj {a b f f' : String} (hf : ':' ∉ f.toList) (hf' : ':' ∉ f'.toList)
    (h : a ++ "::" ++ f = b ++ "::" ++ f') : a = b ∧ f = f' := by
  have htext := congrArg String.toList h
  simp only [String.toList_append] at htext
  obtain ⟨hhead, htail⟩ := append_inj_of_getLast? (p := (· != ':'))
    (fun c hc ↦ bne_iff_ne.2 fun heq ↦ hf (heq ▸ hc))
    (fun c hc ↦ bne_iff_ne.2 fun heq ↦ hf' (heq ▸ hc)) (by simp) (by simp) htext
  exact ⟨String.toList_inj.1 (append_cancel_right hhead), String.toList_inj.1 htail⟩

namespace Tree

/-- The recorded type ID of a unit. -/
def unitId? (t : Tree) (u : NodeId) : Option String :=
  if t.shape? u = some .unit then (t.typeData? u).bind TypeData.typeId else none

/-- No ID of a unit or of a unit item reads like a symbol of another origin. -/
structure PlainIds (t : Tree) : Prop where
  unit_head : ∀ {u id}, t.unitId? u = some id → id.toList.head? ≠ some '_'
  unit_apart : ∀ {u v id id'}, t.unitId? u = some id → t.unitId? v = some id' → u ≠ v →
    id ≠ id' ∧ ∀ f, id' ≠ id ++ "::" ++ f
  item : ∀ {n id}, t.itemId? n = some id → ':' ∉ id.toList ∧ ∀ k : Nat, id ≠ "_anon" ++ toString k

/-- The items of a unit have different IDs, down to any depth. -/
def DistinctItems (t : Tree) : Prop :=
  ∀ fuel u, t.shape? u = some .unit →
    (((t.childrenFrom u 0 .item).flatMap (t.itemsWithin fuel)).filterMap t.itemId?).Nodup

end Tree

namespace Grammar

variable {t : Tree} {d d' d'' : Draft} {x h h' : String} {u : NodeId}

/-! ## What a draft can have made -/

/-- The symbol with a number. -/
def numbered (kind : ProductionKind) (k : Nat) : String := "_" ++ kind.stem ++ toString k

/-- A head that a draft can have made. -/
inductive Draft.Head (t : Tree) (d : Draft) : String → Prop
  | numbered (kind : ProductionKind) {k : Nat} : k ≤ d.counter → Head t d (numbered kind k)
  | unit {u : NodeId} {id : String} : (d.units.lookup u).isSome = true → t.unitId? u = some id → Head t d id

/-- A part that a draft can have made under a head. -/
def Draft.Part (t : Tree) (d : Draft) (f : String) : Prop :=
  (∃ n, t.itemId? n = some f) ∨ ∃ k : Nat, k ≤ d.counter ∧ f = "_anon" ++ toString k

/-- A symbol that a draft can have made. -/
def Draft.Allows (t : Tree) (d : Draft) (x : String) : Prop :=
  ∃ h, d.Head t h ∧ (x = h ∨ ∃ f, d.Part t f ∧ x = h ++ "::" ++ f)

/-- A draft has drawn more numbers and met more units. -/
structure Draft.Older (d d' : Draft) : Prop where
  counter : d.counter ≤ d'.counter
  units : ∀ {u}, (d.units.lookup u).isSome = true → (d'.units.lookup u).isSome = true

theorem Draft.Older.refl (d : Draft) : d.Older d := ⟨Nat.le_refl _, id⟩

theorem Draft.Older.trans (h : d.Older d') (h' : d'.Older d'') : d.Older d'' :=
  ⟨h.counter.trans h'.counter, fun hu ↦ h'.units (h.units hu)⟩

theorem Draft.older_setUnit (d : Draft) (u : NodeId) (p : Option ProductionId) :
    d.Older { d with units := (u, p) :: d.units } := by
  refine ⟨Nat.le_refl _, fun hv ↦ ?_⟩
  rw [Draft.lookup_cons]
  split
  · rfl
  · exact hv

theorem Draft.older_count (d : Draft) : d.Older { d with counter := d.counter + 1 } := ⟨Nat.le_succ _, id⟩

theorem Draft.Head.mono (hh : d.Head t h) (hd : d.Older d') : d'.Head t h := by
  cases hh with
  | numbered kind hk => exact .numbered kind (hk.trans hd.counter)
  | unit hu hid => exact .unit (hd.units hu) hid

theorem Draft.Allows.mono (hx : d.Allows t x) (hd : d.Older d') : d'.Allows t x := by
  obtain ⟨h, hh, hx⟩ := hx
  refine ⟨h, hh.mono hd, hx.imp_right ?_⟩
  rintro ⟨f, hf | ⟨k, hk, rfl⟩, rfl⟩
  · exact ⟨f, .inl hf, rfl⟩
  · exact ⟨_, .inr ⟨k, hk.trans hd.counter, rfl⟩, rfl⟩

theorem stem_isAlpha (kind : ProductionKind) : ∀ c ∈ kind.stem.toList, c.isDigit = false ∧ c ≠ ':' := by
  unfold ProductionKind.stem
  split <;> simp

theorem numbered_inj {kind kind' : ProductionKind} {k k' : Nat} (h : numbered kind k = numbered kind' k') :
    k = k' := by
  have hlast (kind : ProductionKind) : ∀ c ∈ ("_" ++ kind.stem).toList.getLast?, c.isDigit = false := by
    intro c hc
    obtain hc | hc := mem_append.1 (String.toList_append ▸ mem_of_getLast? hc)
    · rw [mem_singleton.1 hc]
      rfl
    · exact (stem_isAlpha kind c hc).1
  exact (append_toString_inj (hlast kind) (hlast kind') h).2

theorem colon_not_mem_append {a : String} (ha : ':' ∉ a.toList) (k : Nat) : ':' ∉ (a ++ toString k).toList := by
  rw [String.toList_append, mem_append, not_or]
  exact ⟨ha, fun h ↦ absurd (TypeText.isDigit_of_mem_nat h) (by decide)⟩

theorem colon_not_mem_numbered (kind : ProductionKind) (k : Nat) : ':' ∉ (numbered kind k).toList := by
  refine colon_not_mem_append ?_ k
  rw [String.toList_append, mem_append, not_or]
  exact ⟨by decide, fun h ↦ (stem_isAlpha kind _ h).2 rfl⟩

section

variable (hids : t.PlainIds)

include hids

theorem Draft.Part.colon_not_mem {f : String} (hf : d.Part t f) : ':' ∉ f.toList := by
  obtain ⟨n, hn⟩ | ⟨k, -, rfl⟩ := hf
  · exact (hids.item hn).1
  · exact colon_not_mem_append (by decide) k

theorem numbered_append_ne {id : String} (hid : t.unitId? u = some id) (kind : ProductionKind) (k : Nat)
    (f : String) : numbered kind k ++ f ≠ id := by
  rintro rfl
  refine hids.unit_head hid ?_
  rw [numbered]
  simp

theorem numbered_ne {id : String} (hid : t.unitId? u = some id) (kind : ProductionKind) (k : Nat) :
    numbered kind k ≠ id := by
  simpa using numbered_append_ne hids hid kind k ""

/-- No head is a part under another. -/
theorem Draft.Head.ne_append (hh : d.Head t h) (hh' : d'.Head t h') (f : String) : h' ≠ h ++ "::" ++ f := by
  rintro heq
  cases hh' with
  | @numbered kind k =>
    refine colon_not_mem_numbered kind k ?_
    rw [heq]
    simp
  | @unit v _ _ hv =>
    cases hh with
    | numbered => exact numbered_append_ne hids hv _ _ _ (String.append_assoc ▸ heq.symm)
    | @unit u _ _ hu =>
      by_cases huv : u = v
      · subst huv
        have hlength := congrArg String.length (heq.symm.trans (Option.some.inj (hv.symm.trans hu)))
        rw [String.length_append, String.length_append, show "::".length = 2 from rfl] at hlength
        omega
      · exact (hids.unit_apart hu hv huv).2 f heq

/-- What is under a new head is new. -/
theorem Draft.Head.not_allows (hh : d'.Head t h) (hnew : ¬d.Head t h)
    (hx : x = h ∨ ∃ f, d'.Part t f ∧ x = h ++ "::" ++ f) : ¬d.Allows t x := by
  rintro ⟨h', hh', hx'⟩
  obtain rfl | ⟨f, hf, rfl⟩ := hx
  · obtain rfl | ⟨f', -, heq⟩ := hx'
    · exact hnew hh'
    · exact hh'.ne_append hids hh f' heq
  · obtain heq | ⟨f', hf', heq⟩ := hx'
    · exact hh.ne_append hids hh' f heq.symm
    · exact hnew ((append_path_inj (hf.colon_not_mem hids) (hf'.colon_not_mem hids) heq).1 ▸ hh')

theorem not_head_numbered (kind : ProductionKind) : ¬d.Head t (numbered kind (d.counter + 1)) := by
  intro hh
  generalize hx : numbered kind (d.counter + 1) = x at hh
  cases hh with
  | numbered _ hk =>
    have := numbered_inj hx
    omega
  | unit _ hid => exact numbered_ne hids hid _ _ hx

theorem not_head_unit (hu : (d.units.lookup u).isSome = false) (hid : t.unitId? u = some h) : ¬d.Head t h := by
  intro hh
  cases hh with
  | numbered => exact numbered_ne hids hid _ _ rfl
  | unit hv hid' =>
    refine (hids.unit_apart hid hid' ?_).1 rfl
    rintro rfl
    cases hu.symm.trans hv

/-- A new number makes a new part. -/
theorem not_allows_anon (hh : d.Head t h) :
    ¬d.Allows t (h ++ "::" ++ ("_anon" ++ toString (d.counter + 1))) := by
  rintro ⟨h', hh', hx⟩
  obtain hx | ⟨f, hf, hx⟩ := hx
  · exact hh.ne_append hids hh' _ hx.symm
  · obtain ⟨-, rfl⟩ := append_path_inj (colon_not_mem_append (by decide) _) (hf.colon_not_mem hids) hx
    obtain ⟨n, hn⟩ | ⟨k, hk, heq⟩ := hf
    · exact (hids.item hn).2 _ rfl
    · have := (append_toString_inj (by simp) (by simp) heq).2
      omega

end

/-! ## What is built -/

def Draft.symbols (d : Draft) : List String := d.productions.toList.map Production.symbol

/-- The symbols that are added differ. Those that are not among some names are new. -/
structure Draft.Adds (t : Tree) (names : List String) (d d' : Draft) : Prop extends d.Older d' where
  symbols : ∃ new, d'.symbols = d.symbols ++ new ∧ new.Nodup ∧
    ∀ x ∈ new, x ∈ names ∨ d'.Allows t x ∧ ¬d.Allows t x

theorem Draft.Adds.of_symbols_eq (hd : d.Older d') (h : d'.symbols = d.symbols) : d.Adds t [] d' :=
  ⟨hd, [], by simp [h], nodup_nil, by simp⟩

theorem Draft.Adds.trans {names names' : List String} (hadds : d.Adds t names d') (hadds' : d'.Adds t names' d'')
    (hnodup : (names ++ names').Nodup) (hnames : ∀ x ∈ names ++ names', d.Allows t x) :
    d.Adds t (names ++ names') d'' := by
  obtain ⟨new, heq, hnew, hfrom⟩ := hadds.symbols
  obtain ⟨new', heq', hnew', hfrom'⟩ := hadds'.symbols
  refine ⟨hadds.toOlder.trans hadds'.toOlder, new ++ new', by rw [heq', heq, append_assoc],
    nodup_append.2 ⟨hnew, hnew', ?_⟩, fun x hx ↦ ?_⟩
  · rintro x hx _ hx' rfl
    obtain hname | ⟨hallows, hnot⟩ := hfrom x hx
    · obtain hname' | ⟨-, hnot'⟩ := hfrom' x hx'
      · exact (nodup_append.1 hnodup).2.2 x hname x hname' rfl
      · exact hnot' ((hnames x (mem_append_left _ hname)).mono hadds.toOlder)
    · obtain hname' | ⟨-, hnot'⟩ := hfrom' x hx'
      · exact hnot (hnames x (mem_append_right _ hname'))
      · exact hnot' hallows
  · obtain hx | hx := mem_append.1 hx
    · refine (hfrom x hx).imp (mem_append_left _) fun ⟨hallows, hnot⟩ ↦ ⟨hallows.mono hadds'.toOlder, hnot⟩
    · exact (hfrom' x hx).imp (mem_append_right _) fun ⟨hallows, hnot⟩ ↦
        ⟨hallows, fun hx ↦ hnot (hx.mono hadds.toOlder)⟩

/-- Names that could not be made before are new. -/
theorem Draft.Adds.of_new {names : List String} (hadds : d'.Adds t names d'') (hd : d.Older d')
    (hsymbols : d'.symbols = d.symbols) (hnames : ∀ x ∈ names, d'.Allows t x ∧ ¬d.Allows t x) :
    d.Adds t [] d'' := by
  obtain ⟨new, heq, hnew, hfrom⟩ := hadds.symbols
  refine ⟨hd.trans hadds.toOlder, new, by rw [heq, hsymbols], hnew, fun x hx ↦ .inr ?_⟩
  obtain hname | ⟨hallows, hnot⟩ := hfrom x hx
  · exact ⟨(hnames x hname).1.mono hadds.toOlder, (hnames x hname).2⟩
  · exact ⟨hallows, fun hx ↦ hnot (hx.mono hd)⟩

section

variable {α β : Type} {unit : String} {names names' : List String} {m : Construct α} {k : α → Construct β}

/-- In a unit, some names are given to productions, each once at most, and all other symbols are new. -/
def Names (t : Tree) (unit : String) (names : List String) (m : Construct α) : Prop :=
  ∀ d : Draft, names.Nodup → (∀ x ∈ names, d.Allows t x) → d.Head t unit →
    Ensures m d fun _ d' ↦ d.Adds t names d'

theorem Names.mono (hm : Names t unit names m) (hsub : names <+ names') : Names t unit names' m := by
  intro d hnodup hnames hunit
  refine (hm d (hsub.nodup hnodup) (fun x hx ↦ hnames x (hsub.subset hx)) hunit).mono fun _ d' h ↦ ?_
  obtain ⟨new, heq, hnew, hfrom⟩ := h.symbols
  exact ⟨h.toOlder, new, heq, hnew, fun x hx ↦ (hfrom x hx).imp_left fun hname ↦ hsub.subset hname⟩

theorem Names.bind (hm : Names t unit names m) (hk : ∀ a, Names t unit names' (k a)) :
    Names t unit (names ++ names') (m >>= k) := by
  intro d hnodup hnames hunit
  obtain ⟨hleft, hright, -⟩ := nodup_append.1 hnodup
  refine (hm d hleft (fun x hx ↦ hnames x (mem_append_left _ hx)) hunit).bind fun a d' hadds ↦ ?_
  exact (hk a d' hright (fun x hx ↦ (hnames x (mem_append_right _ hx)).mono hadds.toOlder)
    (hunit.mono hadds.toOlder)).mono fun _ d'' hadds' ↦ hadds.trans hadds' hnodup hnames

theorem names_pure (a : α) : Names t unit [] (pure a) :=
  fun d _ _ _ ↦ ensures_pure (.of_symbols_eq (.refl d) rfl)

theorem names_throw (f : Fault) : Names t unit names (throw f : Construct α) := fun _ _ _ _ ↦ ensures_throw f

theorem names_lift (x : Except Fault α) : Names t unit [] (liftM x : Construct α) := by
  cases x with
  | error f => exact names_throw f
  | ok a => exact names_pure a

theorem Names.map {f : α → β} (hm : Names t unit names m) : Names t unit names (f <$> m) :=
  fun d hnodup hnames hunit ↦ Ensures.map (hm d hnodup hnames hunit)

theorem names_mapM {ι : Type} {f : ι → Construct α} {names : ι → List String} {l : List ι}
    (hf : ∀ i ∈ l, Names t unit (names i) (f i)) : Names t unit (l.flatMap names) (l.mapM f) := by
  induction l with
  | nil => exact names_pure []
  | cons i l ih =>
    obtain ⟨hi, hl⟩ := forall_mem_cons.1 hf
    rw [mapM_cons, flatMap_cons]
    exact hi.bind fun a ↦ (append_nil _ ▸ (ih hl).bind fun as ↦ names_pure (a :: as) :)

open Construct

theorem names_add (hids : t.PlainIds) (symbol : Option String) (kind : ProductionKind) (origin : Origin) :
    Names t unit symbol.toList (add symbol kind origin) := by
  intro d _ hnames _ p d' hrun
  cases symbol with
  | some x =>
    cases hrun
    exact ⟨⟨Nat.le_refl _, id⟩, [x], by simp [Draft.symbols], nodup_singleton x,
      fun y hy ↦ .inl (by simpa using hy)⟩
  | none =>
    cases hrun
    refine ⟨⟨Nat.le_succ _, id⟩, [numbered kind (d.counter + 1)], by simp [Draft.symbols, numbered],
      nodup_singleton _, fun x hx ↦ .inr ?_⟩
    obtain rfl := mem_singleton.1 hx
    have hhead : Draft.Head t { d with counter := d.counter + 1 } (numbered kind (d.counter + 1)) :=
      .numbered kind (Nat.le_refl _)
    exact ⟨⟨_, hhead.mono ⟨Nat.le_refl _, id⟩, .inl rfl⟩,
      hhead.not_allows hids (not_head_numbered hids kind) (.inl rfl)⟩

theorem Names.then (hm : Names t unit [] m) (hk : ∀ a, Names t unit names (k a)) :
    Names t unit names (m >>= k) := hm.bind hk

theorem Names.finish (hm : Names t unit names m) (hk : ∀ a, Names t unit [] (k a)) :
    Names t unit names (m >>= k) := append_nil names ▸ hm.bind hk

theorem names_modify {f : Draft → Draft} (hf : ∀ d : Draft, d.Older (f d) ∧ (f d).symbols = d.symbols) :
    Names t unit [] (modify f : Construct Unit) := by
  intro d _ _ _ _ d' hrun
  cases hrun
  exact .of_symbols_eq (hf d).1 (hf d).2

theorem names_setKind (p : ProductionId) (kind : ProductionKind) : Names t unit [] (setKind p kind) :=
  names_modify fun d ↦ ⟨⟨Nat.le_refl _, id⟩, by
    simp only [Draft.symbols, ← Array.toList_map]
    congr 1
    refine Array.ext_getElem? fun i ↦ ?_
    rw [Array.getElem?_map, Array.getElem?_map, Array.getElem?_modify]
    split
    · rw [Option.map_map]
      rfl
    · rfl⟩

theorem names_setUnit (u : NodeId) (p : Option ProductionId) : Names t unit [] (setUnit u p) :=
  names_modify fun d ↦ ⟨d.older_setUnit u p, rfl⟩

end

section

variable {r : Producer} {fuel : Nat} {n : NodeId} {symbol : Option String} {origin : Origin} {unit : String}

/-- The names that a unit can give to the fields within an item. -/
def fieldNames (t : Tree) (fuel : Nat) (unit : String) (n : NodeId) : List String :=
  ((t.itemsWithin fuel n).filterMap t.itemId?).map (unit ++ "::" ++ ·)

theorem flatMap_fieldNames (is : List NodeId) : is.flatMap (fieldNames t fuel unit) =
    ((is.flatMap (t.itemsWithin fuel)).filterMap t.itemId?).map (unit ++ "::" ++ ·) := by
  rw [filterMap_flatMap, map_flatMap]
  rfl

/-- What is built for a type gets the symbol that is given, and what is built for an item gets the names
of its fields. -/
structure Producer.Naming (t : Tree) (fuel : Nat) (r : Producer) : Prop where
  type : ∀ unit type attributes symbol origin, Names t unit symbol.toList (r.type type attributes symbol origin)
  item : ∀ unit n, Names t unit (fieldNames t fuel unit n) (r.item unit n)

open Construct

theorem Producer.Naming.switchCases (hr : r.Naming t fuel) (is : List NodeId) :
    Names t unit (is.flatMap (fieldNames t fuel unit)) (switchCases t r unit is) := by
  induction is with
  | nil => exact names_pure _
  | cons i is ih =>
    unfold Grammar.switchCases
    refine (hr.item unit i).bind fun p ↦ ?_
    split
    · exact ih
    split
    · exact ih.finish fun _ ↦ names_pure _
    · refine Names.then ((names_mapM fun e _ ↦ names_lift (t.short e)).mono ?_) fun _ ↦
        ih.finish fun _ ↦ names_pure _
      simp

variable (hids : t.PlainIds) (hr : r.Naming t fuel)

include hids

theorem names_openList (body : ProductionId) : Names t unit symbol.toList (openList body symbol origin) :=
  (names_add hids none _ _).then fun _ ↦ (names_add hids symbol _ _).finish fun _ ↦
    (names_add hids none _ _).then fun _ ↦ (names_add hids none _ _).then fun _ ↦
      (names_setKind _ _).then fun _ ↦ names_pure _

theorem names_chooseAhead (last : ProductionId) (before : List ProductionId) :
    Names t unit [] (chooseAhead origin last before) := by
  induction before generalizing last with
  | nil => exact names_pure last
  | cons p before ih => exact (names_add hids none _ _).then ih

theorem names_placeholder (u : NodeId) (location : Option Location) :
    Names t unit [] (placeholder u location) :=
  (names_add hids none _ _).then fun p ↦
    Names.then (names_modify fun _ ↦ ⟨⟨Nat.le_refl _, id⟩, rfl⟩) fun _ ↦ names_pure p

/-- A field without an ID gets a name that is new. -/
theorem names_fieldSymbol_bind {α : Type} {k : String → Construct α} (id : Option String)
    (hk : ∀ symbol, Names t unit [symbol] (k symbol)) :
    Names t unit (id.toList.map (unit ++ "::" ++ ·)) (fieldSymbol unit id >>= k) := by
  cases id with
  | some id => exact hk (unit ++ "::" ++ id)
  | none =>
    intro d _ _ hunit
    refine Ensures.bind (q := fun symbol d' ↦ symbol = unit ++ "::" ++ ("_anon" ++ toString (d.counter + 1)) ∧
      d' = { d with counter := d.counter + 1 }) ?_ ?_
    · intro _ _ hrun
      cases hrun
      exact ⟨by simp only [String.append_assoc]; rfl, rfl⟩
    · rintro _ _ ⟨rfl, rfl⟩
      have hunit' := hunit.mono d.older_count
      have hallows : ({ d with counter := d.counter + 1 } : Draft).Allows t
          (unit ++ "::" ++ ("_anon" ++ toString (d.counter + 1))) :=
        ⟨unit, hunit', .inr ⟨_, .inr ⟨_, Nat.le_refl _, rfl⟩, rfl⟩⟩
      refine (hk _ _ (nodup_singleton _) (by simpa using hallows) hunit').mono
        fun _ _ hadds ↦ hadds.of_new d.older_count rfl ?_
      simpa using ⟨hallows, not_allows_anon hids hunit⟩

/-- The unit and its fields get names under a head that is new. -/
theorem Producer.Naming.unitFields (hnodup : t.DistinctItems) (hu : t.shape? u = some .unit)
    {m : Construct ProductionId}
    (hm : Names t h ([h] ++ (t.childrenFrom u 0 .item).flatMap (fieldNames t fuel h)) m) (hd : d.Older d')
    (hsymbols : d'.symbols = d.symbols) (hh : d'.Head t h) (hnot : ¬d.Head t h) :
    Ensures m d' fun _ d'' ↦ d.Adds t [] d'' := by
  have hunder : ∀ x ∈ [h] ++ (t.childrenFrom u 0 .item).flatMap (fieldNames t fuel h),
      x = h ∨ ∃ f, d'.Part t f ∧ x = h ++ "::" ++ f := by
    intro x hx
    obtain hx | hx := mem_append.1 hx
    · exact .inl (mem_singleton.1 hx)
    · obtain ⟨i, -, hx⟩ := mem_flatMap.1 hx
      obtain ⟨f, hf, rfl⟩ := mem_map.1 hx
      obtain ⟨n, -, hn⟩ := mem_filterMap.1 hf
      exact .inr ⟨f, .inl ⟨n, hn⟩, rfl⟩
  refine (hm d' ?_ (fun x hx ↦ ⟨h, hh, hunder x hx⟩) hh).mono fun _ d'' hadds ↦
    hadds.of_new hd hsymbols fun x hx ↦ ⟨⟨h, hh, hunder x hx⟩, hh.not_allows hids hnot (hunder x hx)⟩
  rw [flatMap_fieldNames]
  refine nodup_append.2 ⟨nodup_singleton h, (hnodup fuel u hu).map fun f f' heq ↦ by simpa using heq, ?_⟩
  rintro _ hx _ hx' rfl
  obtain ⟨f, -, hf⟩ := mem_map.1 hx'
  exact hh.ne_append hids hh f ((mem_singleton.1 hx).symm.trans hf.symm)

include hr

theorem Producer.Naming.unitProduction (hnodup : t.DistinctItems) (hu : t.shape? u = some .unit) (d : Draft) :
    Ensures (unitProduction t r u) d fun _ d' ↦ d.Adds t [] d' := by
  unfold Grammar.unitProduction
  refine ensures_get_bind ?_
  split
  · exact names_placeholder hids u _ d nodup_nil (by simp) (.numbered (.skip "") (k := 0) (Nat.zero_le _))
  next hnew =>
    refine Ensures.bind (q := fun _ d₁ ↦ d₁ = { d with units := (u, none) :: d.units }) ?_ ?_
    · intro _ _ hrun
      cases hrun
      rfl
    rintro _ d₁ rfl
    have hold := d.older_setUnit u none
    extract_lets parameters rest
    have hrest (h : String) :
        Names t h ([h] ++ (t.childrenFrom u 0 .item).flatMap (fieldNames t fuel h)) (rest h) :=
      (names_add hids (some h) _ _).bind fun p ↦ Names.finish (names_mapM fun i _ ↦ hr.item h i) fun _ ↦
        (names_setKind p _).then fun _ ↦ (names_setUnit u (some p)).then fun _ ↦ names_pure p
    have hunit : (t.typeData? u).bind TypeData.typeId = t.unitId? u := (if_pos hu).symm
    rw [hunit]
    cases hid : t.unitId? u with
    | some id =>
      exact unitFields hids hnodup hu (hrest id) hold rfl (.unit (u := u) (by simp) hid)
        (not_head_unit hids (eq_false_of_ne_true hnew) hid)
    | none =>
      refine Ensures.bind (q := fun k d₂ ↦ k = d.counter + 1 ∧
        d₂ = { d with units := (u, none) :: d.units, counter := d.counter + 1 }) ?_ ?_
      · intro _ _ hrun
        cases hrun
        exact ⟨rfl, rfl⟩
      · rintro _ _ ⟨rfl, rfl⟩
        exact unitFields hids hnodup hu (hrest _) (hold.trans (Draft.older_count _)) rfl
          (.numbered (.unit "" [] []) (Nat.le_refl _)) (not_head_numbered hids (.unit "" [] []))

theorem Producer.Naming.listProduction (list : NodeId) (attributes : Option NodeId) :
    Names t unit symbol.toList (listProduction t r list attributes symbol origin) := by
  unfold Grammar.listProduction
  extract_lets close
  have hclose (body : ProductionId) : Names t unit symbol.toList (close body) := by
    refine (names_lift _).then fun count ↦ ?_
    split
    · exact names_add hids symbol _ _
    refine (names_lift _).then fun condition ↦ ?_
    split
    · exact names_add hids symbol _ _
    refine (names_lift _).then fun condition ↦ ?_
    split
    · exact names_add hids symbol _ _
    split
    · exact names_add hids symbol _ _
    · exact names_openList hids body
  split
  · exact (hr.type _ _ _ none _).then hclose
  · exact (names_add hids none _ _).then hclose

theorem Producer.Naming.optionalProduction (element : Option NodeId) :
    Names t unit symbol.toList (optionalProduction r element symbol origin) := by
  unfold Grammar.optionalProduction
  extract_lets close
  have hclose (body : ProductionId) : Names t unit symbol.toList (close body) :=
    (names_add hids none _ _).then fun _ ↦ names_add hids symbol _ _
  split
  · exact (hr.type _ _ _ none _).then hclose
  · exact (names_add hids none _ _).then hclose

theorem Producer.Naming.typeProduction (hnodup : t.DistinctItems) (type : NodeId) (attributes : Option NodeId) :
    Names t unit symbol.toList (typeProduction t r type attributes symbol origin) := by
  unfold Grammar.typeProduction
  split
  · exact (names_lift _).then fun _ ↦ names_add hids symbol _ _
  next u _ =>
    split
    next hu =>
      exact Names.then (fun d _ _ _ ↦ hr.unitProduction hids hnodup hu d) fun _ ↦ names_add hids symbol _ _
    · exact hr.listProduction hids _ _
    · exact hr.optionalProduction hids _
    · exact (names_lift _).then fun _ ↦ names_add hids symbol _ _
    · exact names_add hids symbol _ _
    · exact (names_lift _).then fun _ ↦ names_add hids symbol _ _

theorem Producer.Naming.fieldValue (skip : Bool) (symbol : Option String) :
    Names t unit symbol.toList (fieldValue t r n skip symbol origin) := by
  unfold Grammar.fieldValue
  split
  · exact (names_lift _).then fun _ ↦ names_add hids symbol _ _
  · exact (names_lift _).then fun _ ↦ names_add hids symbol _ _
  · exact hr.type _ _ _ symbol _
  · exact names_add hids symbol _ _

theorem Producer.Naming.fieldProduction (id : Option String) (skip : Bool) :
    Names t unit (id.toList.map (unit ++ "::" ++ ·)) (fieldProduction t r unit n id skip) := by
  unfold Grammar.fieldProduction
  refine names_fieldSymbol_bind hids id fun symbol ↦ ?_
  extract_lets origin
  refine (names_lift _).then fun size ↦ ?_
  extract_lets size
  refine Names.then (?_ : Names t unit [] _) fun condition ↦ ?_
  · cases t.child n 2 with
    | none => exact names_pure none
    | some c => exact Names.map (f := some) (names_lift (t.short c))
  -- the outermost production has the name
  cases size with
  | none =>
    cases condition with
    | none => exact (hr.fieldValue hids skip (some symbol)).finish names_pure
    | some predicate =>
      exact (hr.fieldValue hids skip none).then fun p ↦ (names_add hids none _ _).then fun _ ↦
        names_add hids (some symbol) _ _
  | some size =>
    cases condition with
    | none =>
      exact (hr.fieldValue hids skip none).then fun p ↦ (names_add hids (some symbol) _ _).finish names_pure
    | some predicate =>
      exact (hr.fieldValue hids skip none).then fun p ↦ (names_add hids none _ _).then fun _ ↦
        (names_add hids none _ _).then fun _ ↦ names_add hids (some symbol) _ _

theorem Producer.Naming.switchProduction :
    Names t unit ((t.childrenFrom n 1 .item).flatMap (fieldNames t fuel unit))
      (switchProduction t r unit n) := by
  refine (hr.switchCases _).finish fun cases ↦ ?_
  dsimp only
  split
  · exact (names_lift _).then fun _ ↦ names_add hids none _ _
  · split
    · exact names_add hids none _ _
    · exact names_chooseAhead hids _ _

theorem Producer.Naming.itemProduction :
    Names t unit (fieldNames t (fuel + 1) unit n) (itemProduction t r unit n) := by
  unfold Grammar.itemProduction
  split
  next id skip hn =>
    have hnames : fieldNames t (fuel + 1) unit n = id.toList.map (unit ++ "::" ++ ·) := by
      cases id <;> simp [fieldNames, Tree.itemsWithin, Tree.itemId?, hn, UnitItem.id?]
    rw [hnames]
    exact (hr.fieldProduction hids id skip).map
  next hn =>
    have hnames : fieldNames t (fuel + 1) unit n =
        (t.childrenFrom n 1 .item).flatMap (fieldNames t fuel unit) := by
      rw [flatMap_fieldNames, fieldNames, Tree.itemsWithin, hn]
    rw [hnames]
    exact (hr.switchProduction hids).map
  next hn =>
    split
    next inner hinner =>
      have hnames : fieldNames t (fuel + 1) unit n = fieldNames t fuel unit inner := by
        simp [fieldNames, Tree.itemsWithin, hn, hinner]
      rw [hnames]
      exact hr.item unit inner
    · exact (names_pure none).mono (nil_sublist _)
  all_goals exact (names_pure none).mono (nil_sublist _)

end

theorem naming_producer (hids : t.PlainIds) (hnodup : t.DistinctItems) (fuel : Nat) :
    (producer t fuel).Naming t fuel := by
  induction fuel with
  | zero => exact ⟨fun _ _ _ _ _ ↦ names_throw _, fun _ _ ↦ names_throw _⟩
  | succ fuel ih =>
    exact ⟨fun _ type attributes _ _ ↦ ih.typeProduction hids hnodup type attributes,
      fun _ _ ↦ ih.itemProduction hids⟩

end Grammar

/-! ## Built grammars -/

namespace Tree

variable {t : Tree}

theorem itemsWithin_sublist {fuel fuel' : Nat} (h : fuel ≤ fuel') (n : NodeId) :
    t.itemsWithin fuel n <+ t.itemsWithin fuel' n := by
  induction fuel generalizing fuel' n with
  | zero => exact nil_sublist _
  | succ fuel ih =>
    obtain ⟨fuel', rfl⟩ : ∃ k, fuel' = k + 1 := ⟨fuel' - 1, by omega⟩
    unfold itemsWithin
    split
    · exact Sublist.flatMap_right _ fun i _ ↦ ih (Nat.le_of_succ_le_succ h) i
    · exact Sublist.flatMap_right _ fun i _ ↦ ih (Nat.le_of_succ_le_succ h) i
    · exact Sublist.refl _
    · exact Sublist.refl _

theorem distinctItems (ht : t.Rooted)
    (h : ∀ u, t.shape? u = some .unit → Units.Validation.unitPreErrors t u = []) : t.DistinctItems := by
  intro fuel u hu
  have hitems : ((t.unitItems u).filterMap t.itemId?).Nodup := by
    have hnone := (Validation.repeatedIds_eq_nil_iff.1 (append_eq_nil_iff.1 (h u hu)).1).1
    rw [map_filterMap] at hnone
    simpa [Function.comp_def] using hnone
  refine Sublist.nodup (Sublist.filterMap _ (Sublist.flatMap_right _ fun i hi ↦ ?_)) hitems
  -- a unit bounds its items by a depth that is never met
  rw [← (Padded.refl ht).itemsWithin_eq (ht.has_of_mem_childrenFrom hi) (Nat.le_max_right fuel t.size)
    (Nat.le_succ _)]
  exact itemsWithin_sublist (Nat.le_max_left ..) i

end Tree

namespace Grammar

variable {t : Tree} {declaration : NodeId} {g : Grammar} {lines : List String} {p q : ProductionId}

theorem Draft.symbol_inj {d : Draft} (h : d.symbols.Nodup) {i j : Nat} {p q : Production}
    (hp : d.productions[i]? = some p) (hq : d.productions[j]? = some q) (hsymbol : p.symbol = q.symbol) :
    i = j := by
  have hget {k : Nat} {r : Production} (hr : d.productions[k]? = some r) : d.symbols[k]? = some r.symbol := by
    rw [symbols, List.getElem?_map, Array.getElem?_toList, hr]
    rfl
  have hi := (List.getElem?_eq_some_iff.1 (hget hp)).1
  exact (List.getElem?_inj hi h).1 ((hget hp).trans (hsymbol ▸ (hget hq).symm))

/-- Two productions of the grammar of a unit have different symbols, unless one of them stands for a unit
that is met again, as long as no two items of a unit have one ID and no ID reads like another symbol. -/
theorem symbol_injective (ht : t.Rooted) (hids : t.PlainIds)
    (hpre : ∀ u, t.shape? u = some .unit → Units.Validation.unitPreErrors t u = [])
    (h : ofDeclaration? t declaration = .ok (some (g, lines))) (hp : p ∈ g.ids) (hq : q ∈ g.ids)
    (hp' : ∀ target, g.kind p ≠ .placeholder target) (hq' : ∀ target, g.kind q ≠ .placeholder target)
    (hsymbol : g.symbol p = g.symbol q) : p = q := by
  obtain ⟨unit, -, hunit, g₀, root, d, ledger, hg, hg₀, -, -, hd, -, -, htold, -, fuel, hrun⟩ :=
    told_of_declaration h
  obtain ⟨-, hproductions, -⟩ := analyzed_analyze hg₀
  rw [← hg] at hproductions
  have htold := htold.congr hproductions
  have hdistinct := Tree.distinctItems ht hpre
  have hadds := (naming_producer hids hdistinct fuel).unitProduction hids hdistinct hunit {} _ _ hrun
  obtain ⟨new, hnew, hnodup, -⟩ := hadds.symbols
  -- only placeholders differ from the draft
  have hsame {p : ProductionId} (hp : p ∈ g.ids) (hp' : ∀ target, g.kind p ≠ .placeholder target) :
      d.productions[p.index]? = some (g.production p) := by
    have hsome : g.productions[p.index]? = some (g.production p) := by
      rw [production, Array.getElem?_eq_getElem (mem_ids.1 hp)]
      rfl
    refine (htold.other fun hmem ↦ ?_).symm.trans hsome
    obtain ⟨u, target, hu, htarget⟩ := hd.exists_target hmem
    rw [htold.told hu htarget] at hsome
    obtain ⟨production, -, heq⟩ := Option.map_eq_some_iff.1 hsome
    refine hp' (some target) ?_
    rw [kind, ← heq]
    rfl
  have hindex := Draft.symbol_inj (by rw [hnew]; exact hnodup) (hsame hp hp') (hsame hq hq') hsymbol
  cases p; cases q; cases hindex; rfl

/-- A unit of a field with an ID and a field without one. -/
def pairUnit (id : String) : Tree := .ofRows [
  (.root, [1]),
  (.declares "U" .type .external, [2]),
  (.value .const, [3]),
  (.type { shape := .unit, typeId := some "m::U" }, [4, 6]),
  (.item (.field (some id) false), [5]),
  (.shaped (.unsigned 8), []),
  (.item (.field none false), [7]),
  (.shaped (.unsigned 16), [])]

theorem plainIds_pairUnit : (pairUnit "x").PlainIds := by
  have hunit {u : NodeId} {id : String} (h : (pairUnit "x").unitId? u = some id) : u = ⟨3⟩ ∧ id = "m::U" := by
    have hu : (pairUnit "x").Has u := Tree.has_of_kind fun hkind ↦ by
      rw [Tree.unitId?, Tree.shape?, Tree.typeData?, hkind] at h
      cases h
    have hall : ∀ k < 8, (pairUnit "x").unitId? ⟨k⟩ = if k = 3 then some "m::U" else none := by decide +kernel
    obtain ⟨k⟩ := u
    rw [hall k hu] at h
    split at h
    next hk => exact ⟨by rw [hk], (Option.some.inj h).symm⟩
    · cases h
  have hitem {n : NodeId} {id : String} (h : (pairUnit "x").itemId? n = some id) : id = "x" := by
    have hn : (pairUnit "x").Has n := Tree.has_of_kind fun hkind ↦ by
      rw [Tree.itemId?, hkind] at h
      cases h
    have hall : ∀ k < 8, (pairUnit "x").itemId? ⟨k⟩ = none ∨ (pairUnit "x").itemId? ⟨k⟩ = some "x" := by
      decide +kernel
    obtain hnone | hx := hall n.index hn
    · cases h.symm.trans hnone
    · exact Option.some.inj (h.symm.trans hx)
  refine ⟨fun h ↦ ?_, fun hu hv hne ↦ absurd ((hunit hu).1.trans (hunit hv).1.symm) hne, fun h ↦ ?_⟩
  · rw [(hunit h).2]
    decide
  · rw [hitem h]
    refine ⟨by decide, fun k heq ↦ ?_⟩
    have hhead := congrArg (·.toList.head?) heq
    simp at hhead

/-- The symbols of the two fields differ. -/
theorem symbol_injective_pairUnit : ∃ g lines, ofDeclaration? (pairUnit "x") ⟨1⟩ = .ok (some (g, lines)) ∧
    g.kind ⟨1⟩ = .value "uint<8>" ∧ g.kind ⟨2⟩ = .value "uint<16>" ∧ g.symbol ⟨1⟩ ≠ g.symbol ⟨2⟩ := by
  obtain ⟨g, lines, hrun, heval⟩ := exists_of_eval (pairUnit "x") ⟨1⟩
    (f := fun g ↦ (g.size, g.kind ⟨1⟩, g.kind ⟨2⟩)) (a := (3, .value "uint<8>", .value "uint<16>"))
    (by decide +kernel)
  simp only [Prod.mk.injEq] at heval
  obtain ⟨hsize, hfirst, hsecond⟩ := heval
  have hpre : ∀ u, (pairUnit "x").shape? u = some .unit → Units.Validation.unitPreErrors (pairUnit "x") u = [] := by
    intro u hu
    have hhas : (pairUnit "x").Has u := Tree.has_of_kind fun hkind ↦ by
      rw [Tree.shape?, Tree.typeData?, hkind] at hu
      cases hu
    exact (by decide +kernel : ∀ k < 8, (pairUnit "x").shape? ⟨k⟩ = some .unit →
      Units.Validation.unitPreErrors (pairUnit "x") ⟨k⟩ = []) u.index hhas hu
  refine ⟨g, lines, hrun, hfirst, hsecond, fun hsymbol ↦ ?_⟩
  cases symbol_injective (by decide +kernel) plainIds_pairUnit hpre hrun (mem_ids.2 (by rw [hsize]; decide))
    (mem_ids.2 (by rw [hsize]; decide)) (by simp [hfirst]) (by simp [hsecond]) hsymbol

/-- If the ID is that of the number which the other field draws, both fields have one symbol, though the
unit passes the checks and no type ID is there twice. -/
theorem symbol_eq_of_namesake : ∃ g lines,
    Units.Validation.validatePre (pairUnit "_anon1") Tree.root = pairUnit "_anon1" ∧
      Validation.validatePre (pairUnit "_anon1") Tree.root = pairUnit "_anon1" ∧
      ((range 8).filterMap fun k ↦ ((pairUnit "_anon1").typeData? ⟨k⟩).bind TypeData.typeId).Nodup ∧
      ofDeclaration? (pairUnit "_anon1") ⟨1⟩ = .ok (some (g, lines)) ∧
      g.kind ⟨1⟩ = .value "uint<8>" ∧ g.kind ⟨2⟩ = .value "uint<16>" ∧
      g.symbol ⟨1⟩ = "m::U::_anon1" ∧ g.symbol ⟨2⟩ = "m::U::_anon1" := by
  obtain ⟨g, lines, hrun, heval⟩ := exists_of_eval (pairUnit "_anon1") ⟨1⟩
    (f := fun g ↦ (g.kind ⟨1⟩, g.kind ⟨2⟩, g.symbol ⟨1⟩, g.symbol ⟨2⟩))
    (a := (.value "uint<8>", .value "uint<16>", "m::U::_anon1", "m::U::_anon1")) (by decide +kernel)
  exact ⟨g, lines, rfl, rfl, by decide +kernel, hrun, by simpa using heval⟩

end Grammar

end ProtocolIR
