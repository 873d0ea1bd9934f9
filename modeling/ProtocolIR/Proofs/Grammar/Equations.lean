import ProtocolIR.Proofs.Grammar.Derivation
import ProtocolIR.Proofs.Grammar.TokenSets
import ProtocolIR.Proofs.Saturation

/-!
# The equations of nullability and FIRST

A production is nullable if it expands to nullable productions only, and a token begins it if the
production takes that token or expands to productions of which, after nullable ones, one begins
with it. The evaluation of a production from what is recorded of its parts says the same.

Nothing is recorded for a production that only points at another one; its properties are those of
the end of the chain of references. Chains that do not end derive nothing.
-/

namespace ProtocolIR.Grammar

open List

variable {g : Grammar} {p q : ProductionId} {ps qs : List ProductionId} {kind : ProductionKind}
  {token : Token} {v : Bool × TokenSet} {nullable' : ProductionId → Prop} {mayStop : Bool}

/-! ## Chains of references -/

/-- The end of a chain of references, if it is reached within so many steps. -/
def endWithin (g : Grammar) (fuel : Nat) (p : ProductionId) : Option ProductionId :=
  if (g.kind (g.resolveWithin fuel p)).reference? = none then some (g.resolveWithin fuel p) else none

theorem resolveWithin_of_final (h : (g.kind p).reference? = none) (fuel : Nat) :
    g.resolveWithin fuel p = p := by
  cases fuel with
  | zero => rfl
  | succ fuel => rw [resolveWithin, h]

theorem resolveWithin_of_reference (h : (g.kind p).reference? = some q) (fuel : Nat) :
    g.resolveWithin (fuel + 1) p = g.resolveWithin fuel q := by
  rw [resolveWithin, h]

theorem resolve_of_final (h : (g.kind p).reference? = none) : g.resolve p = p :=
  resolveWithin_of_final h _

theorem endWithin_of_final (h : (g.kind p).reference? = none) (fuel : Nat) :
    g.endWithin fuel p = some p := by
  rw [endWithin, resolveWithin_of_final h, if_pos h]

theorem endWithin_of_reference (h : (g.kind p).reference? = some q) (fuel : Nat) :
    g.endWithin (fuel + 1) p = g.endWithin fuel q := by
  rw [endWithin, resolveWithin_of_reference h, endWithin]

theorem endWithin_keeps {r : ProductionId} {fuel : Nat} (h : g.endWithin fuel p = some r) :
    g.endWithin (fuel + 1) p = some r := by
  induction fuel generalizing p with
  | zero =>
    cases hp : (g.kind p).reference? with
    | none => rwa [endWithin_of_final hp] at h ⊢
    | some q => simp [endWithin, resolveWithin, hp] at h
  | succ fuel ih =>
    cases hp : (g.kind p).reference? with
    | none => rwa [endWithin_of_final hp] at h ⊢
    | some q =>
      rw [endWithin_of_reference hp] at h ⊢
      exact ih h

theorem mem_children_of_reference? (h : kind.reference? = some q) : q ∈ kind.children := by
  cases kind <;> simp_all [ProductionKind.reference?, ProductionKind.children]

theorem resolveWithin_mem_ids (hg : g.WellFormed) (hp : p ∈ g.ids) (fuel : Nat) :
    g.resolveWithin fuel p ∈ g.ids := by
  induction fuel generalizing p with
  | zero => exact hp
  | succ fuel ih =>
    cases h : (g.kind p).reference? with
    | none => rwa [resolveWithin_of_final h]
    | some q =>
      rw [resolveWithin_of_reference h]
      exact ih (hg p q (mem_children_of_reference? h))

theorem resolve_mem_ids (hg : g.WellFormed) (hp : p ∈ g.ids) : g.resolve p ∈ g.ids :=
  resolveWithin_mem_ids hg hp _

/-- A chain of references that ends does so within as many steps as there are productions. -/
theorem endWithin_succ_size (hg : g.WellFormed) (hp : p ∈ g.ids) :
    g.endWithin (g.size + 1) p = g.endWithin g.size p := by
  have hfollows : Saturation.Follows g.ids.toFinset g.endWithin := by
    intro bound hquiet p hp
    cases h : (g.kind p).reference? with
    | none => rw [endWithin_of_final h, endWithin_of_final h]
    | some q =>
      rw [endWithin_of_reference h, endWithin_of_reference h]
      exact hquiet q (mem_toFinset.2 (hg p q (mem_children_of_reference? h)))
  refine Saturation.answer_eq (fun _ _ _ _ ↦ endWithin_keeps) hfollows ?_ (Nat.le_succ _)
    (mem_toFinset.2 hp)
  calc g.ids.toFinset.card ≤ g.ids.length := toFinset_card_le _
    _ = g.size := by simp [ids]

/-- The chain of references from a production comes to an end. -/
def Ends (g : Grammar) (p : ProductionId) : Prop := (g.kind (g.resolve p)).reference? = none

theorem ends_of_final (h : (g.kind p).reference? = none) : g.Ends p := by
  rwa [Ends, resolve_of_final h]

theorem ends_iff : g.Ends p ↔ g.endWithin g.size p = some (g.resolve p) := by
  simp [Ends, endWithin, resolve]

theorem ends_reference_iff (hg : g.WellFormed) (hp : p ∈ g.ids)
    (h : (g.kind p).reference? = some q) : g.Ends p ↔ g.Ends q := by
  have hend : g.endWithin g.size p = g.endWithin g.size q := by
    rw [← endWithin_succ_size hg hp, endWithin_of_reference h]
  have hends : ∀ r, g.Ends r ↔ (g.endWithin g.size r).isSome := by
    intro r
    unfold Ends endWithin resolve
    split <;> simp_all
  rw [hends, hends, hend]

theorem resolve_reference (hg : g.WellFormed) (hp : p ∈ g.ids)
    (h : (g.kind p).reference? = some q) (hends : g.Ends p) : g.resolve p = g.resolve q := by
  have hq := ends_iff.1 ((ends_reference_iff hg hp h).1 hends)
  rw [← endWithin_of_reference h, endWithin_succ_size hg hp, ends_iff.1 hends] at hq
  exact Option.some.inj hq

/-! ## The equations -/

section

variable (nullable : ProductionId → Prop) (first : ProductionId → Token → Prop)

/-- Whether a production of a kind can match nothing, given which productions are nullable. -/
def Vanishes (kind : ProductionKind) : Prop := ∃ ps, kind.Expands ps ∧ ∀ p ∈ ps, nullable p

/-- Whether a token begins productions one after another. -/
def BeginsSequence (ps : List ProductionId) (token : Token) : Prop :=
  ∃ before p after, ps = before ++ p :: after ∧ (∀ q ∈ before, nullable q) ∧ first p token

/-- Whether a token begins a production of a kind, given which tokens begin its parts. -/
def Begins (kind : ProductionKind) (token : Token) : Prop :=
  token? kind = some token ∨ ∃ ps, kind.Expands ps ∧ BeginsSequence nullable first ps token

/-- What the equations come to for a production of a kind. -/
def Behaves (kind : ProductionKind) (isNullable : Prop) (isFirst : Token → Prop) : Prop :=
  (Vanishes nullable kind ↔ isNullable) ∧ ∀ token, Begins nullable first kind token ↔ isFirst token

/-- The assignments that have whatever the equations ask for. -/
structure Closed (g : Grammar) : Prop where
  of_vanishes : ∀ p ∈ g.ids, Vanishes nullable (g.kind p) → nullable p
  of_begins : ∀ p ∈ g.ids, ∀ token, Begins nullable first (g.kind p) token → first p token

end

variable {nullable : ProductionId → Prop} {first : ProductionId → Token → Prop}

@[simp]
theorem beginsSequence_nil : ¬ BeginsSequence nullable first [] token := by
  rintro ⟨before, p, after, h, -, -⟩
  cases before <;> cases h

@[simp]
theorem beginsSequence_cons : BeginsSequence nullable first (p :: ps) token ↔
    first p token ∨ nullable p ∧ BeginsSequence nullable first ps token := by
  constructor
  · rintro ⟨before, q, after, h, hbefore, hq⟩
    cases before with
    | nil =>
      cases h
      exact .inl hq
    | cons r before =>
      cases h
      rw [forall_mem_cons] at hbefore
      exact .inr ⟨hbefore.1, before, q, after, rfl, hbefore.2, hq⟩
  · rintro (hp | ⟨hp, before, q, after, rfl, hbefore, hq⟩)
    · exact ⟨[], p, ps, rfl, by simp, hp⟩
    · exact ⟨p :: before, q, after, rfl, forall_mem_cons.2 ⟨hp, hbefore⟩, hq⟩

theorem beginsSequence_replicate {n : Nat} :
    BeginsSequence nullable first (replicate n p) token ↔ 0 < n ∧ first p token := by
  induction n with
  | zero => simp
  | succ n ih =>
    rw [replicate_succ, beginsSequence_cons, ih]
    constructor
    · rintro (h | ⟨-, -, h⟩) <;> exact ⟨Nat.succ_pos n, h⟩
    · exact fun h ↦ .inl h.2

theorem Vanishes.mono (h : Vanishes nullable kind)
    (hnull : ∀ p ∈ kind.children, nullable p → nullable' p) : Vanishes nullable' kind := by
  obtain ⟨ps, hps, h⟩ := h
  exact ⟨ps, hps, fun p hp ↦ hnull p (hps.subset_children hp) (h p hp)⟩

theorem Begins.mono {first' : ProductionId → Token → Prop} (h : Begins nullable first kind token)
    (hnull : ∀ p ∈ kind.children, nullable p → nullable' p)
    (hfirst : ∀ p ∈ kind.children, first p token → first' p token) :
    Begins nullable' first' kind token := by
  obtain h | ⟨ps, hps, before, p, after, rfl, hbefore, hp⟩ := h
  · exact .inl h
  · have hsub := hps.subset_children
    refine .inr ⟨_, hps, before, p, after, rfl, fun q hq ↦ ?_, ?_⟩
    · exact hnull q (hsub (mem_append_left _ hq)) (hbefore q hq)
    · exact hfirst p (hsub (by simp)) hp

/-! ### Productions by how they expand -/

/-- The items that a production always becomes. -/
def items? : ProductionKind → Option (List ProductionId)
  | .epsilon => some []
  | .sequence items | .unit _ _ items => some items
  | .enclosure body | .block _ body => some [body]
  | .reference target | .placeholder (some target) => some [target]
  | _ => none

/-- The body that a production repeats, and whether it may leave it out. -/
def repeated? : ProductionKind → Option (Bool × ProductionId)
  | .counter _ body | .loop _ body => some (true, body)
  | .forEach body eod => some (eod, body)
  | _ => none

/-- Whether a production is one of its parts, or with a switch perhaps nothing. -/
def isChoice : ProductionKind → Bool
  | .boolean .. | .switch .. | .lookAhead .. => true
  | _ => false

theorem expands_choice (h : isChoice kind = true) :
    kind.Expands ps ↔ (∃ p ∈ kind.children, ps = [p]) ∨ hasNoDefault kind = true ∧ ps = [] := by
  constructor
  · intro hps
    cases hps with
    | yes | no | left | right | otherwise => simp [ProductionKind.children]
    | case hmem =>
      exact .inl ⟨_, mem_append_left _ (mem_map.2 ⟨_, hmem, rfl⟩), rfl⟩
    | noCase => exact .inr ⟨rfl, rfl⟩
    | _ => cases h
  · rintro (⟨p, hp, rfl⟩ | ⟨hnone, rfl⟩)
    · cases kind with
      | boolean predicate yes no =>
        simp only [ProductionKind.children, mem_cons, not_mem_nil, or_false] at hp
        obtain rfl | rfl := hp
        · exact .yes
        · exact .no
      | lookAhead left right =>
        simp only [ProductionKind.children, mem_cons, not_mem_nil, or_false] at hp
        obtain rfl | rfl := hp
        · exact .left
        · exact .right
      | switch expression cases otherwise =>
        simp only [ProductionKind.children, mem_append, mem_map, Option.mem_toList] at hp
        obtain ⟨⟨labels, body⟩, hmem, rfl⟩ | hp := hp
        · exact .case hmem
        · cases hp
          exact .otherwise
      | _ => cases h
    · cases kind with
      | switch expression cases otherwise =>
        cases otherwise with
        | none => exact .noCase
        | some body => cases hnone
      | _ => cases hnone

theorem expands_items (h : items? kind = some ps) : kind.Expands qs ↔ qs = ps := by
  constructor
  · intro hqs
    cases hqs <;> cases h <;> rfl
  · rintro rfl
    cases kind with
    | epsilon => cases h; exact .epsilon
    | sequence => cases h; exact .sequence
    | unit => cases h; exact .unit
    | enclosure => cases h; exact .enclosure
    | block => cases h; exact .block
    | reference => cases h; exact .reference
    | placeholder target =>
      cases target with
      | none => cases h
      | some target => cases h; exact .placeholder
    | _ => cases h

theorem expands_repeated (h : repeated? kind = some (mayStop, p)) :
    kind.Expands ps ↔ ∃ n, (mayStop = true ∨ 0 < n) ∧ ps = replicate n p := by
  constructor
  · intro hps
    cases hps with
    | counter n | loop n => cases h; exact ⟨n, .inl rfl, rfl⟩
    | forEach n hn => cases h; exact ⟨n, hn, rfl⟩
    | _ => cases h
  · rintro ⟨n, hn, rfl⟩
    cases kind with
    | counter => cases h; exact .counter n
    | loop => cases h; exact .loop n
    | forEach => cases h; exact .forEach n hn
    | _ => cases h

theorem Behaves.congr {isNullable isNullable' : Prop} {isFirst isFirst' : Token → Prop}
    (h : Behaves nullable first kind isNullable isFirst) (hnull : isNullable ↔ isNullable')
    (hfirst : ∀ token, isFirst token ↔ isFirst' token) :
    Behaves nullable first kind isNullable' isFirst' :=
  ⟨h.1.trans hnull, fun token ↦ (h.2 token).trans (hfirst token)⟩

theorem behaves_items (h : items? kind = some ps) :
    Behaves nullable first kind (∀ p ∈ ps, nullable p) (BeginsSequence nullable first ps) := by
  have htoken : token? kind = none := ((expands_items h).2 rfl).token?_eq_none
  simp [Behaves, Vanishes, Begins, expands_items h, htoken]

theorem behaves_repeated (h : repeated? kind = some (mayStop, p)) :
    Behaves nullable first kind (mayStop = true ∨ nullable p) (first p) := by
  have htoken : token? kind = none := by
    cases kind <;> first | rfl | cases h
  simp only [Behaves, Vanishes, Begins, expands_repeated h, htoken]
  refine ⟨⟨?_, ?_⟩, fun token ↦ ⟨?_, ?_⟩⟩
  · rintro ⟨_, ⟨n, hstop | hn, rfl⟩, hnull⟩
    · exact .inl hstop
    · exact .inr (hnull p (mem_replicate.2 ⟨Nat.ne_of_gt hn, rfl⟩))
  · rintro (hstop | hnull)
    · exact ⟨[], ⟨0, .inl hstop, rfl⟩, by simp⟩
    · exact ⟨[p], ⟨1, .inr Nat.one_pos, rfl⟩, by simpa using hnull⟩
  · rintro (h | ⟨_, ⟨n, -, rfl⟩, hfirst⟩)
    · cases h
    · exact (beginsSequence_replicate.1 hfirst).2
  · intro hfirst
    exact .inr ⟨[p], ⟨1, .inr Nat.one_pos, rfl⟩, beginsSequence_cons.2 (.inl hfirst)⟩

theorem behaves_token (htoken : token? kind = some token) :
    Behaves nullable first kind False (· = token) := by
  have hno : ∀ qs, ¬ kind.Expands qs := by
    intro qs hqs
    rw [hqs.token?_eq_none] at htoken
    cases htoken
  simp [Behaves, Vanishes, Begins, hno, htoken, eq_comm]

theorem behaves_choice (h : isChoice kind = true) :
    Behaves nullable first kind ((∃ p ∈ kind.children, nullable p) ∨ hasNoDefault kind = true)
      fun token ↦ ∃ p ∈ kind.children, first p token := by
  have htoken : token? kind = none := by
    cases kind <;> first | rfl | cases h
  simp only [Behaves, Vanishes, Begins, expands_choice h, htoken]
  refine ⟨⟨?_, ?_⟩, fun token ↦ ⟨?_, ?_⟩⟩
  · rintro ⟨_, ⟨p, hp, rfl⟩ | ⟨hnone, rfl⟩, hnull⟩
    · exact .inl ⟨p, hp, hnull p mem_cons_self⟩
    · exact .inr hnone
  · rintro (⟨p, hp, hnull⟩ | hnone)
    · exact ⟨[p], .inl ⟨p, hp, rfl⟩, by simpa using hnull⟩
    · exact ⟨[], .inr ⟨hnone, rfl⟩, by simp⟩
  · rintro (h | ⟨_, ⟨p, hp, rfl⟩ | ⟨-, rfl⟩, hfirst⟩)
    · cases h
    · exact ⟨p, hp, by simpa using hfirst⟩
    · exact absurd hfirst beginsSequence_nil
  · rintro ⟨p, hp, hfirst⟩
    exact .inr ⟨[p], .inl ⟨p, hp, rfl⟩, beginsSequence_cons.2 (.inl hfirst)⟩

theorem behaves_reference (h : kind.reference? = some q) :
    Behaves nullable first kind (nullable q) (first q) := by
  have hitems : items? kind = some [q] := by
    cases kind <;> simp_all [ProductionKind.reference?, items?]
  simpa [Behaves] using behaves_items hitems

/-- A closed assignment passes on along references. -/
theorem Closed.of_resolve (h : Closed nullable first g) (hg : g.WellFormed) (hp : p ∈ g.ids) :
    (nullable (g.resolve p) → nullable p) ∧ ∀ token, first (g.resolve p) token → first p token := by
  suffices hall : ∀ fuel, ∀ p ∈ g.ids, (nullable (g.resolveWithin fuel p) → nullable p) ∧
      ∀ token, first (g.resolveWithin fuel p) token → first p token from hall _ p hp
  intro fuel
  induction fuel with
  | zero => exact fun p _ ↦ ⟨id, fun _ ↦ id⟩
  | succ fuel ih =>
    intro p hp
    cases hkind : (g.kind p).reference? with
    | none =>
      rw [resolveWithin_of_final hkind]
      exact ⟨id, fun _ ↦ id⟩
    | some q =>
      rw [resolveWithin_of_reference hkind]
      obtain ⟨hnull, hfirst⟩ := ih q (hg p q (mem_children_of_reference? hkind))
      have href : Behaves nullable first (g.kind p) _ _ := behaves_reference hkind
      refine ⟨fun hq ↦ ?_, fun token hq ↦ ?_⟩
      · exact h.of_vanishes p hp (href.1.2 (hnull hq))
      · exact h.of_begins p hp token ((href.2 token).2 (hfirst token hq))

/-! ## Evaluation -/

/-- What is recorded for a production itself. -/
def recorded (g : Grammar) (p : ProductionId) : Attributes := g.attributes[p.index]?.getD {}

theorem attributesOf_eq (g : Grammar) (p : ProductionId) :
    g.attributesOf p = g.recorded (g.resolve p) := rfl

theorem firstOfSequence_snd :
    (g.firstOfSequence ps).2 = true ↔ ∀ p ∈ ps, g.isNullable p = true := by
  induction ps with
  | nil => simp [firstOfSequence]
  | cons p ps ih =>
    unfold firstOfSequence
    split
    · next h => simp [h, ih]
    · next h => simp [h]

theorem mem_firstOfSequence : token ∈ (g.firstOfSequence ps).1 ↔
    BeginsSequence (g.isNullable · = true) (fun p t ↦ t ∈ g.first p) ps token := by
  induction ps with
  | nil => simp [firstOfSequence]
  | cons p ps ih =>
    unfold firstOfSequence
    split
    · next h => simp [h, ih]
    · next h => simp [h]

theorem mem_firstOfChoice : token ∈ g.firstOfChoice ps ↔ ∃ p ∈ ps, token ∈ g.first p := by
  suffices h : ∀ set : TokenSet, token ∈ ps.foldl (fun set p ↦ TokenSet.union set (g.first p)) set ↔
      token ∈ set ∨ ∃ p ∈ ps, token ∈ g.first p by
    simpa [firstOfChoice] using h []
  induction ps with
  | nil => simp
  | cons p ps ih =>
    intro set
    simp [ih, or_assoc]

/-- Evaluation follows the equations. -/
theorem behaves_evaluate (h : g.evaluate kind = some v) :
    Behaves (g.isNullable · = true) (fun p token ↦ token ∈ g.first p) kind (v.1 = true)
      (· ∈ v.2) := by
  cases kind with
  | reference | placeholder => cases h
  | literal | typeLiteral | skip | value =>
    cases h
    exact Behaves.congr (behaves_token rfl) (by simp) (by simp [token?])
  | epsilon =>
    cases h
    exact Behaves.congr (behaves_items rfl) (by simp) (by simp)
  | sequence | unit =>
    cases h
    refine Behaves.congr (behaves_items rfl) ?_ fun token ↦ ?_
    · exact firstOfSequence_snd.symm
    · exact mem_firstOfSequence.symm
  | enclosure | block =>
    cases h
    exact Behaves.congr (behaves_items rfl) (by simp) (by simp)
  | counter | loop | forEach =>
    cases h
    exact Behaves.congr (behaves_repeated rfl) (by simp) fun _ ↦ Iff.rfl
  | boolean | switch | lookAhead =>
    cases h
    refine Behaves.congr (behaves_choice rfl) (by simp) fun token ↦ ?_
    exact mem_firstOfChoice.symm

theorem evaluate_eq_none_iff : g.evaluate kind = none ↔ kind.isReference = true := by
  cases kind <;> simp [evaluate, ProductionKind.isReference]

theorem reference?_eq_none_of_evaluate (h : g.evaluate kind = some v) : kind.reference? = none := by
  cases kind <;> first | rfl | cases h

theorem ascending_firstOfSequence (h : ∀ p, (g.first p).Ascending) (ps : List ProductionId) :
    (g.firstOfSequence ps).1.Ascending := by
  cases ps with
  | nil => exact .nil
  | cons p ps =>
    unfold firstOfSequence
    split
    · exact (h p).union
    · exact h p

theorem ascending_firstOfChoice (ps : List ProductionId) : (g.firstOfChoice ps).Ascending := by
  suffices h : ∀ set : TokenSet, set.Ascending →
      (ps.foldl (fun set p ↦ TokenSet.union set (g.first p)) set).Ascending from h [] .nil
  induction ps with
  | nil => exact fun _ hset ↦ hset
  | cons p ps ih => exact fun _ hset ↦ ih _ hset.union

theorem ascending_evaluate (hfirst : ∀ p, (g.first p).Ascending) (h : g.evaluate kind = some v) :
    v.2.Ascending := by
  cases kind with
  | reference | placeholder => cases h
  | literal | typeLiteral | skip | value => cases h; simp [TokenSet.Ascending, token?]
  | epsilon => cases h; exact .nil
  | sequence | unit => cases h; exact ascending_firstOfSequence hfirst _
  | enclosure | block | counter | loop | forEach => cases h; exact hfirst _
  | boolean | switch | lookAhead => cases h; exact ascending_firstOfChoice _

end ProtocolIR.Grammar
