import Mathlib.Algebra.Order.BigOperators.Group.List
import Mathlib.Algebra.Order.Ring.Nat
import ProtocolIR.Proofs.Grammar.Equations

/-!
# The computation of nullability and FIRST

What is recorded of a production only grows, since evaluation is monotone, and stays below every
assignment that is closed under the equations. There are no more tokens than productions, so the
rounds come to an end, and what is recorded then is the least solution of the equations.
-/

namespace ProtocolIR.Grammar

open List

variable {g g' : Grammar} {p q : ProductionId} {kind : ProductionKind} {token : Token}
  {v w : Bool × TokenSet} {P : Grammar → Prop}

/-! ## Grammars with the same productions -/

section

variable (h : g'.productions = g.productions)

include h

theorem kind_congr (p : ProductionId) : g'.kind p = g.kind p := by
  rw [kind, kind, production, production, h]

theorem size_congr : g'.size = g.size := by
  rw [size, size, h]

theorem ids_congr : g'.ids = g.ids := by
  rw [ids, ids, size_congr h]

theorem resolve_congr (p : ProductionId) : g'.resolve p = g.resolve p := by
  have hwithin : ∀ fuel p, g'.resolveWithin fuel p = g.resolveWithin fuel p := by
    intro fuel
    induction fuel with
    | zero => exact fun p ↦ rfl
    | succ fuel ih =>
      intro p
      rw [resolveWithin, resolveWithin, kind_congr h]
      split
      · exact ih _
      · rfl
  rw [resolve, resolve, size_congr h, hwithin]

end

/-- Both have the same productions, and the second records at least what the first does. -/
structure Grows (g g' : Grammar) : Prop where
  productions : g'.productions = g.productions
  nullable : ∀ p, (g.recorded p).nullable = true → (g'.recorded p).nullable = true
  first : ∀ p, (g.recorded p).first ⊆ (g'.recorded p).first

theorem Grows.isNullable (h : g.Grows g') (hp : g.isNullable p = true) : g'.isNullable p = true := by
  rw [Grammar.isNullable, attributesOf_eq, resolve_congr h.productions]
  exact h.nullable _ hp

theorem Grows.first_subset (h : g.Grows g') (p : ProductionId) : g.first p ⊆ g'.first p := by
  rw [Grammar.first, Grammar.first, attributesOf_eq, attributesOf_eq, resolve_congr h.productions]
  exact h.first _

theorem Grows.evaluate (h : g.Grows g') (hv : g.evaluate kind = some v)
    (hw : g'.evaluate kind = some w) : (v.1 = true → w.1 = true) ∧ v.2 ⊆ w.2 := by
  obtain ⟨hv₁, hv₂⟩ := behaves_evaluate hv
  obtain ⟨hw₁, hw₂⟩ := behaves_evaluate hw
  refine ⟨fun hnull ↦ ?_, fun token hfirst ↦ ?_⟩
  · exact hw₁.1 ((hv₁.2 hnull).mono fun p _ ↦ h.isNullable)
  · exact (hw₂ token).1 (((hv₂ token).2 hfirst).mono (fun p _ ↦ h.isNullable) fun p _ hp ↦
      h.first_subset p hp)

theorem exists_evaluate (g : Grammar) (h : g'.evaluate kind = some w) :
    ∃ v, g.evaluate kind = some v := by
  cases hv : g.evaluate kind with
  | some v => exact ⟨v, rfl⟩
  | none =>
    rw [evaluate_eq_none_iff.2 (evaluate_eq_none_iff.1 hv)] at h
    cases h

/-! ## One step -/

theorem recorded_modifyAttributes (hp : p.index < g.attributes.size) (f : Attributes → Attributes) :
    (g.modifyAttributes p f).recorded q = if q = p then f (g.recorded p) else g.recorded q := by
  have hindex : p.index = q.index ↔ q = p := by
    cases p; cases q; simp [eq_comm]
  simp only [recorded, modifyAttributes, Array.getElem?_modify, hindex]
  split
  · next h =>
    subst h
    simp [Array.getElem?_eq_getElem hp]
  · rfl

/-- Replaces what is recorded of a production. -/
def record (g : Grammar) (p : ProductionId) (v : Bool × TokenSet) : Grammar :=
  g.modifyAttributes p fun a ↦ { a with nullable := v.1, first := v.2 }

theorem firstStep_cases (g : Grammar) (changed : Bool) (p : ProductionId) :
    (firstStep (g, changed) p = (g, changed) ∧ ∀ v, g.evaluate (g.kind p) = some v →
      (g.recorded p).nullable = v.1 ∧ (g.recorded p).first = v.2) ∨
    ∃ v, g.evaluate (g.kind p) = some v ∧
      ¬ ((g.recorded p).nullable = v.1 ∧ (g.recorded p).first = v.2) ∧
      firstStep (g, changed) p = (g.record p v, true) := by
  cases hv : g.evaluate (g.kind p) with
  | none => exact .inl ⟨by simp only [firstStep, hv], fun _ h ↦ by cases h⟩
  | some v =>
    by_cases h : (g.recorded p).nullable = v.1 ∧ (g.recorded p).first = v.2
    · refine .inl ⟨?_, ?_⟩
      · simp only [firstStep, hv]
        exact if_pos h
      · rintro _ ⟨⟩
        exact h
    · refine .inr ⟨v, rfl, h, ?_⟩
      simp only [firstStep, hv]
      exact if_neg h

/-- The tokens of a grammar. -/
def tokens (g : Grammar) : List Token := g.ids.filterMap fun p ↦ token? (g.kind p)

theorem tokens_congr (h : g'.productions = g.productions) : g'.tokens = g.tokens := by
  simp only [tokens, ids_congr h, kind_congr h]

theorem length_tokens_le (g : Grammar) : g.tokens.length ≤ g.size :=
  calc g.tokens.length ≤ g.ids.length := length_filterMap_le _ _
    _ = g.size := by simp [ids]

/-- Nothing is recorded of productions that only point at others. -/
def ReferencesBlank (g : Grammar) : Prop :=
  ∀ p, (g.kind p).isReference = true →
    (g.recorded p).nullable = false ∧ (g.recorded p).first = []

/-- What is recorded is no more than the equations give. -/
structure Rising (g : Grammar) : Prop where
  size : g.attributes.size = g.size
  ascending : ∀ p, (g.recorded p).first.Ascending
  tokens : ∀ p, (g.recorded p).first ⊆ g.tokens
  references : g.ReferencesBlank
  evaluate : ∀ p v, g.evaluate (g.kind p) = some v →
    ((g.recorded p).nullable = true → v.1 = true) ∧ (g.recorded p).first ⊆ v.2

theorem Rising.recorded_record (h : g.Rising) (hp : p ∈ g.ids) (q : ProductionId) :
    ((g.record p v).recorded q).nullable = (if q = p then v.1 else (g.recorded q).nullable) ∧
      ((g.record p v).recorded q).first = if q = p then v.2 else (g.recorded q).first := by
  have hsize : p.index < g.attributes.size := h.size ▸ mem_ids.1 hp
  rw [record, recorded_modifyAttributes hsize]
  split <;> exact ⟨rfl, rfl⟩

theorem Rising.grows (h : g.Rising) (hp : p ∈ g.ids) (hv : g.evaluate (g.kind p) = some v) :
    g.Grows (g.record p v) where
  productions := rfl
  nullable q hq := by
    rw [(h.recorded_record hp q).1]
    split
    · next heq => exact (h.evaluate p v hv).1 (heq ▸ hq)
    · exact hq
  first q token hq := by
    rw [(h.recorded_record hp q).2]
    split
    · next heq => exact (h.evaluate p v hv).2 (heq ▸ hq)
    · exact hq

theorem Rising.record (h : g.Rising) (hp : p ∈ g.ids) (hv : g.evaluate (g.kind p) = some v) :
    (g.record p v).Rising where
  size := by
    calc (g.record p v).attributes.size = g.attributes.size := Array.size_modify
      _ = g.size := h.size
  ascending q := by
    rw [(h.recorded_record hp q).2]
    split
    · exact ascending_evaluate (fun r ↦ h.ascending _) hv
    · exact h.ascending q
  tokens q token hq := by
    rw [(h.recorded_record hp q).2] at hq
    split at hq
    · obtain htoken | ⟨_, -, _, r, _, -, -, hr⟩ := ((behaves_evaluate hv).2 token).2 hq
      · exact mem_filterMap.2 ⟨p, hp, htoken⟩
      · exact h.tokens _ hr
    · exact h.tokens q hq
  references q hq := by
    have hne : q ≠ p := by
      rintro rfl
      have hnone : g.evaluate (g.kind q) = none := evaluate_eq_none_iff.2 hq
      rw [hnone] at hv
      cases hv
    rw [(h.recorded_record hp q).1, (h.recorded_record hp q).2, if_neg hne, if_neg hne]
    exact h.references q hq
  evaluate q w hw := by
    have hgrows := h.grows hp hv
    rw [(h.recorded_record hp q).1, (h.recorded_record hp q).2]
    by_cases heq : q = p
    · subst heq
      simpa using hgrows.evaluate hv hw
    · obtain ⟨u, hu⟩ := exists_evaluate g hw
      have hle := h.evaluate q u hu
      have hle' := hgrows.evaluate hu hw
      rw [if_neg heq, if_neg heq]
      exact ⟨fun hnull ↦ hle'.1 (hle.1 hnull), fun token htoken ↦ hle'.2 (hle.2 htoken)⟩

/-! ## Rounds -/

/-- How much is recorded. -/
def weight (g : Grammar) : Nat :=
  (g.ids.map fun p ↦ (g.recorded p).nullable.toNat + (g.recorded p).first.length).sum

theorem Rising.weight_le (h : g.Rising) : g.weight ≤ g.size * (g.size + 1) := by
  have htokens := g.length_tokens_le
  have hle : ∀ n ∈ g.ids.map fun p ↦ (g.recorded p).nullable.toNat + (g.recorded p).first.length,
      n ≤ g.size + 1 := by
    intro n hn
    obtain ⟨p, -, rfl⟩ := List.mem_map.1 hn
    have hlength := (h.ascending p).length_le (h.tokens p)
    have hnull := Bool.toNat_le (g.recorded p).nullable
    omega
  calc g.weight ≤ (g.ids.map _).length • (g.size + 1) := sum_le_card_nsmul _ _ hle
    _ = g.size * (g.size + 1) := by simp [ids]

/-- A step that changes something records more. -/
theorem Rising.weight_lt (h : g.Rising) (hp : p ∈ g.ids) (hv : g.evaluate (g.kind p) = some v)
    (hne : ¬ ((g.recorded p).nullable = v.1 ∧ (g.recorded p).first = v.2)) :
    g.weight < (g.record p v).weight := by
  have hgrows := h.grows hp hv
  have hrises := h.record hp hv
  have hlength (q) : (g.recorded q).first.length ≤ ((g.record p v).recorded q).first.length :=
    (h.ascending q).length_le (hgrows.first q)
  have hnull (q) : (g.recorded q).nullable.toNat ≤ ((g.record p v).recorded q).nullable.toNat :=
    Bool.toNat_le_toNat (hgrows.nullable q)
  refine sum_lt_sum _ _ (fun q _ ↦ Nat.add_le_add (hnull q) (hlength q)) ⟨p, hp, ?_⟩
  obtain ⟨hfst, hsnd⟩ := h.recorded_record hp (v := v) p
  rw [if_pos rfl] at hfst hsnd
  by_cases hfirst : (g.recorded p).first = v.2
  · have hnot : (g.recorded p).nullable ≠ ((g.record p v).recorded p).nullable :=
      fun heq ↦ hne ⟨heq.trans hfst, hfirst⟩
    have hinjective : ∀ a b : Bool, a.toNat = b.toNat → a = b := by decide
    have hlt : (g.recorded p).nullable.toNat < ((g.record p v).recorded p).nullable.toNat :=
      Nat.lt_of_le_of_ne (hnull p) fun heq ↦ hnot (hinjective _ _ heq)
    exact Nat.add_lt_add_of_lt_of_le hlt (hlength p)
  · have hlt := (h.ascending p).length_lt (hrises.ascending p) (hgrows.first p) (hsnd ▸ hfirst)
    have hle := hnull p
    omega

/-- What is recorded of a production is what evaluation gives. -/
def SettledAt (g : Grammar) (p : ProductionId) : Prop :=
  ∀ v, g.evaluate (g.kind p) = some v →
    (g.recorded p).nullable = v.1 ∧ (g.recorded p).first = v.2

def Settled (g : Grammar) : Prop := ∀ p ∈ g.ids, g.SettledAt p

/-- Steps either change nothing at all or, once and for all, report a change. -/
theorem foldl_progress {σ α : Type} {f : σ × Bool → α → σ × Bool} {I : σ → Prop}
    {D : σ → α → Prop} {m : σ → Nat} {l : List α}
    (hstep : ∀ s changed, I s → ∀ a ∈ l, (f (s, changed) a = (s, changed) ∧ D s a) ∨
      ∃ s', f (s, changed) a = (s', true) ∧ I s' ∧ m s < m s')
    {s : σ} (h : I s) (changed : Bool) :
    (l.foldl f (s, changed) = (s, changed) ∧ ∀ a ∈ l, D s a) ∨
      ∃ s', l.foldl f (s, changed) = (s', true) ∧ I s' ∧ m s < m s' := by
  induction l generalizing s changed with
  | nil => exact .inl ⟨rfl, by simp⟩
  | cons a l ih =>
    have hrest := fun s changed hs b hb ↦ hstep s changed hs b (mem_cons_of_mem a hb)
    rw [foldl_cons, forall_mem_cons]
    obtain ⟨hsame, hdone⟩ | ⟨s', hnext, hs', hlt⟩ := hstep s changed h a mem_cons_self
    · rw [hsame]
      exact (ih hrest h changed).imp_left fun hall ↦ ⟨hall.1, hdone, hall.2⟩
    · rw [hnext]
      obtain ⟨hsame, -⟩ | ⟨s'', hmore, hs'', hlt'⟩ := ih hrest hs' true
      · exact .inr ⟨s', hsame, hs', hlt⟩
      · exact .inr ⟨s'', hmore, hs'', hlt.trans hlt'⟩

/-- A round either finds everything settled or records more. -/
theorem Rising.firstRound_cases (h : g.Rising) :
    (g.firstRound = (g, false) ∧ g.Settled) ∨ ∃ g', g.firstRound = (g', true) ∧
      (g'.Rising ∧ g'.productions = g.productions) ∧ g.weight < g'.weight := by
  refine foldl_progress (I := fun g' : Grammar ↦ g'.Rising ∧ g'.productions = g.productions)
    (fun g' changed hg' p hp ↦ ?_) ⟨h, rfl⟩ false
  obtain ⟨hrising, hproductions⟩ := hg'
  rw [← ids_congr hproductions] at hp
  refine (firstStep_cases g' changed p).imp_right ?_
  rintro ⟨v, hv, hne, hstep⟩
  exact ⟨g'.record p v, hstep, ⟨hrising.record hp hv, hproductions⟩, hrising.weight_lt hp hv hne⟩

/-- A property that every step keeps is kept by steps one after another. -/
theorem foldl_firstStep_induction {ps : List ProductionId}
    (hstep : ∀ g p v, P g → p ∈ g.ids → g.evaluate (g.kind p) = some v → P (g.record p v))
    (hps : ∀ p ∈ ps, p ∈ g.ids) (h : P g) (changed : Bool) :
    P (ps.foldl firstStep (g, changed)).1 := by
  induction ps generalizing g changed with
  | nil => exact h
  | cons p ps ih =>
    rw [forall_mem_cons] at hps
    rw [foldl_cons]
    obtain ⟨hsame, -⟩ | ⟨v, hv, -, hrecord⟩ := firstStep_cases g changed p
    · rw [hsame]
      exact ih hps.2 h changed
    · rw [hrecord]
      exact ih (g := g.record p v) hps.2 (hstep g p v h hps.1 hv) true

theorem settleFirst_induction
    (hstep : ∀ g p v, P g → p ∈ g.ids → g.evaluate (g.kind p) = some v → P (g.record p v)) (h : P g)
    (fuel rounds : Nat) : P (settleFirst fuel rounds g).1 := by
  induction fuel generalizing g rounds with
  | zero => exact h
  | succ fuel ih =>
    have hround : P g.firstRound.1 := foldl_firstStep_induction hstep (fun _ hp ↦ hp) h false
    unfold settleFirst
    split
    · next heq => exact ih (by rwa [heq] at hround) _
    · next heq => rwa [heq] at hround

/-- The rounds come to an end before they are out of fuel. -/
theorem settled_settleFirst {fuel : Nat} (h : g.Rising)
    (hfuel : g.size * (g.size + 1) < g.weight + fuel) (rounds : Nat) :
    (settleFirst fuel rounds g).1.Settled := by
  induction fuel generalizing g rounds with
  | zero =>
    have hle := h.weight_le
    omega
  | succ fuel ih =>
    unfold settleFirst
    obtain ⟨hsame, hsettled⟩ | ⟨g', hmore, ⟨hrising, hproductions⟩, hlt⟩ := h.firstRound_cases
    · rw [hsame]
      exact hsettled
    · rw [hmore]
      exact ih hrising (by rw [size_congr hproductions]; omega) _

theorem firstRound_of_settled (h : g.Settled) : g.firstRound = (g, false) := by
  have hall : ∀ ps : List ProductionId, (∀ p ∈ ps, g.SettledAt p) →
      ps.foldl firstStep (g, false) = (g, false) := by
    intro ps hps
    induction ps with
    | nil => rfl
    | cons p ps ih =>
      rw [forall_mem_cons] at hps
      obtain ⟨hsame, -⟩ | ⟨v, hv, hne, -⟩ := firstStep_cases g false p
      · rw [foldl_cons, hsame, ih hps.2]
      · exact absurd (hps.1 v hv) hne
  exact hall g.ids h

/-! ## The least solution -/

theorem isReference_of_reference? (h : kind.reference? ≠ none) : kind.isReference = true := by
  cases kind <;> first | rfl | exact absurd rfl h

theorem ReferencesBlank.eq_of_reference (h : g.ReferencesBlank) (hg : g.WellFormed)
    (hp : p ∈ g.ids) (hq : (g.kind p).reference? = some q) :
    g.isNullable p = g.isNullable q ∧ g.first p = g.first q := by
  simp only [isNullable, first, attributesOf_eq]
  by_cases hends : g.Ends p
  · rw [resolve_reference hg hp hq hends]
    exact ⟨rfl, rfl⟩
  · have hends' := fun hq' ↦ hends ((ends_reference_iff hg hp hq).2 hq')
    obtain ⟨hnull, hfirst⟩ := h _ (isReference_of_reference? hends)
    obtain ⟨hnull', hfirst'⟩ := h _ (isReference_of_reference? hends')
    rw [hnull, hfirst, hnull', hfirst']
    exact ⟨rfl, rfl⟩

theorem behaves_blank (h : kind.isReference = true) (hnone : kind.reference? = none)
    {nullable : ProductionId → Prop} {first : ProductionId → Token → Prop} :
    Behaves nullable first kind False fun _ ↦ False := by
  have hno : ∀ ps, ¬ kind.Expands ps := by
    intro ps hps
    cases hps <;> simp_all [ProductionKind.isReference, ProductionKind.reference?]
  have htoken : token? kind = none := by
    cases kind <;> first | rfl | cases h
  simp [Behaves, Vanishes, Begins, hno, htoken]

/-- Once everything is settled, the equations hold of every production, references included. -/
theorem Settled.behaves (h : g.Settled) (hblank : g.ReferencesBlank) (hg : g.WellFormed)
    (hp : p ∈ g.ids) :
    Behaves (g.isNullable · = true) (fun p token ↦ token ∈ g.first p) (g.kind p)
      (g.isNullable p = true) (· ∈ g.first p) := by
  cases hv : g.evaluate (g.kind p) with
  | some v =>
    have hresolve := resolve_of_final (reference?_eq_none_of_evaluate hv)
    obtain ⟨hnull, hfirst⟩ := h p hp v hv
    refine (behaves_evaluate hv).congr ?_ fun token ↦ ?_
    · rw [isNullable, attributesOf_eq, hresolve, hnull]
    · rw [first, attributesOf_eq, hresolve, hfirst]
  | none =>
    have hreference := evaluate_eq_none_iff.1 hv
    cases hq : (g.kind p).reference? with
    | some q =>
      obtain ⟨hnull, hfirst⟩ := hblank.eq_of_reference hg hp hq
      rw [hnull, hfirst]
      exact behaves_reference hq
    | none =>
      obtain ⟨hnull, hfirst⟩ := hblank p hreference
      refine (behaves_blank hreference hq).congr ?_ fun token ↦ ?_
      · simp [isNullable, attributesOf_eq, resolve_of_final hq, hnull]
      · simp [first, attributesOf_eq, resolve_of_final hq, hfirst]

/-- What is recorded stays below an assignment. -/
def Bounded (nullable : ProductionId → Prop) (first : ProductionId → Token → Prop) (g : Grammar) :
    Prop :=
  ∀ p ∈ g.ids, ((g.recorded p).nullable = true → nullable p) ∧
    ∀ token ∈ (g.recorded p).first, first p token

section

variable {nullable : ProductionId → Prop} {first : ProductionId → Token → Prop}

variable (h : Bounded nullable first g) (hclosed : Closed nullable first g) (hg : g.WellFormed)

include h hclosed hg

theorem Bounded.of_isNullable (hp : p ∈ g.ids) (hnull : g.isNullable p = true) : nullable p :=
  (hclosed.of_resolve hg hp).1 ((h _ (resolve_mem_ids hg hp)).1 hnull)

theorem Bounded.of_mem_first (hp : p ∈ g.ids) (hfirst : token ∈ g.first p) : first p token :=
  (hclosed.of_resolve hg hp).2 token ((h _ (resolve_mem_ids hg hp)).2 token hfirst)

theorem Bounded.record (hrising : g.Rising) (hp : p ∈ g.ids) (hv : g.evaluate (g.kind p) = some v) :
    Bounded nullable first (g.record p v) := by
  obtain ⟨hfst, hsnd⟩ := behaves_evaluate hv
  have hchild := fun q hq ↦ h.of_isNullable hclosed hg (hg p q hq)
  intro q hq
  rw [(hrising.recorded_record hp q).1, (hrising.recorded_record hp q).2]
  split
  · next heq =>
    subst heq
    refine ⟨fun hnull ↦ ?_, fun token htoken ↦ ?_⟩
    · exact hclosed.of_vanishes q hp ((hfst.2 hnull).mono hchild)
    · refine hclosed.of_begins q hp token (((hsnd token).2 htoken).mono hchild fun r hr ↦ ?_)
      exact h.of_mem_first hclosed hg (hg q r hr)
  · exact h q hq

end

end ProtocolIR.Grammar
