import Mathlib.Data.Finset.Prod
import ProtocolIR.Proofs.Padding.Typing
import ProtocolIR.Proofs.Pass.Coercion

/-!
# Coercion in a padded tree

How a value reaches a type of the base is the same in every padding of the base, whether by a
conversion or by a literal made anew. Both searches keep what they have found when the bound
grows, and both have an answer for every pair of nodes at most, so that the bounds do not show.
Only refusals may differ in their reasons.
-/

namespace ProtocolIR

open Tree

/-- A search by levels among finitely many questions, whose levels depend on padding only through
the level below. Its bound does not matter once there are as many levels as questions. -/
theorem Tree.Inset.search_eq {ε α β : Type} {b s : Tree} (h : Inset b s) {questions : Finset α}
    (search : Tree → Nat → α → Except ε β)
    (hzero : ∀ t y, ∃ e, search t 0 y = .error e)
    (hstep : ∀ {s s' : Tree}, Twin b s s' → ∀ fuel fuel',
      (∀ y ∈ questions, Below (search s fuel y) (search s' fuel' y)) →
        ∀ y ∈ questions, Below (search s (fuel + 1) y) (search s' (fuel' + 1) y))
    {bound later : Nat} (hbound : questions.card ≤ bound) (hlater : bound ≤ later) {x : α}
    (hx : x ∈ questions) : (search s later x).toOption = (search b bound x).toOption := by
  have hgrow : ∀ {s s' : Tree}, Twin b s s' → ∀ fuel fuel', fuel ≤ fuel' →
      ∀ y ∈ questions, Below (search s fuel y) (search s' fuel' y) := by
    intro s s' htwin fuel
    induction fuel with
    | zero =>
      intro fuel' _ y _
      obtain ⟨e, he⟩ := hzero s y
      rw [he]
      exact .of_error e _
    | succ fuel ih =>
      intro fuel' hle
      obtain ⟨fuel', rfl⟩ : ∃ k, fuel' = k + 1 := ⟨fuel' - 1, by omega⟩
      exact hstep htwin fuel fuel' (ih fuel' (by omega))
  have hrefl : Twin b b b := .refl h.rooted
  have hkeeps : Saturation.Keeps questions fun fuel y ↦ (search b fuel y).toOption := by
    intro fuel y hy a ha
    exact (hgrow hrefl fuel (fuel + 1) (Nat.le_succ _) y hy).toOption_some ha
  have hfollows : Saturation.Follows questions fun fuel y ↦ (search b fuel y).toOption := by
    intro fuel hquiet y hy
    refine (hstep hrefl _ _ (fun z hz ↦ ?_) y hy).toOption_eq (hstep hrefl _ _ (fun z hz ↦ ?_) y hy)
    · exact .of_toOption_eq (hquiet z hz)
    · exact .of_toOption_eq (hquiet z hz).symm
  have hleft : Twin b s b := ⟨h, .refl h.rooted⟩
  calc (search s later x).toOption = (search b later x).toOption :=
        (hgrow hleft later later (Nat.le_refl _) x hx).toOption_eq
          (hgrow hleft.symm later later (Nat.le_refl _) x hx)
    _ = (search b bound x).toOption := Saturation.answer_eq hkeeps hfollows hbound hlater hx

namespace Coercion

variable {b s s' : Tree} {x y n : NodeId} {style : Style} {conversions : List Conversions}
  {fuel fuel' later : Nat}

/-! ## Rules in two trees -/

theorem below_forM_zip {ε α : Type} {r : α → α → Prop} {f g : α × α → Except ε Unit} {l l' m m' : List α}
    (hl : List.Forall₂ r l l') (hm : List.Forall₂ r m m')
    (hfg : ∀ {a a' b b'}, r a a' → r b b' → Below (f (a', b')) (g (a, b))) :
    Below ((l'.zip m').forM f) ((l.zip m).forM g) := by
  induction hl generalizing m m' with
  | nil => exact .refl _
  | cons ha _ ih =>
    cases hm with
    | nil => exact .refl _
    | cons hb hm => exact (hfg ha hb).bind fun _ ↦ ih hm

section

variable {t t' : Tree} {r : NodeId → NodeId → Prop} {x' y' n' : NodeId}
  (hequal : ∀ {x x' y y'}, r x x' → r y y' → t'.typesEqual x' y' = true → t.typesEqual x y = true)

include hequal

/-- The rules for types see the parts of both types, and which of them are equal. -/
theorem typeRule_below {recurse recurse' : NodeId → NodeId → Except NoMatch Coercion}
    (hbelow : ∀ {x x' y y'}, r x x' → r y y' → Below (recurse' x' y') (recurse x y)) (hx : r x x')
    (hy : r y y') (hslot : Option.Rel r (t.child x 0) (t'.child x' 0))
    (hslot' : Option.Rel r (t.child y 0) (t'.child y' 0))
    (hparts : List.Forall₂ r (t.children x) (t'.children x'))
    (hparts' : List.Forall₂ r (t.children y) (t'.children y')) (source target : TypeShape) :
    Below (typeRule t' style recurse' x' y' source target)
      (typeRule t style recurse x y source target) := by
  unfold typeRule
  generalize t.child x 0 = part, t'.child x' 0 = part' at hslot ⊢
  generalize t.child y 0 = element, t'.child y' 0 = element' at hslot' ⊢
  split
  · exact .refl _
  split
  · exact .refl _
  split
  · exact .refl _
  split
  any_goals exact Below.refl _
  -- a value goes into an optional or a result
  · cases hslot' with
    | none => exact .refl _
    | some hk => exact (hbelow hx hk).map _
  · cases hslot' with
    | none => exact .refl _
    | some hk => exact (hbelow hx hk).map _
  -- a strong reference becomes a weak one, or what it refers to
  · split
    · cases hslot with
      | none => exact .refl _
      | some hm =>
        cases hslot' with
        | none => exact .refl _
        | some hk =>
          dsimp only
          split
          next htrue => rw [if_pos (hequal hm hk htrue)]; exact .refl _
          · exact .of_error _ _
    · exact .refl _
  · split
    · cases hslot with
      | none => exact .refl _
      | some hm =>
        dsimp only
        split
        next htrue => rw [if_pos (hequal hm hy htrue)]; exact .refl _
        · exact .of_error _ _
    · exact .refl _
  -- tuples are coerced part by part
  · rw [hparts.length_eq, hparts'.length_eq]
    split
    · exact .refl _
    refine (below_forM_zip hparts hparts' fun hm hk ↦ ?_).bind fun _ ↦ .refl _
    exact (hbelow hm hk).map _

theorem literalRule_below {recurse recurse' : NodeId → Except NoMatch Unit}
    (hbelow : ∀ {y y'}, r y y' → Below (recurse' y') (recurse y))
    (hlength : (t'.slots n').length = (t.slots n).length)
    (hslots : ∀ i, Option.Rel r (t.child n i) (t'.child n' i))
    (hslot' : Option.Rel r (t.child y 0) (t'.child y' 0)) (literal : Literal) (target : TypeShape) :
    Below (literalRule t' style recurse' n' literal y' target)
      (literalRule t style recurse n literal y target) := by
  have hnone : (t'.child n' 1).isNone = (t.child n 1).isNone := by
    have hvalue := hslots 1
    generalize t.child n 1 = value, t'.child n' 1 = value' at hvalue
    cases hvalue <;> rfl
  unfold literalRule
  rw [hlength, hnone]
  have hslot := hslots 0
  generalize t.child n 0 = part, t'.child n' 0 = part' at hslot ⊢
  generalize t.child y 0 = element, t'.child y' 0 = element' at hslot' ⊢
  split
  any_goals exact Below.refl _
  · cases hslot' with
    | none => exact .refl _
    | some hk =>
      cases hslot with
      | none => exact .refl _
      | some hm =>
        dsimp only
        split
        next htrue => rw [if_pos (hequal hm hk htrue)]; exact .refl _
        · split
          · exact fun _ _ ↦ rfl
          · exact hbelow hk

end

section

variable (h : Twin b s s')

include h

theorem rel_child_of_twin (hn : b.Has n) (i : Nat) :
    Option.Rel (fun m m' ↦ b.Has m ∧ m = m') (s'.child n i) (s.child n i) := by
  rw [h.left.child_eq hn, h.right.child_eq hn]
  cases hc : b.child n i with
  | none => exact .none
  | some m => exact .some ⟨h.base.has_of_child hc, rfl⟩

theorem rel_children_of_twin (hn : b.Has n) :
    List.Forall₂ (fun m m' ↦ b.Has m ∧ m = m') (s'.children n) (s.children n) := by
  rw [h.left.children_eq hn, h.right.children_eq hn]
  exact List.forall₂_same.2 fun m hm ↦ ⟨h.base.has_of_mem_children hm, rfl⟩

theorem typesEqual_of_twin {m m' k k' : NodeId} (hm : b.Has m ∧ m = m') (hk : b.Has k ∧ k = k')
    (hequal : s.typesEqual m' k' = true) : s'.typesEqual m k = true := by
  obtain ⟨hm, rfl⟩ := hm
  obtain ⟨hk, rfl⟩ := hk
  rwa [h.right.typesEqual_eq hm hk, ← h.left.typesEqual_eq hm hk]

end

/-! ## Types -/

/-- The answers of front ends do not depend on padding. -/
def Steady (conversions : List Conversions) : Prop :=
  ∀ c ∈ conversions, ∀ {b s : Tree} {x y : NodeId} (style : Style), Inset b s → b.Has x → b.Has y →
    c.literal s x y style = c.literal b x y style ∧ c.type s x y style = c.type b x y style

section

variable (hsteady : Steady conversions)

include hsteady

theorem findSome?_type_eq (h : Inset b s) (hx : b.Has x) (hy : b.Has y) :
    (conversions.findSome? fun c ↦ c.type s x y style) =
      conversions.findSome? fun c ↦ c.type b x y style :=
  findSome?_congr_of_mem fun c hc ↦ (hsteady c hc style h hx hy).2

theorem findSome?_literal_eq (h : Inset b s) (hx : b.Has x) (hy : b.Has y) :
    (conversions.findSome? fun c ↦ c.literal s x y style) =
      conversions.findSome? fun c ↦ c.literal b x y style :=
  findSome?_congr_of_mem fun c hc ↦ (hsteady c hc style h hx hy).1

theorem coerceTypeWithin_succ (h : Twin b s s')
    (hbelow : ∀ x y, b.Has x → b.Has y → Below (coerceTypeWithin conversions s style fuel x y)
      (coerceTypeWithin conversions s' style fuel' x y))
    (hx : b.Has x) (hy : b.Has y) :
    Below (coerceTypeWithin conversions s style (fuel + 1) x y)
      (coerceTypeWithin conversions s' style (fuel' + 1) x y) := by
  unfold coerceTypeWithin
  rw [h.left.isResolved_eq hx, h.right.isResolved_eq hx, h.left.isResolved_eq hy,
    h.right.isResolved_eq hy, h.left.follow_eq hx, h.right.follow_eq hx, h.left.follow_eq hy,
    h.right.follow_eq hy, findSome?_type_eq hsteady h.left hx hy, findSome?_type_eq hsteady h.right hx hy]
  split
  · exact .refl _
  cases hm : b.follow x with
  | none => exact .refl _
  | some m =>
    cases hk : b.follow y with
    | none => exact .refl _
    | some k =>
      have hm := h.base.has_of_follow hm
      have hk := h.base.has_of_follow hk
      simp only [h.left.typesEqual_eq hm hk, h.right.typesEqual_eq hm hk, h.left.typeData?_eq hm,
        h.right.typeData?_eq hm, h.left.typeData?_eq hk, h.right.typeData?_eq hk]
      split
      · exact .refl _
      split
      · split
        · exact .refl _
        split
        · exact .refl _
        split
        · exact .refl _
        refine typeRule_below (typesEqual_of_twin h) ?_ ⟨hm, rfl⟩ ⟨hk, rfl⟩
          (rel_child_of_twin h hm 0) (rel_child_of_twin h hk 0)
          (rel_children_of_twin h hm) (rel_children_of_twin h hk) _ _
        rintro m _ k _ ⟨hm, rfl⟩ ⟨hk, rfl⟩
        exact hbelow m k hm hk
      · exact .refl _

/-- Every padding answers for types of the base as the base does, with any larger bound. -/
theorem coerceTypeWithin_eq (h : Inset b s) (style : Style)
    (hlater : (b.size + 1) * (b.size + 1) ≤ later) (hx : b.Has x) (hy : b.Has y) :
    (coerceTypeWithin conversions s style later x y).toOption =
      (coerceType conversions b x y style).toOption := by
  have hcard : (b.present ×ˢ b.present).card ≤ (b.size + 1) * (b.size + 1) := by
    have hle := card_present_le b
    rw [Finset.card_product]
    exact Nat.mul_le_mul (Nat.le_succ_of_le hle) (Nat.le_succ_of_le hle)
  have hpair : (x, y) ∈ b.present ×ˢ b.present :=
    Finset.mem_product.2 ⟨mem_present.2 hx, mem_present.2 hy⟩
  refine h.search_eq (fun t fuel p ↦ coerceTypeWithin conversions t style fuel p.1 p.2)
    (fun _ _ ↦ ⟨_, rfl⟩) ?_ hcard hlater hpair
  intro s s' htwin fuel fuel' hbelow p hp
  obtain ⟨hm, hk⟩ := Finset.mem_product.1 hp
  refine coerceTypeWithin_succ hsteady htwin (fun m k hm hk ↦ ?_) (mem_present.1 hm) (mem_present.1 hk)
  exact hbelow (m, k) (Finset.mem_product.2 ⟨mem_present.2 hm, mem_present.2 hk⟩)

theorem coerceType_eq (h : Inset b s) (style : Style) (hx : b.Has x) (hy : b.Has y) :
    (coerceType conversions s x y style).toOption = (coerceType conversions b x y style).toOption :=
  have hsize := Nat.succ_le_succ h.size_le
  coerceTypeWithin_eq hsteady h style (Nat.mul_le_mul hsize hsize) hx hy

end

/-! ## Literals -/

theorem coerceLiteralWithin_succ (hsteady : Steady conversions) (h : Twin b s s') (hn : b.Has n)
    (hbelow : ∀ y, b.Has y → Below (coerceLiteralWithin conversions s style n fuel y)
      (coerceLiteralWithin conversions s' style n fuel' y))
    (hy : b.Has y) :
    Below (coerceLiteralWithin conversions s style n (fuel + 1) y)
      (coerceLiteralWithin conversions s' style n (fuel' + 1) y) := by
  unfold coerceLiteralWithin
  rw [h.left.literal?_eq hn, h.right.literal?_eq hn, h.left.follow_eq hy, h.right.follow_eq hy,
    findSome?_literal_eq hsteady h.left hn hy, findSome?_literal_eq hsteady h.right hn hy]
  split
  · exact .refl _
  split
  · exact .refl _
  cases hd : b.follow y with
  | none => exact .refl _
  | some d =>
    have hd := h.base.has_of_follow hd
    simp only [h.left.shape?_eq hd, h.right.shape?_eq hd]
    split
    · exact .refl _
    refine literalRule_below (typesEqual_of_twin h) ?_ ?_ (rel_child_of_twin h hn)
      (rel_child_of_twin h hd 0) _ _
    · rintro k _ ⟨hk, rfl⟩
      exact hbelow k hk
    · rw [h.left.slots_eq hn, h.right.slots_eq hn]

theorem coerceLiteralWithin_eq (hsteady : Steady conversions) (h : Inset b s) (style : Style)
    (hlater : b.size + 1 ≤ later) (hn : b.Has n) (hy : b.Has y) :
    (coerceLiteralWithin conversions s style n later y).toOption =
      (coerceLiteral conversions b n y style).toOption := by
  refine h.search_eq (fun t fuel y ↦ coerceLiteralWithin conversions t style n fuel y)
    (fun _ _ ↦ ⟨_, rfl⟩) ?_ (Nat.le_succ_of_le (card_present_le b)) hlater (mem_present.2 hy)
  intro s s' htwin fuel fuel' hbelow y hy
  exact coerceLiteralWithin_succ hsteady htwin hn (fun m hm ↦ hbelow m (mem_present.2 hm))
    (mem_present.1 hy)

theorem coerceLiteral_eq (hsteady : Steady conversions) (h : Inset b s) (style : Style) (hn : b.Has n)
    (hy : b.Has y) :
    (coerceLiteral conversions s n y style).toOption =
      (coerceLiteral conversions b n y style).toOption :=
  coerceLiteralWithin_eq hsteady h style (Nat.succ_le_succ h.size_le) hn hy

/-! ## Expressions -/

theorem keepsType_eq (h : Inset b s) (hx : b.Has x) (hy : b.Has y) :
    keepsType s x y style = keepsType b x y style := by
  have hdata : (b.follow y).bind s.typeData? = (b.follow y).bind b.typeData? :=
    Option.bind_congr fun d hd ↦ h.typeData?_eq (h.base.has_of_follow hd)
  unfold keepsType
  rw [h.followedShape_eq hx, h.follow_eq hy, hdata]

theorem toOption_mapError {ε ε' α : Type} (f : ε → ε') (x : Except ε α) :
    (x.mapError f).toOption = x.toOption := by
  cases x <;> rfl

theorem coerceExpression_eq (hsteady : Steady conversions) (h : Inset b s) (hn : b.Has n) (hy : b.Has y) :
    (coerceExpression conversions s n y style).toOption =
      (coerceExpression conversions b n y style).toOption := by
  unfold coerceExpression
  rw [h.expressionType_eq hn]
  cases hsrc : b.expressionType n with
  | none => rfl
  | some src =>
    have hsrc := h.base.has_of_expressionType hsrc
    simp only [h.isResolved_eq hsrc, h.isResolved_eq hy, h.typesEqual_eq hsrc hy,
      keepsType_eq h hsrc hy, h.kind_eq hn, h.child_eq hn]
    split
    · rfl
    split
    · rfl
    split
    · rfl
    have htype := coerceType_eq hsteady h style hsrc hy
    cases hl : (if b.kind n == .expression .literal then b.child n 0 else none) with
    | none => exact htype
    | some l =>
      have hl : b.Has l := by
        split at hl
        · exact h.base.has_of_child hl
        · cases hl
      have hliteral := coerceLiteral_eq hsteady h style hl hy
      simp only [Option.map_some]
      cases hs : coerceLiteral conversions s l y style with
      | ok =>
        cases hb : coerceLiteral conversions b l y style with
        | ok => rfl
        | error => rw [hs, hb] at hliteral; cases hliteral
      | error =>
        cases hb : coerceLiteral conversions b l y style with
        | ok => rw [hs, hb] at hliteral; cases hliteral
        | error => simp only [toOption_mapError, htype]

end Coercion

end ProtocolIR
