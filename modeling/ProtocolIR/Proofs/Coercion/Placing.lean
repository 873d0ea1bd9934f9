import ProtocolIR.Proofs.Coercion.Amending

/-!
# What a coercion puts in place

A coercion puts a new expression in the slot of an old one. The old one gets detached, or goes
inside the new one; all other nodes keep their places. A copied return statement belongs to the copy
of its function, or stays in the function that the coerced expression is in.
-/

namespace ProtocolIR.Tree

open Tree List Option NodeKind

variable {t : Tree} {n u : NodeId} {kind : NodeKind}

/-- The nodes of a tree are as they were, but slot `i` of `n` holds `e'`. -/
structure Filled (t t' : Tree) (n : NodeId) (i : Nat) (e' : NodeId) : Prop where
  size_le : t.size ≤ t'.size
  kind : ∀ {m}, t.Has m → t'.kind m = t.kind m
  slots_of_ne : ∀ {m}, t.Has m → m ≠ n → t'.slots m = t.slots m
  slots_self : t'.slots n = (t.slots n).set i (some e')

/-- In slot `i` of `n` a new expression `e'` for a destination has taken the place of `e`. The new
nodes are copies, related by `r`, and other new nodes. -/
structure Placed (source top : NodeId → Prop) (t t' : Tree) (n : NodeId) (i : Nat) (e e' dst : NodeId)
    (r : NodeId → NodeId → Prop) : Prop extends Filled t t' n i e' where
  child : t.child n i = some e
  isExpression : (t.kind e).isExpression = true
  new : ¬t.Has e'
  isExpression' : (t'.kind e').isExpression = true
  parent_of_ne : ∀ {m}, t.Has m → m ≠ e → t'.parent m = t.parent m
  parent_old : t'.parent e = none ∨ t'.parent e = some e'
  copies : Replicas t t t' r
  copy_source : ∀ {a b}, r a b → source a
  copy_held : ∀ {a b}, r a b → top a ∨ ∃ p p', r p p' ∧ some b ∈ t'.slots p'
  novel : ∀ {b}, ¬t.Has b → t'.Has b → (∃ a, r a b) ∨ t.Novel (t'.kind b)
  inside : ∀ {b c}, ¬t.Has b → some c ∈ t'.slots b → t.Has c → c = e
  typed : ∃ q, t'.expressionType e' = some q ∧ TypeFor t t' dst q

theorem findAncestor_of_parent (ht : t.Coherent) {p : NodeId} (hp : t.parent n = some p)
    (pred : NodeKind → Bool) :
    t.findAncestor n pred = if pred (t.kind p) then some p else t.findAncestor p pred := by
  unfold findAncestor
  rw [ht.ancestors_of_parent hp, find?_cons]
  cases pred (t.kind p) with
  | true | false => rfl

theorem findAncestor_of_free (ht : t.Coherent) (hp : t.parent n = none) (pred : NodeKind → Bool) :
    t.findAncestor n pred = none := by
  have hnone : t.ancestors n = [] := eq_nil_iff_forall_not_mem.2 fun a ha ↦ by
    obtain ⟨p, hp', -⟩ := ht.mem_ancestors_iff.1 ha
    rw [hp] at hp'
    cases hp'
  unfold findAncestor
  rw [hnone]
  rfl

theorem isFunction_of_isExpression (h : kind.isExpression = true) : kind.isFunction = false := by
  cases kind with
  | expression => rfl
  | _ => cases h

theorem Novel.isFunction (h : t.Novel kind) : kind.isFunction = false := by
  cases kind with
  | declaration => exact h.elim
  | _ => rfl

namespace Placed

variable {source top : NodeId → Prop} {t t' : Tree} {n m e e' dst p b f : NodeId} {i j : Nat}
  {r : NodeId → NodeId → Prop}

variable (h : Placed source top t t' n i e e' dst r)

include h

theorem has_self : t.Has n := has_of_child_eq h.child

theorem lt_length : i < (t.slots n).length :=
  (List.getElem?_eq_some_iff.1 (child_eq_some_iff.1 h.child)).1

theorem child_self : t'.child n i = some e' := by
  rw [child_eq_some_iff, h.slots_self, getElem?_set_self h.lt_length]

theorem child_of_ne (hm : t.Has m) (hne : m ≠ n ∨ j ≠ i) : t'.child m j = t.child m j := by
  by_cases hmn : m = n
  · subst hmn
    unfold Tree.child
    rw [h.slots_self, getElem?_set_ne (Ne.symm (hne.resolve_left fun hnot ↦ hnot rfl))]
  · exact child_congr (h.slots_of_ne hm hmn) j

/-- What an old node holds it held before, but for the new expression. -/
theorem held (hp : t.Has p) (hm : some m ∈ t'.slots p) : some m ∈ t.slots p ∨ m = e' ∧ p = n := by
  by_cases hpn : p = n
  · subst hpn
    rw [h.slots_self] at hm
    rcases mem_or_eq_of_mem_set hm with hm | heq
    · exact .inl hm
    · exact .inr ⟨some.inj heq, rfl⟩
  · rw [h.slots_of_ne hp hpn] at hm
    exact .inl hm

/-- The way up from an old node goes where it went, or on through the new expression. -/
theorem parent_cases (ht : t.Rooted) (ht' : t'.Rooted) (hm : t.Has m) (hp : t'.parent m = some p) :
    t.parent m = some p ∨ m = e ∧ p = e' ∧ t.parent e = some n ∧ t'.parent e' = some n := by
  by_cases hme : m = e
  · subst hme
    rcases h.parent_old with hnone | hnew
    · rw [hnone] at hp
      cases hp
    · cases hnew.symm.trans hp
      exact .inr ⟨rfl, rfl, ht.parent_of_child h.child, ht'.parent_of_child h.child_self⟩
  · exact .inl ((h.parent_of_ne hm hme).symm.trans hp)

/-- The way up from a new node stays among the new nodes until it comes out of the new expression. -/
theorem parent_of_new (ht : t.Rooted) (ht' : t'.Rooted) (hb : ¬t.Has b) (hp : t'.parent b = some p) :
    ¬t.Has p ∨ b = e' ∧ p = n := by
  by_cases hhas : t.Has p
  · rcases h.held hhas (ht'.held hp) with hold | hplace
    · exact absurd (ht.has_of_held hold) hb
    · exact .inr hplace
  · exact .inl hhas

theorem within (ht : t.Rooted) (ht' : t'.Rooted) {a : NodeId} (ha : t.Has a)
    (hwithin : t'.Within a m) : (t.Has m → t.Within a m) ∧ (m = e' → t.Within a n) := by
  induction hwithin with
  | here => exact ⟨fun _ ↦ .here, fun heq ↦ absurd (heq ▸ ha) h.new⟩
  | @beneath m p hp _ ih =>
    refine ⟨fun hm ↦ ?_, fun heq ↦ ?_⟩
    · rcases h.parent_cases ht ht' hm hp with hp | ⟨rfl, hpe, hen, -⟩
      · exact .beneath hp (ih.1 (ht.has_parent hp))
      · exact .beneath hen (ih.2 hpe)
    · subst heq
      cases (ht'.parent_of_child h.child_self).symm.trans hp
      exact ih.1 h.has_self

theorem function (ht : t.Rooted) (ht' : t'.Rooted) (hm : t.Has m)
    (hf : t'.findAncestor m isFunction = some f) :
    t.findAncestor m isFunction = some f := by
  -- by induction on the way up in the earlier tree, where a wrapped expression takes one step for two
  induction ht.grounded m with
  | @top m hfree =>
    cases hp : t'.parent m with
    | none =>
      rw [findAncestor_of_free ht'.toCoherent hp] at hf
      cases hf
    | some p =>
      rcases h.parent_cases ht ht' hm hp with hp | ⟨rfl, -, hen, -⟩
      · rw [hfree] at hp
        cases hp
      · rw [hfree] at hen
        cases hen
  | @beneath m q hq _ ih =>
    have hqhas := ht.has_parent hq
    have hstep : (if (t'.kind q).isFunction then some q else t'.findAncestor q isFunction) =
        some f := by
      cases hp : t'.parent m with
      | none =>
        rw [findAncestor_of_free ht'.toCoherent hp] at hf
        cases hf
      | some p =>
        rw [findAncestor_of_parent ht'.toCoherent hp] at hf
        rcases h.parent_cases ht ht' hm hp with hp | ⟨rfl, rfl, hen, hen'⟩
        · cases hq.symm.trans hp
          exact hf
        · cases hq.symm.trans hen
          rwa [isFunction_of_isExpression h.isExpression', if_neg Bool.false_ne_true,
            findAncestor_of_parent ht'.toCoherent hen'] at hf
    rw [findAncestor_of_parent ht.toCoherent hq, ← h.kind hqhas]
    split at hstep
    next hkind => rwa [if_pos hkind]
    next hkind =>
      rw [if_neg hkind]
      exact ih hqhas hstep

theorem amended (ht : t.Rooted) (ht' : t'.Rooted) (hreads : ¬(t.kind n).ReadsType i) : Amended t t' where
  rooted := ht
  rooted' := ht'
  size_le := h.size_le
  kind := h.kind
  length {m} hm := by
    by_cases hmn : m = n
    · rw [hmn, h.slots_self, length_set]
    · rw [h.slots_of_ne hm hmn]
  child {m j} hm := by
    by_cases hplace : m = n ∧ j = i
    · obtain ⟨rfl, rfl⟩ := hplace
      refine .inr ⟨hreads, fun c hc ↦ ?_, fun c hc ↦ ?_⟩
      · cases h.child.symm.trans hc
        exact h.isExpression
      · cases h.child_self.symm.trans hc
        exact h.isExpression'
    · refine .inl (h.child_of_ne hm ?_)
      by_contra hnot
      rw [not_or, not_not, not_not] at hnot
      exact hplace hnot
  within ha hm hwithin := (h.within ht ht' ha hwithin).1 hm
  function hm := h.function ht ht' hm
  around {m q} hm hkind hq hplain := by
    obtain ⟨p, hp, hpq⟩ := bind_eq_some_iff.1 hq
    rcases h.parent_cases ht ht' hm hp with hp | ⟨rfl, -⟩
    · rcases h.parent_cases ht ht' (ht.has_parent hp) hpq with hpq | ⟨rfl, rfl, -⟩
      · exact bind_eq_some_iff.2 ⟨p, hp, hpq⟩
      · rw [h.isExpression'] at hplain
        cases hplain
    · rw [h.isExpression] at hkind
      cases hkind

/-! ## Functions around copies -/

theorem not_copy_of_parent (ht' : t'.Rooted) (hb : ∀ a, ¬r a b) (hp : t'.parent b = some p)
    (a : NodeId) : ¬r a p := fun hap ↦ by
  obtain ⟨slot, -, hrel⟩ := exists_mem_of_mem_forall₂ (h.copies.slots hap) (ht'.held hp)
  cases hrel with
  | some hr => exact hb _ hr

/-- The function around what is put in place is the one around the old expression. -/
theorem function_of_topmost (ht : t.Rooted) (ht' : t'.Rooted) (hb : ¬t.Has b)
    (hcopy : ∀ p, t'.parent b = some p → ∀ a, ¬r a p)
    (hf : t'.findAncestor b isFunction = some f) :
    t.findAncestor e isFunction = some f := by
  induction ht'.grounded b with
  | @top b hfree =>
    rw [findAncestor_of_free ht'.toCoherent hfree] at hf
    cases hf
  | @beneath b p hp _ ih =>
    rw [findAncestor_of_parent ht'.toCoherent hp] at hf
    rcases h.parent_of_new ht ht' hb hp with hnew | ⟨-, rfl⟩
    · have hnovel := (h.novel hnew (ht'.has_parent hp)).resolve_left fun ⟨a, ha⟩ ↦ hcopy p hp a ha
      rw [hnovel.isFunction, if_neg Bool.false_ne_true] at hf
      exact ih hnew (fun q hq ↦ h.not_copy_of_parent ht' (hcopy p hp) hq) hf
    · rw [findAncestor_of_parent ht.toCoherent (ht.parent_of_child h.child), ← h.kind h.has_self]
      split at hf
      next hkind => rwa [if_pos hkind]
      next hkind =>
        rw [if_neg hkind]
        exact h.function ht ht' h.has_self hf

/-- The function around a copy is a copy of the function around the source, or lies above the
topmost copy. -/
theorem function_of_copy (ht : t.Rooted) (ht' : t'.Rooted) {a f' : NodeId} (hab : r a b)
    (hf : t'.findAncestor b isFunction = some f') :
    (∃ f, t.findAncestor a isFunction = some f ∧ r f f') ∨
      ∃ u, top u ∧ t.Within u a ∧
        t.findAncestor a isFunction = t.findAncestor u isFunction ∧
          t.findAncestor e isFunction = some f' := by
  induction ht'.grounded b generalizing a with
  | @top b hfree =>
    rw [findAncestor_of_free ht'.toCoherent hfree] at hf
    cases hf
  | @beneath b p' hp' _ ih =>
    by_cases hcopy : ∃ p, r p p'
    · obtain ⟨p, hpp⟩ := hcopy
      obtain ⟨slot, hslot, hrel⟩ := exists_mem_of_mem_forall₂ (h.copies.slots hpp) (ht'.held hp')
      cases hrel with
      | some hr =>
        cases h.copies.unique hab hr
        have hp := ht.parent_of_held hslot
        rw [findAncestor_of_parent ht'.toCoherent hp', h.copies.kind hpp] at hf
        rw [findAncestor_of_parent ht.toCoherent hp]
        split at hf
        next hkind =>
          cases hf
          rw [if_pos hkind]
          exact .inl ⟨p, rfl, hpp⟩
        next hkind =>
          rw [if_neg hkind]
          exact (ih hpp hf).imp_right fun ⟨u, htop, hwithin, hfind, he⟩ ↦
            ⟨u, htop, .beneath hp hwithin, hfind, he⟩
    · have htop : top a := (h.copy_held hab).resolve_right fun ⟨p, q, hpq, hheld⟩ ↦ by
        cases (ht'.parent_of_held hheld).symm.trans hp'
        exact hcopy ⟨p, hpq⟩
      refine .inr ⟨a, htop, .here, rfl, h.function_of_topmost ht ht' (h.copies.new hab) ?_ hf⟩
      intro q hq x hx
      cases hp'.symm.trans hq
      exact hcopy ⟨x, hx⟩

end Placed

/-- The return statements in a type belong to functions in it. -/
def OwnsReturns (t : Tree) (u : NodeId) : Prop :=
  ∀ x, t.Within u x → t.kind x = .statement .ret →
    ∃ f, t.findAncestor x isFunction = some f ∧ t.Within u f

theorem not_within_of_findAncestor (ht : t.Coherent) {f : NodeId} {pred : NodeKind → Bool}
    (h : t.findAncestor u pred = some f) : ¬t.Within u f := by
  obtain ⟨p, hp, hwithin⟩ := ht.mem_ancestors_iff.1 (mem_of_find?_eq_some h)
  exact fun hu ↦ (ht.grounded u).not_within hp (hu.trans hwithin)

namespace Placed

variable {source top g : NodeId → Prop} {t t' : Tree} {n e e' dst : NodeId} {i : Nat}
  {r : NodeId → NodeId → Prop}

theorem copied (h : Placed source top t t' n i e e' dst r) (ht : t.Rooted) (ht' : t'.Rooted)
    (hg : Region t g) (hsource : ∀ {a}, source a → g a ∧ t.Has a)
    (htop : ∀ {u}, top u → t.parent u = some e ∨ t.OwnsReturns u) : Copied g t t' r where
  region hab := (hsource (h.copy_source hab)).1
  has hab := (hsource (h.copy_source hab)).2
  toReplicas := h.copies
  function {a b f'} hab hkind hf' := by
    rcases h.function_of_copy ht ht' hab hf' with ⟨f, hf, hff⟩ | ⟨u, hu, hwithin, hfind, hf⟩
    · exact ⟨f, hf, .inr hff⟩
    · rcases htop hu with hp | howns
      · rw [findAncestor_of_parent ht.toCoherent hp, isFunction_of_isExpression h.isExpression,
          if_neg Bool.false_ne_true] at hfind
        have hfa := hfind.trans hf
        obtain ⟨hgf, hhas⟩ := hg.findAncestor ht.toCoherent (hsource (h.copy_source hab)).1 hfa
        exact ⟨f', hfa, .inl ⟨hgf, hhas, rfl⟩⟩
      · obtain ⟨f, hfa, hin⟩ := howns a hwithin hkind
        exact absurd hin (not_within_of_findAncestor ht.toCoherent (hfind.symm.trans hfa))

theorem region (h : Placed source top t t' n i e e' dst r) (ht : t.Rooted) (ht' : t'.Rooted)
    (hreads : ¬(t.kind n).ReadsType i) (hg : Region t g) (hn : g n)
    (hsource : ∀ {a}, source a → g a ∧ t.Has a) : Region t' g := by
  refine hg.amended (h.amended ht ht' hreads) (fun hp hc ↦ ?_) (fun {b c} hb hc ↦ ?_) (fun hb hb' ↦ ?_)
  · refine (h.held hp hc).imp_right fun ⟨hnew, hpn⟩ ↦ ?_
    rw [hnew, hpn]
    exact ⟨h.new, hn⟩
  · by_cases hhas : t.Has c
    · rw [h.inside hb hc hhas]
      exact hg.child hn (mem_slots_of_child h.child)
    · exact hg.new hhas
  · exact (h.novel hb hb').imp_left fun ⟨a, hab⟩ ↦
      ⟨a, (hsource (h.copy_source hab)).1, h.copies.kind hab⟩

end Placed

/-- The text of a target type, as long as it is resolved. -/
theorem TypeFor.serialize {t' : Tree} {dst q : NodeId} {text : String} (h : TypeFor t t' dst q)
    (ham : Amended t t') (hu : t.unqualified dst = some u)
    (htext : (t.typeData? u).bind TypeData.unification = some text) (hres : t'.isResolved q = true) :
    t'.serialize q = some text := by
  obtain ⟨qualifiers, hkind⟩ := h.qualified
  obtain ⟨u', c, hu', hslots, -, hdenotes⟩ := h.exists_type
  cases hu.symm.trans hu'
  have hc : t'.unqualified q = some c := by
    rw [unqualified_of_qualified hkind, child, hslots]
    rfl
  rcases hdenotes with heq | ⟨id, link, heq, hdeclared⟩
  · refine serialize_of_unification hc ?_
    unfold typeData? at htext ⊢
    rwa [heq]
  · have hlink := has_of_declares hdeclared
    have huhas := ham.rooted.has_of_declaredType hdeclared
    obtain ⟨v, hv⟩ := exists_linkedType_of_isResolved ham.rooted'.toLinked hc heq rfl hres
    cases linkedType_eq_of_declaredType ((ham.declaredType_eq hlink).trans hdeclared) hv
    refine serialize_of_name hc heq rfl rfl rfl hv ?_
    rw [ham.typeData?_eq huhas, htext]

end ProtocolIR.Tree
