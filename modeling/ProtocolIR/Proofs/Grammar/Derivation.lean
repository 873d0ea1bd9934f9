import ProtocolIR.Grammar.Analysis

/-!
# What the productions of a grammar derive

A production that takes input derives its token. Every other production expands to productions
one after another: to its items, to one of its alternatives, or to its body as often as it may be
repeated. What only points at a production expands to that production, and a placeholder without
a target to nothing at all, not even to the empty sequence.
-/

namespace ProtocolIR

open List

namespace ProductionKind

variable {kind : ProductionKind}

/-- The sequences of productions that a production of a kind may be replaced by. -/
inductive Expands : ProductionKind → List ProductionId → Prop
  | epsilon : Expands .epsilon []
  | sequence {items} : Expands (.sequence items) items
  | unit {typeId parameters fields} : Expands (.unit typeId parameters fields) fields
  | yes {predicate yes no} : Expands (.boolean predicate yes no) [yes]
  | no {predicate yes no} : Expands (.boolean predicate yes no) [no]
  | left {left right} : Expands (.lookAhead left right) [left]
  | right {left right} : Expands (.lookAhead left right) [right]
  | case {expression cases otherwise labels body} (h : (labels, body) ∈ cases) :
      Expands (.switch expression cases otherwise) [body]
  | otherwise {expression cases body} : Expands (.switch expression cases (some body)) [body]
  | noCase {expression cases} : Expands (.switch expression cases none) []
  | counter {count body} (n : Nat) : Expands (.counter count body) (replicate n body)
  | loop {condition body} (n : Nat) : Expands (.loop condition body) (replicate n body)
  | forEach {body eod} (n : Nat) (h : eod = true ∨ 0 < n) :
      Expands (.forEach body eod) (replicate n body)
  | enclosure {body} : Expands (.enclosure body) [body]
  | block {size body} : Expands (.block size body) [body]
  | reference {target} : Expands (.reference target) [target]
  | placeholder {target} : Expands (.placeholder (some target)) [target]

theorem Expands.subset_children {ps : List ProductionId} (h : kind.Expands ps) : ps ⊆ kind.children := by
  intro p hp
  cases h with
  | epsilon | noCase => cases hp
  | sequence | unit | enclosure | block | reference | placeholder => simpa [children] using hp
  | yes | no | left | right | otherwise =>
    rw [mem_singleton] at hp
    simp [children, hp]
  | case h =>
    rw [mem_singleton] at hp
    exact mem_append_left _ (mem_map.2 ⟨_, h, hp.symm⟩)
  | counter | loop | forEach => simpa [children] using (mem_replicate.1 hp).2

/-- A production that takes input does not expand. -/
theorem Expands.token?_eq_none {ps : List ProductionId} (h : kind.Expands ps) :
    Grammar.token? kind = none := by
  cases h <;> rfl

end ProductionKind

namespace Grammar

/-- The tokens that productions one after another may stand for. -/
inductive Derives (g : Grammar) : List ProductionId → List Token → Prop
  | nil : Derives g [] []
  | token {p ps token w} (h : token? (g.kind p) = some token) (rest : Derives g ps w) :
      Derives g (p :: ps) (token :: w)
  | expand {p ps qs v w} (h : (g.kind p).Expands qs) (body : Derives g qs v)
      (rest : Derives g ps w) : Derives g (p :: ps) (v ++ w)

/-- A production inside what another one derives: `g.Occurs p q before after` says that `p`
derives every sequence of tokens that consists of `before`, tokens derived by `q`, and `after`. -/
inductive Occurs (g : Grammar) (p : ProductionId) :
    ProductionId → List Token → List Token → Prop
  | self : Occurs g p p [] []
  | inside {q r ps qs before after v w} (outer : Occurs g p q before after)
      (h : (g.kind q).Expands (ps ++ r :: qs)) (left : g.Derives ps v) (right : g.Derives qs w) :
      Occurs g p r (before ++ v) (w ++ after)

variable {g : Grammar} {p q : ProductionId} {ps qs : List ProductionId} {v w : List Token}

theorem Derives.append (h : g.Derives ps v) (h' : g.Derives qs w) :
    g.Derives (ps ++ qs) (v ++ w) := by
  induction h with
  | nil => exact h'
  | token h _ ih => exact .token h ih
  | expand h body _ _ ih =>
    rw [append_assoc]
    exact .expand h body ih

theorem Derives.singleton (h : (g.kind p).Expands qs) (body : g.Derives qs w) :
    g.Derives [p] w := by
  simpa using Derives.expand h body .nil

theorem Derives.of_forall (h : ∀ p ∈ ps, g.Derives [p] []) : g.Derives ps [] := by
  induction ps with
  | nil => exact .nil
  | cons p ps ih =>
    rw [forall_mem_cons] at h
    exact h.1.append (ih h.2)

theorem Occurs.derives {before after : List Token} (h : g.Occurs p q before after)
    (hq : g.Derives [q] w) : g.Derives [p] (before ++ w ++ after) := by
  induction h generalizing w with
  | self => simpa using hq
  | inside _ h left right ih =>
    have hbody := left.append (hq.append right)
    simpa using ih (.singleton h hbody)

/-! ## References in range -/

/-- Everything that the productions refer to is a production. -/
def WellFormed (g : Grammar) : Prop :=
  ∀ p, ∀ q ∈ (g.kind p).children, q ∈ g.ids

@[simp]
theorem mem_ids : p ∈ g.ids ↔ p.index < g.size := by
  simp only [ids, mem_map, mem_range]
  constructor
  · rintro ⟨i, hi, rfl⟩
    exact hi
  · exact fun h ↦ ⟨p.index, h, rfl⟩

theorem kind_of_notMem (h : p ∉ g.ids) : g.kind p = .epsilon := by
  rw [mem_ids, size, Nat.not_lt] at h
  rw [kind, production, Array.getElem?_eq_none h]
  rfl

end Grammar

end ProtocolIR
