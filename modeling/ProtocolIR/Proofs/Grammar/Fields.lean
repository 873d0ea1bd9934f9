import ProtocolIR.Proofs.Grammar.Recursion
import ProtocolIR.Units.Validation

/-!
# The fields of a unit in its grammar

The grammar of a unit leads from its root to a production of every field of the unit, those in the
cases of switches included. A switch has one default case only: of several the last one counts, and
the fields of the others are lost.
-/

namespace ProtocolIR

open List Option

namespace Tree

variable {t : Tree} {n m : NodeId}

theorem ItemIn.of_mem_itemsWithin {fuel : Nat} (h : m ∈ t.itemsWithin fuel n) : t.ItemIn n m := by
  induction fuel generalizing n with
  | zero => cases h
  | succ fuel ih =>
    unfold itemsWithin at h
    split at h
    next hn =>
      obtain ⟨c, hc, hm⟩ := mem_flatMap.1 h
      exact .switch hn hc (ih hm)
    next hn =>
      obtain ⟨c, hc, hm⟩ := mem_flatMap.1 h
      exact .alternative hn (mem_toList.1 hc) (ih hm)
    · cases mem_singleton.1 h
      exact .self
    · cases h

theorem UnitHolds.of_mem_unitItems {u : NodeId} (h : n ∈ t.unitItems u) : t.UnitHolds u n := by
  obtain ⟨i, hi, hn⟩ := mem_flatMap.1 h
  exact ⟨i, hi, .of_mem_itemsWithin hn⟩

end Tree

namespace Grammar

/-- A production is on a way down from another one. -/
def Reaches (g : Grammar) (p q : ProductionId) : Prop :=
  Relation.ReflTransGen (fun p q ↦ q ∈ (g.kind p).children) p q

/-- The grammar of a unit leads to a production of every field of the unit, if no switch in it has
two default cases. -/
theorem exists_reaches_of_unitField {t : Tree} {g : Grammar} {declaration unit n : NodeId} {lines : List String}
    (h : ofDeclaration? t declaration = .ok (some (g, lines))) (hunit : t.declaredType declaration = some unit)
    (hdefaults : ∀ s, t.UnitHolds unit s → t.OneDefault s) (hn : n ∈ t.unitItems unit)
    (hfield : t.isUnitField n) :
    ∃ root p, g.root = some root ∧ g.Reaches root p ∧ p ∈ g.ids ∧ (g.production p).field = some n := by
  obtain ⟨_, hunit', -, g₀, root, d, ledger, hg, hg₀, hroot, -, hd, -, -, htold, hshows, -⟩ :=
    told_of_declaration h
  cases hunit.symm.trans hunit'
  obtain ⟨-, hproductions, hroot'⟩ := analyzed_analyze hg₀
  rw [← hg] at hproductions hroot'
  have htold := htold.congr hproductions
  obtain ⟨p, hreaches, hp⟩ := hshows hdefaults n (.of_mem_unitItems hn) hfield
  exact ⟨root, p, hroot'.trans hroot, hreaches.lift id fun _ _ ↦ htold.refersTo hd, htold.isFor hd hp⟩

/-- A unit of a switch with two cases, each with a field. The first one is its default, and the
second one may be as well. -/
def switchUnit (isDefault : Bool) : Tree := .ofRows [
  (.root, [1]),
  (.declares "U" .type .external, [2]),
  (.value .const, [3]),
  (.type { shape := .unit, typeId := some "m::U" }, [4]),
  (.item .switch, [0, 5, 8]),
  (.item (.alternative true), [6]),
  (.item (.field (some "a") false), [7]),
  (.shaped (.unsigned 8), []),
  (.item (.alternative isDefault), [9]),
  (.item (.field (some "b") false), [10]),
  (.shaped (.unsigned 16), [])]

/-- The field in the first of two default cases has no production that the root leads to. -/
theorem not_reaches_of_two_defaults : ∃ g lines,
    Units.Validation.validatePre (switchUnit true) Tree.root = switchUnit true ∧
      ofDeclaration? (switchUnit true) ⟨1⟩ = .ok (some (g, lines)) ∧
      (switchUnit true).declaredType ⟨1⟩ = some ⟨3⟩ ∧ ⟨6⟩ ∈ (switchUnit true).unitItems ⟨3⟩ ∧
      (switchUnit true).isUnitField ⟨6⟩ = true ∧
      ¬∃ root p, g.root = some root ∧ g.Reaches root p ∧ (g.production p).field = some ⟨6⟩ := by
  obtain ⟨g, lines, hrun, heval⟩ := exists_of_eval (switchUnit true) ⟨1⟩
    (f := fun g ↦ (g.root, [0, 2].map fun i ↦ ((g.kind ⟨i⟩).children, (g.production ⟨i⟩).field)))
    (a := (some ⟨0⟩, [([⟨2⟩], none), ([], some ⟨9⟩)])) (by decide +kernel)
  simp only [Prod.mk.injEq, map_cons, map_nil, List.cons.injEq, and_true] at heval
  obtain ⟨hroot, ⟨hunit, hfield⟩, hcase, hfield'⟩ := heval
  -- The root leads to itself and to the second field only.
  have honly : ∀ p, g.Reaches ⟨0⟩ p → p = ⟨0⟩ ∨ p = ⟨2⟩ := by
    intro p hreaches
    induction hreaches with
    | refl => exact .inl rfl
    | tail _ hq ih =>
      obtain rfl | rfl := ih
      · rw [hunit] at hq
        exact .inr (mem_singleton.1 hq)
      · rw [hcase] at hq
        cases hq
  refine ⟨g, lines, rfl, hrun, by decide +kernel, by decide +kernel, by decide +kernel, ?_⟩
  rintro ⟨root, p, hroot', hreaches, hp⟩
  cases hroot.symm.trans hroot'
  obtain rfl | rfl := honly p hreaches
  · cases hfield.symm.trans hp
  · cases hfield'.symm.trans hp

/-- With one default only, the same field is reached. -/
theorem reaches_of_one_default : ∃ g lines root p,
    ofDeclaration? (switchUnit false) ⟨1⟩ = .ok (some (g, lines)) ∧
      (∀ s, (switchUnit false).UnitHolds ⟨3⟩ s → (switchUnit false).OneDefault s) ∧
      g.root = some root ∧ g.Reaches root p ∧ p ∈ g.ids ∧ (g.production p).field = some ⟨6⟩ := by
  obtain ⟨g, lines, hrun, -⟩ := exists_of_eval (switchUnit false) ⟨1⟩ (f := fun _ ↦ ()) (a := ())
    (by decide +kernel)
  have hdefaults : ∀ s, (switchUnit false).UnitHolds ⟨3⟩ s → (switchUnit false).OneDefault s := by
    rintro ⟨i⟩ - hswitch
    have hall : ∀ i < 11, ((switchUnit false).kind ⟨i⟩).item? = some .switch →
        (switchUnit false).defaults ((switchUnit false).childrenFrom ⟨i⟩ 1 .item) ≤ 1 := by decide +kernel
    refine hall i (show (switchUnit false).Has ⟨i⟩ from Tree.has_of_kind fun hroot ↦ ?_) hswitch
    rw [hroot] at hswitch
    cases hswitch
  have hunit : (switchUnit false).declaredType ⟨1⟩ = some ⟨3⟩ := by decide +kernel
  have hitem : ⟨6⟩ ∈ (switchUnit false).unitItems ⟨3⟩ := by decide +kernel
  obtain ⟨root, p, hp⟩ := exists_reaches_of_unitField hrun hunit hdefaults hitem (by decide +kernel)
  exact ⟨g, lines, root, p, hrun, hdefaults, hp⟩

end Grammar

end ProtocolIR
