import ProtocolIR.Proofs.Coercion.Idle
import ProtocolIR.Proofs.Round.FixedPoint

/-!
# One sweep settles

A sweep of a ready tree leaves all that is attached settled, and a sweep of what is settled does
nothing. So one sweep of coercions is enough: the next one reports no change and leaves every node as
it is. It is not enough for every tree, since a type that is copied takes along what it holds: an
initial value that the sweep has not come to yet is copied before it is coerced.
-/

namespace ProtocolIR

open Tree Coercion

/-- A pattern in a place asks for no type but that of the first operand. -/
def OperandPattern.follows (i : Nat) : OperandPattern → Bool
  | .sameAs j => j == 0 && decide (1 ≤ i)
  | _ => true

theorem Registry.leads_of_follows {registry : Registry}
    (h : ∀ op ∈ registry.operators.toList, ∀ p ∈ op.operands.zipIdx, p.1.follows p.2 = true) :
    registry.Leads := by
  intro id op i j hop hpattern
  have hmem : op ∈ registry.operators.toList :=
    Array.mem_toList_iff.2 (Array.mem_of_getElem? hop)
  have hfollows := h op hmem (.sameAs j, i) (List.mk_mem_zipIdx_iff_getElem?.2 hpattern)
  simpa [OperandPattern.follows] using hfollows

theorem Registry.leads_builtin : Registry.builtin.Leads := leads_of_follows (by decide +kernel)

/-! ## Plain types -/

/-- A link leads to a node, a type has its text, and it holds neither expressions nor returns. -/
def Tree.PlainAt (t : Tree) (n : NodeId) : Prop :=
  (∀ link ∈ (t.kind n).link?, t.Has link.node) ∧
    (∀ data ∈ t.typeData? n, data.unification.isSome = true) ∧
    ∀ u ∈ t.unqualified n, ∀ a ∈ t.subtree u,
      (t.kind a).isExpression = false ∧ t.kind a ≠ .statement .ret

instance (t : Tree) (n : NodeId) : Decidable (t.PlainAt n) := inferInstanceAs (Decidable (_ ∧ _ ∧ _))

/-- Where types hold nothing that can be coerced, a tree is ready. -/
theorem Coercion.ready_of_plainAt {session : Session} {t : Tree} (ht : t.Rooted)
    (h : ∀ i < t.size, t.PlainAt ⟨i⟩) : Ready session t := by
  have hplain : ∀ {x u a}, t.unqualified x = some u → t.Within u a →
      (t.kind a).isExpression = false ∧ t.kind a ≠ .statement .ret := by
    intro x u a hu ha
    have hhas := ha.has (ht.has_of_unqualified hu)
    exact (h x.index (has_of_unqualified_eq hu)).2.2 u hu a (ht.mem_ordered .pre hhas ha)
  constructor
  case rooted => exact ht
  case closed =>
    intro n link _ hlink
    have hn : t.Has n := has_of_kind fun hroot ↦ by rw [hroot] at hlink; cases hlink
    exact (h n.index hn).1 link hlink
  case recorded =>
    intro n data _ hkind
    have hn : t.Has n := has_of_kind (by simp [hkind])
    exact Option.isSome_iff_exists.1 ((h n.index hn).2.1 data (typeData?_eq_some_iff.2 hkind))
  case settled =>
    rintro a ⟨x, u, -, hu, ha⟩
    have hempty : ∀ {i e}, t.child a i = some e → ¬(t.kind e).isExpression = true := by
      intro i e he
      rw [(hplain hu (ha.trans (.of_parent (ht.parent_of_child he)))).1]
      exact Bool.false_ne_true
    refine ⟨fun hresolved ↦ ?_, fun i ↦ ⟨fun _ he hexpression ↦ absurd hexpression (hempty he),
      fun _ he hexpression ↦ absurd hexpression (hempty he)⟩⟩
    have hexpression := (hplain hu ha).1
    rw [hresolved] at hexpression
    cases hexpression
  case returns =>
    intro x u _ hu y hy hret
    exact absurd hret (hplain hu hy).2

namespace Compiler

theorem regular_standard (options : Options) : (standard options).session.Regular where
  echoes := by
    intro c hc
    obtain rfl | rfl := eq_of_mem_conversions hc
    · exact echoes_units
    · exact echoes_base
  steady := steady_standard options
  conditions := plainConditions_standard options
  leads := Registry.leads_builtin

/-- After a sweep of a ready tree, the next sweep returns, reports no change and leaves exactly the
attached nodes attached and every node as it was. -/
theorem sweep_settles (options : Options) (w w' : Workspace) (changed : Bool)
    (hready : Ready (standard options).session w.tree)
    (hsweep : sweep (standard options).session root w = .ok (changed, w')) :
    ∃ w'', sweep (standard options).session root w' = .ok (false, w'') ∧
      (∀ n, w''.tree.Within root n ↔ w'.tree.Within root n) ∧
      ∀ n, w'.tree.Has n → w''.tree.node n = w'.tree.node n := by
  have hregular := regular_standard options
  obtain ⟨hcourse, hsettled⟩ := ensures_sweep_settled hregular hready changed w' hsweep
  have ht := hcourse.amended.rooted'
  obtain ⟨_, w'', hrun, rfl, hgrowth, hpadded⟩ := returns_sweep_of_settled hregular ht hsettled
  exact ⟨w'', hrun, fun n ↦ hpadded.within_iff (hgrowth.rooted ht), fun n hn ↦ hgrowth.node_eq hn⟩

/-- `r: string = f(1)` and `c: bool = !1`, where `f(a: optional<int<32>>) -> string` is declared after
its use and numbers are of type `int<64>`. -/
def lateFunction : Tree := .ofRows [
  (.root, [32]),
  (.shaped .string "string", []),
  (.place, [1]),
  (.shaped .string "string", []),
  (.value, [3]),
  (.expression (.name (.ofText "f") (some ⟨⟨21⟩, some "m::f"⟩)), [0]),
  (.shaped (.signed 64) "int<64>", []),
  (.value .const, [6]),
  (.literal (.signed 1 64), [7]),
  (.expression .literal, [8]),
  (.expression (.resolved .call (.function ⟨⟨21⟩, some "m::f"⟩)), [4, 5, 9]),
  (.declares "r" .globalVariable, [2, 10]),
  (.shaped .string "string", []),
  (.value, [12]),
  (.shaped (.signed 32) "int<32>", []),
  (.value, [14]),
  (.shaped .optional "optional(m:int<32>)", [15]),
  (.place, [16]),
  (.declares "a" (.parameter .input), [17, 0]),
  (.shaped .function "function(m:string;m:optional(m:int<32>))", [13, 18]),
  (.value .const, [19]),
  (.declares "f" (.function none none), [20, 0]),
  (.shaped .bool "bool", []),
  (.place, [22]),
  (.shaped .bool "bool", []),
  (.value .const, [24]),
  (.shaped (.signed 64) "int<64>", []),
  (.value .const, [26]),
  (.literal (.signed 1 64), [27]),
  (.expression .literal, [28]),
  (.expression .logicalNot, [25, 29]),
  (.declares "c" .globalVariable, [23, 30]),
  (.declares "m" .module .external, [11, 21, 31])]

/-- The first sweep makes both numbers anew, and the second one finds nothing to do. -/
theorem sweep_settles_lateFunction :
    ∃ w' w'' : Workspace, Ready (standard {}).session lateFunction ∧
      sweep (standard {}).session root ⟨lateFunction, #[]⟩ = .ok (true, w') ∧
      sweep (standard {}).session root w' = .ok (false, w'') ∧
      (∀ n, w''.tree.Within root n ↔ w'.tree.Within root n) ∧
      ∀ n, w'.tree.Has n → w''.tree.node n = w'.tree.node n := by
  have hready : Ready (standard {}).session lateFunction :=
    ready_of_plainAt (by decide +kernel) (by decide +kernel)
  have hrun : ((sweep (standard {}).session root ⟨lateFunction, #[]⟩).map Prod.fst).toOption = some true := by
    decide +kernel
  cases hsweep : sweep (standard {}).session root ⟨lateFunction, #[]⟩ with
  | error f => rw [hsweep] at hrun; cases hrun
  | ok r =>
    obtain ⟨changed, w'⟩ := r
    rw [hsweep] at hrun
    cases hrun
    obtain ⟨w'', hsettles⟩ := sweep_settles {} ⟨lateFunction, #[]⟩ w' true hready hsweep
    exact ⟨w', w'', hready, rfl, hsettles⟩

/-- `r: void = f(null)`, where `f` is declared after its use, and the type of its parameter, an
`optional<struct>`, holds the initial value of a variable `a: optional<int<64>> = 1`. -/
def valueInType : Tree := .ofRows [
  (.root, [31]),
  (.shaped .void "void", []),
  (.place, [1]),
  (.shaped .void "void", []),
  (.value, [3]),
  (.expression (.name (.ofText "f") (some ⟨⟨30⟩, some "m::f"⟩)), [0]),
  (.shaped .null "null", []),
  (.value .const, [6]),
  (.literal .null, [7]),
  (.expression .literal, [8]),
  (.expression (.resolved .call (.function ⟨⟨30⟩, some "m::f"⟩)), [4, 5, 9]),
  (.declares "r" .globalVariable, [2, 10]),
  (.shaped (.signed 64) "int<64>", []),
  (.value, [12]),
  (.shaped .optional "optional(m:int<64>)", [13]),
  (.place, [14]),
  (.shaped (.signed 64) "int<64>", []),
  (.value .const, [16]),
  (.literal (.signed 1 64), [17]),
  (.expression .literal, [18]),
  (.declares "a" .localVariable, [15, 19]),
  (.shaped .struct "struct\x7ba:m:optional(m:int<64>)\x7d", [20]),
  (.value, [21]),
  (.type
      { shape := .optional, unification := some "optional(m:struct\x7ba:m:optional(m:int<64>)\x7d)" },
    [22]),
  (.place, [23]),
  (.declares "p" (.parameter .input), [24, 0]),
  (.shaped .void "void", []),
  (.value, [26]),
  (.type
      { shape := .function
        unification := some "function(m:void;m:optional(m:struct\x7ba:m:optional(m:int<64>)\x7d))" },
    [27, 25]),
  (.value .const, [28]),
  (.declares "f" (.function none none), [29, 0]),
  (.declares "m" .module .external, [11, 30])]

/-- The type of the parameter is copied before the value in it is coerced, so that the copy is left to
the second sweep, although every type has the text of its structure. -/
theorem sweep_again_valueInType :
    ∃ w' w'' : Workspace, valueInType.Rooted ∧
      (∀ n data, valueInType.kind n = .type data → ∃ text, data.unification = some text ∧
        valueInType.forgetTexts.serialize n = some text) ∧
      sweep (standard {}).session root ⟨valueInType, #[]⟩ = .ok (true, w') ∧
      sweep (standard {}).session root w' = .ok (true, w'') := by
  have hrooted : valueInType.Rooted := by decide +kernel
  have htexts : ∀ i < valueInType.size, ∀ data ∈ valueInType.typeData? ⟨i⟩,
      data.unification.isSome = true ∧ valueInType.forgetTexts.serialize ⟨i⟩ = data.unification := by
    decide +kernel
  have hrun : (do
      let r ← sweep (standard {}).session root ⟨valueInType, #[]⟩
      let r' ← sweep (standard {}).session root r.2
      return (r.1, r'.1) : Except Fault (Bool × Bool)).toOption = some (true, true) := by
    decide +kernel
  cases hsweep : sweep (standard {}).session root ⟨valueInType, #[]⟩ with
  | error f => rw [hsweep] at hrun; cases hrun
  | ok r =>
    obtain ⟨changed, w'⟩ := r
    rw [hsweep] at hrun
    dsimp only [bind, Except.bind] at hrun
    cases hagain : sweep (standard {}).session root w' with
    | error f => rw [hagain] at hrun; cases hrun
    | ok r =>
      obtain ⟨again, w''⟩ := r
      rw [hagain] at hrun
      cases hrun
      refine ⟨w', w'', hrooted, fun n data hkind ↦ ?_, rfl, hagain⟩
      have hn : valueInType.Has n := has_of_kind (by simp [hkind])
      obtain ⟨hsome, htext⟩ := htexts n.index hn data (typeData?_eq_some_iff.2 hkind)
      obtain ⟨text, heq⟩ := Option.isSome_iff_exists.1 hsome
      exact ⟨text, heq, htext.trans heq⟩

end Compiler

end ProtocolIR
