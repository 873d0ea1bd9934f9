import Mathlib.Data.List.Nodup
import ProtocolIR.Units.Resolution

/-!
# What a visit looks at

A visit of a sweep looks at certain slots of a node, one after the other. A value is coerced to a type
that is found when the look comes to it, and a condition to `bool`. Which looks a visit takes is known
when it begins: it follows from the kind of the node, the number of its slots and, for a call, from the
parameters of the function.
-/

namespace ProtocolIR

open List

/-- Whether slot 1 of a declaration holds a value for the type in slot 0. -/
def DeclarationKind.takesValue : DeclarationKind → Bool
  | .constant | .globalVariable | .localVariable | .parameter _ => true
  | _ => false

/-- The slots that hold conditions. -/
def NodeKind.IsCondition : NodeKind → Nat → Prop
  | .statement .conditional, i | .statement .loop, i | .expression .ternary, i => i = 0
  | .expression .logicalAnd, i | .expression .logicalOr, i | .expression .logicalNot, i => 1 ≤ i
  | _, _ => False

namespace Coercion

/-- The slot of the first argument of a call. -/
def firstArgument (kind : OperatorKind) : Nat := if kind == .memberCall then 3 else 2

/-- What the expression in a slot of a node is coerced to, and in which style. -/
inductive Site (registry : Registry) (t : Tree) (n : NodeId) : Nat → NodeId → Style → Prop
  | declared {d : Declaration} {type : NodeId} : t.kind n = .declaration d → d.kind.takesValue = true →
      t.child n 0 = some type → Site registry t n 1 type .ofAssignment
  | returned {result : NodeId} : t.kind n = .statement .ret → t.enclosingResultType n = some result →
      Site registry t n 0 result .ofAssignment
  | assigned {target type : NodeId} : t.kind n = .expression .assign → t.child n 0 = some target →
      t.expressionType target = some type → Site registry t n 1 type .ofAssignment
  | operand {kind : OperatorKind} {id : Nat} {op : Operator} {i j : Nat} {first type : NodeId} :
      t.kind n = .expression (.resolved kind (.builtin id)) → registry.get? id = some op →
      op.operands[i]? = some (.sameAs j) → t.child n (1 + j) = some first →
      t.expressionType first = some type → Site registry t n (1 + i) type .ofCall
  | argument {kind : OperatorKind} {link : Link} {k : Nat} {parameter type : NodeId} :
      t.kind n = .expression (.resolved kind (.function link)) →
      (t.parameters link.node)[k]? = some parameter → t.child parameter 0 = some type →
      Site registry t n (firstArgument kind + k) type .ofCall

/-- Where the type for a value is found: with a declaration, with the expression in a slot of the node
itself, with the function around it, or nowhere. -/
inductive TypeSource where
  | declared (n : NodeId)
  | operand (i : Nat)
  | result
  | nothing

def TypeSource.read (t : Tree) (n : NodeId) : TypeSource → Option NodeId
  | .declared m => t.child m 0
  | .operand i => (t.child n i).bind t.expressionType
  | .result => t.enclosingResultType n
  | .nothing => none

/-- A look at a slot, or for an operator that is not registered. -/
inductive Look where
  | value (i : Nat) (source : TypeSource) (style : Style)
  | condition (i : Nat)
  | unknown

/-- The slot that is looked at. -/
def Look.slot : Look → Nat
  | .value i .. | .condition i => i
  | .unknown => 0

/-- Where the type for an operand is found. -/
def TypeSource.ofPattern : OperandPattern → TypeSource
  | .sameAs j => .operand (1 + j)
  | _ => .nothing

/-- The looks at the operands of a call, from a slot on. -/
def callLooks (first : Nat) (sources : List TypeSource) : List Look :=
  sources.zipIdx.map fun p ↦ .value (first + p.2) p.1 .ofCall

/-- The looks of a visit, in their order. -/
def looks (registry : Registry) (t : Tree) (n : NodeId) : List Look :=
  match t.kind n with
  | .declaration d => if d.kind.takesValue then [.value 1 (.declared n) .ofAssignment] else []
  | .statement .ret => [.value 0 .result .ofAssignment]
  | .statement .conditional | .statement .loop | .expression .ternary => [.condition 0]
  | .expression .logicalAnd | .expression .logicalOr | .expression .logicalNot =>
    (range' 1 ((t.slots n).length - 1)).map .condition
  | .expression .assign => [.value 1 (.operand 0) .ofAssignment]
  | .expression (.resolved _ (.builtin id)) =>
    match registry.get? id with
    | some op => callLooks 1 (op.operands.map .ofPattern)
    | none => [.unknown]
  | .expression (.resolved kind (.function link)) =>
    callLooks (firstArgument kind) ((t.parameters link.node).map .declared)
  | _ => []

variable {session : Session} {registry : Registry} {stream : Stream} {t t' : Tree} {n m dst : NodeId}
  {i first : Nat} {sources : List TypeSource} {source source' : TypeSource} {style style' : Style}

theorem looks_congr (hkind : t'.kind n = t.kind n) (hlength : (t'.slots n).length = (t.slots n).length)
    (hparameters : ∀ {kind link}, t.kind n = .expression (.resolved kind (.function link)) →
      t'.parameters link.node = t.parameters link.node) :
    looks registry t' n = looks registry t n := by
  unfold looks
  rw [hkind, hlength]
  split
  any_goals rfl
  next hkind => rw [hparameters hkind]

/-! ## Sites and conditions are looked at -/

theorem value_mem_callLooks : .value i source style ∈ callLooks first sources ↔
      ∃ k, sources[k]? = some source ∧ i = first + k ∧ style = .ofCall := by
  constructor
  · intro h
    obtain ⟨⟨source', k⟩, hmem, heq⟩ := mem_map.1 h
    cases heq
    exact ⟨k, mk_mem_zipIdx_iff_getElem?.1 hmem, rfl, rfl⟩
  · rintro ⟨k, hk, rfl, rfl⟩
    exact mem_map.2 ⟨(source, k), mk_mem_zipIdx_iff_getElem?.2 hk, rfl⟩

theorem slots_callLooks :
    (callLooks first sources).map Look.slot = range' first (callLooks first sources).length := by
  refine ext_getElem (by simp) fun k _ _ ↦ ?_
  simp [callLooks, Look.slot]

/-- What is declared is the node itself or a parameter. -/
theorem mem_parameters_of_mem_looks (h : .value i (.declared m) style ∈ looks registry t n) :
    m = n ∨ ∃ kind link, t.kind n = .expression (.resolved kind (.function link)) ∧
      m ∈ t.parameters link.node := by
  unfold looks at h
  split at h
  case h_10 =>
    split at h
    · obtain ⟨k, hk, -⟩ := value_mem_callLooks.1 h
      obtain ⟨pattern, -, hpattern⟩ := mem_map.1 (mem_of_getElem? hk)
      cases pattern <;> cases hpattern
    · cases mem_singleton.1 h
  case h_11 kind link hkind =>
    obtain ⟨k, hk, -⟩ := value_mem_callLooks.1 h
    exact .inr ⟨kind, link, hkind, by simpa using mem_of_getElem? hk⟩
  all_goals simp_all

theorem site_of_mem_looks (h : .value i source style ∈ looks registry t n)
    (hdst : source.read t n = some dst) : Site registry t n i dst style := by
  unfold looks at h
  split at h
  next d hkind =>
    split at h
    next hvalue =>
      cases mem_singleton.1 h
      exact .declared hkind hvalue hdst
    · cases h
  next hkind =>
    cases mem_singleton.1 h
    exact .returned hkind hdst
  case h_9 hkind =>
    cases mem_singleton.1 h
    obtain ⟨target, htarget, htype⟩ := Option.bind_eq_some_iff.1 hdst
    exact .assigned hkind htarget htype
  case h_10 hkind =>
    split at h
    next op hop =>
      obtain ⟨k, hk, rfl, rfl⟩ := value_mem_callLooks.1 h
      rw [getElem?_map] at hk
      obtain ⟨pattern, hpattern, rfl⟩ := Option.map_eq_some_iff.1 hk
      cases pattern with
      | sameAs j =>
        obtain ⟨first, hfirst, htype⟩ := Option.bind_eq_some_iff.1 hdst
        exact .operand hkind hop hpattern hfirst htype
      | _ => cases hdst
    · cases mem_singleton.1 h
  case h_11 hkind =>
    obtain ⟨k, hk, rfl, rfl⟩ := value_mem_callLooks.1 h
    rw [getElem?_map] at hk
    obtain ⟨parameter, hparameter, rfl⟩ := Option.map_eq_some_iff.1 hk
    exact .argument hkind hparameter hdst
  all_goals simp at h

theorem mem_looks_of_site (h : Site registry t n i dst style) :
    ∃ source, .value i source style ∈ looks registry t n ∧ source.read t n = some dst := by
  cases h with
  | declared hkind hvalue htype => exact ⟨.declared n, by simp [looks, hkind, hvalue], htype⟩
  | returned hkind hresult => exact ⟨.result, by simp [looks, hkind], hresult⟩
  | assigned hkind htarget htype =>
    exact ⟨.operand 0, by simp [looks, hkind], Option.bind_eq_some_iff.2 ⟨_, htarget, htype⟩⟩
  | operand hkind hop hpattern hfirst htype =>
    refine ⟨.operand _, ?_, Option.bind_eq_some_iff.2 ⟨_, hfirst, htype⟩⟩
    simp only [looks, hkind, hop]
    exact value_mem_callLooks.2 ⟨_, by rw [getElem?_map, hpattern]; rfl, rfl, rfl⟩
  | argument hkind hparameter htype =>
    refine ⟨.declared _, ?_, htype⟩
    simp only [looks, hkind]
    exact value_mem_callLooks.2 ⟨_, by rw [getElem?_map, hparameter]; rfl, rfl, rfl⟩

/-- The slots are looked at from the left to the right. -/
theorem slots_looks (registry : Registry) (t : Tree) (n : NodeId) :
    ∃ first, (looks registry t n).map Look.slot = range' first (looks registry t n).length := by
  unfold looks
  split
  case h_1 =>
    split
    · exact ⟨_, rfl⟩
    · exact ⟨0, rfl⟩
  case h_10 =>
    split
    · exact ⟨_, slots_callLooks⟩
    · exact ⟨_, rfl⟩
  case h_11 => exact ⟨_, slots_callLooks⟩
  case h_12 => exact ⟨0, rfl⟩
  any_goals exact ⟨_, rfl⟩
  all_goals exact ⟨1, by simp [Function.comp_def, Look.slot]⟩

/-- A slot is looked at once. -/
theorem eq_of_mem_looks {look look' : Look} (h : look ∈ looks registry t n) (h' : look' ∈ looks registry t n)
    (hslot : look'.slot = look.slot) : look' = look := by
  obtain ⟨first, heq⟩ := slots_looks registry t n
  exact inj_on_of_nodup_map (heq ▸ nodup_range') h' h hslot

theorem isCondition_of_mem_looks (h : .condition i ∈ looks registry t n) : (t.kind n).IsCondition i := by
  unfold looks at h
  split at h
  case h_10 =>
    split at h
    all_goals simp [callLooks] at h
  all_goals simp_all [NodeKind.IsCondition, callLooks]

theorem mem_looks_of_isCondition (h : (t.kind n).IsCondition i) (hm : t.child n i = some m) :
    .condition i ∈ looks registry t n := by
  have hi : i < (t.slots n).length := (List.getElem?_eq_some_iff.1 (Option.join_eq_some_iff.1 hm)).1
  unfold looks
  split
  all_goals simp_all [NodeKind.IsCondition]
  all_goals omega

theorem unknown_mem_looks_iff : .unknown ∈ looks registry t n ↔
    ∃ kind id, t.kind n = .expression (.resolved kind (.builtin id)) ∧ registry.get? id = none := by
  unfold looks
  split
  case h_10 =>
    split
    all_goals simp_all [callLooks]
  all_goals simp_all [callLooks]

namespace Sweep

def look (session : Session) (stream : Stream) (n : NodeId) : Look → Sweep Unit
  | .value i source style => do
    match source.read (← Pass.tree) n with
    | some dst => slot session stream n i dst style
    | none => return
  | .condition i => condition session stream n i
  | .unknown => throw .outOfRange

theorem declaredValue_eq (n : NodeId) : declaredValue session stream n =
    look session stream n (.value 1 (.declared n) .ofAssignment) := by
  unfold declaredValue look
  congr 1
  funext t
  cases h : t.child n 0 <;> simp [TypeSource.read, h]

theorem forM_callLooks : (callLooks first sources).forM (look session stream n) =
      sources.zipIdx.forM fun p ↦ look session stream n (.value (first + p.2) p.1 .ofCall) := by
  rw [callLooks, forM_eq_forM, forM_map, forM_eq_forM]

theorem builtinOperands_eq (op : Operator) : builtinOperands session stream n op =
    (callLooks 1 (op.operands.map .ofPattern)).forM (look session stream n) := by
  rw [forM_callLooks, zipIdx_map, forM_eq_forM, forM_map]
  refine congrArg (List.forM op.operands.zipIdx) ?_
  funext p
  obtain ⟨pattern, i⟩ := p
  cases pattern
  all_goals simp [look, TypeSource.read, TypeSource.ofPattern]
  all_goals rfl

theorem arguments_eq (function : NodeId) (first : Nat) : arguments session stream n function first =
    liftM Pass.tree >>= fun t ↦
      (callLooks first ((t.parameters function).map .declared)).forM (look session stream n) := by
  unfold arguments
  congr 1
  funext t
  rw [forM_callLooks, zipIdx_map, forM_eq_forM, forM_eq_forM, forM_map]
  refine congrArg (List.forM _) ?_
  funext p
  obtain ⟨pattern, i⟩ := p
  rfl

theorem run_tree_bind {α : Type} (k : Tree → Sweep α) (state : SweepState) (w : Workspace) :
    (liftM Pass.tree >>= k) state w = k w.tree state w := rfl

theorem resolvedOperator_eq (kind : OperatorKind) (target : OperatorTarget) (state : SweepState) (w : Workspace)
    (hkind : w.tree.kind n = .expression (.resolved kind target)) :
    resolvedOperator session stream n kind target state w =
      (looks session.registry w.tree n).forM (look session stream n) state w := by
  rw [looks, hkind]
  cases target with
  | builtin id =>
    cases hop : session.registry.get? id
    all_goals simp [resolvedOperator, hop, look, builtinOperands_eq]
  | function link => exact congrFun (congrFun (arguments_eq link.node _) state) w

/-- A visit takes its looks one after the other. -/
theorem node_eq (n : NodeId) : node session stream n = liftM Pass.tree >>= fun t ↦
    (looks session.registry t n).forM (look session stream n) := by
  funext state w
  rw [run_tree_bind, node, run_tree_bind]
  cases hkind : w.tree.kind n with
  | declaration d =>
    cases hd : d.kind
    all_goals simp [looks, hkind, declaredValue_eq, DeclarationKind.takesValue, hd]
  | statement s =>
    cases s
    all_goals
      cases hresult : w.tree.enclosingResultType n
      all_goals simp [looks, hkind, look, run_tree_bind, TypeSource.read, hresult]
  | expression e =>
    cases e
    case resolved kind target => exact resolvedOperator_eq kind target state w hkind
    all_goals
      cases htype : (w.tree.child n 0).bind w.tree.expressionType
      all_goals simp [looks, hkind, expression, look, run_tree_bind, forM_map, TypeSource.read, htype]
  | _ => simp [looks, hkind]

/-- Visits beneath a node, parts before wholes, that say whether one of them changed something. -/
def walk (visit : NodeId → Sweep Unit) (start : NodeId) : Pass Bool := do
  let state ← Pass.walk .post start ({} : SweepState) fun state n ↦ do
    return (← (visit n).run state).2
  return state.changed

end Sweep

end Coercion

end ProtocolIR
