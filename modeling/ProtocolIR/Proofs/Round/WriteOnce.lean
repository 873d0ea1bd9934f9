import Mathlib.Logic.Relation
import ProtocolIR.Node.Class
import ProtocolIR.Proofs.Learning
import ProtocolIR.Proofs.Round.Coherence

/-!
# Facts are written once

A round is made of passes that only learn. So over any number of rounds, from any workspace and
beneath any nodes, the nodes that were there keep their classes, and a fact that was known about one
of them once stays as it was.
-/

namespace ProtocolIR

open Tree

/-! ## What is known of a node -/

/-- What can become known about a node, as far as its class has it. -/
structure Facts where
  /-- What a name refers to, as an expression or as a type. -/
  link : Option Link := none
  canonicalId : Option String := none
  typeId : Option String := none
  unification : Option String := none
  /-- The value of a label. -/
  value : Option Int64 := none
  /-- The declaration of the enum of a label, or of the type of a method. -/
  owner : Option Link := none
  prototype : Option Link := none
  /-- What a resolved operator stands for. -/
  target : Option OperatorTarget := none
  deriving DecidableEq, Inhabited

/-- Whatever is known in the first is known in the second, with the same value. -/
structure Facts.Kept (facts facts' : Facts) : Prop where
  link : Settled facts.link facts'.link
  canonicalId : Settled facts.canonicalId facts'.canonicalId
  typeId : Settled facts.typeId facts'.typeId
  unification : Settled facts.unification facts'.unification
  value : Settled facts.value facts'.value
  owner : Settled facts.owner facts'.owner
  prototype : Settled facts.prototype facts'.prototype
  target : Settled facts.target facts'.target

theorem Facts.Kept.refl (facts : Facts) : facts.Kept facts :=
  ⟨.refl _, .refl _, .refl _, .refl _, .refl _, .refl _, .refl _, .refl _⟩

def TypeShape.link? : TypeShape → Option Link
  | .name _ resolved => resolved
  | _ => none

def NodeKind.facts : NodeKind → Facts
  | .declaration d =>
    match d.kind with
    | .label value _ owner => { canonicalId := d.canonicalId, value, owner }
    | .function owner prototype => { canonicalId := d.canonicalId, owner, prototype }
    | _ => { canonicalId := d.canonicalId }
  | .type data =>
    { link := data.shape.link?, typeId := data.typeId, unification := data.unification }
  | .expression (.name _ resolved) => { link := resolved }
  | .expression (.resolved _ target) => { target := some target }
  | _ => {}

namespace NodeKind.Refines

variable {k k' : NodeKind}

theorem nodeClass_eq (h : Refines k k') : k'.nodeClass = k.nodeClass := by
  cases h with
  | same => rfl
  | @declaration d d' hd =>
    obtain ⟨id, linkage, canonicalId, kind⟩ := d
    obtain ⟨id', linkage', canonicalId', kind'⟩ := d'
    cases hd.kind <;> rfl
  | @type data data' ht =>
    obtain ⟨shape, wildcard, unification, typeId⟩ := data
    obtain ⟨shape', wildcard', unification', typeId'⟩ := data'
    cases ht.shape <;> rfl
  | name _ => rfl

theorem kept (h : Refines k k') : k.facts.Kept k'.facts := by
  cases h with
  | same => exact .refl _
  | @declaration d d' hd =>
    obtain ⟨id, linkage, canonicalId, kind⟩ := d
    obtain ⟨id', linkage', canonicalId', kind'⟩ := d'
    have hid := hd.canonicalId
    cases hd.kind with
    | same =>
      cases kind with
      | _ => exact { Facts.Kept.refl _ with canonicalId := hid }
    | function ho hp => exact { Facts.Kept.refl _ with canonicalId := hid, owner := ho, prototype := hp }
    | label hv ho => exact { Facts.Kept.refl _ with canonicalId := hid, value := hv, owner := ho }
  | @type data data' ht =>
    have hlink : Settled data.shape.link? data'.shape.link? := by
      obtain ⟨hshape, -, -, -⟩ := ht
      generalize data.shape = s at hshape ⊢
      generalize data'.shape = s' at hshape ⊢
      cases hshape with
      | same => exact .refl _
      | name hr => exact hr
    exact { Facts.Kept.refl _ with link := hlink, typeId := ht.typeId, unification := ht.unification }
  | name hr => exact { Facts.Kept.refl _ with link := hr }

end NodeKind.Refines

/-! ## Rounds -/

theorem Tree.Refines.of_sameNodes {t t' : Tree} (h : SameNodes t t') : t.Refines t' where
  size_le := Nat.le_of_eq h.size_eq.symm
  kind _ := by rw [h.kind_eq]; exact .same _

namespace Round

theorem learns_run {session : Session} {frontEnds : List FrontEnd} {start : NodeId}
    (hscopes : ∀ f ∈ frontEnds, ∀ t, SameNodes t (f.buildScopes t start))
    (hresolve : ∀ f ∈ frontEnds, ∀ w, Learns (f.resolve session start) w) (w : Workspace) :
    Learns (run frontEnds session start) w := by
  refine (leads_modifyTree (.of_sameNodes (sameNodes_clearScopes w.tree))).bind fun _ w ↦ ?_
  unfold Leads
  refine ensures_foldlM (fun changed w' f hf hw' ↦ ?_) (Refines.refl w.tree)
  have hstep : Learns (do return (← step session start f) || changed) w' := by
    refine Leads.bind ((leads_debug .driver _).bind fun _ w ↦ ?_) fun _ _ ↦ leads_pure _
    refine (leads_modifyTree (.of_sameNodes (hscopes f hf w.tree))).bind fun _ w ↦ ?_
    refine (CanonicalId.learns_assign start w).bind fun _ w ↦ (hresolve f hf w).bind fun _ w ↦ ?_
    refine (Unification.leads_unify .of_unifyType start w).bind fun _ w ↦ ?_
    exact (Coercion.learns_walk_sweep (Coercion.Sweep.learning_node session .coercer) start w).bind
      fun _ _ ↦ leads_pure _
  exact hstep.mono fun _ _ hw'' ↦ hw'.trans hw''

end Round

namespace Compiler

variable (options : Options) {w w' : Workspace}

/-- One workspace comes from another by a round of the standard compiler beneath some node. -/
def RoundFrom (w w' : Workspace) : Prop :=
  ∃ start changed,
    Round.run (standard options).frontEnds (standard options).session start w = .ok (changed, w')

theorem refines_of_round (h : RoundFrom options w w') : w.tree.Refines w'.tree := by
  obtain ⟨start, changed, hrun⟩ := h
  refine Round.learns_run (fun f hf t ↦ sameNodes_frontEnd hf t start) (fun f hf w ↦ ?_) w changed w' hrun
  obtain rfl | rfl := eq_of_mem_frontEnds hf
  · exact Coercion.learns_walk_sweep (Units.Resolution.learning_resolveNode _) start w
  · exact (Resolution.learns_resolve _ start w).bind fun _ w ↦
      (Enumeration.learns_normalize start w).bind fun _ _ ↦ leads_pure _

theorem refines_of_rounds (h : Relation.ReflTransGen (RoundFrom options) w w') :
    w.tree.Refines w'.tree := by
  induction h with
  | refl => exact .refl _
  | tail _ hround ih => exact ih.trans (refines_of_round options hround)

/-- From any workspace whatever, over any number of rounds of the standard compiler beneath any
nodes, a node that was there is there, has the class it had, and what was known about it is as it
was. -/
theorem facts_kept_of_rounds {w w' : Workspace} (h : Relation.ReflTransGen (RoundFrom options) w w')
    {n : NodeId} (hn : w.tree.Has n) :
    w'.tree.Has n ∧ (w'.tree.kind n).nodeClass = (w.tree.kind n).nodeClass ∧
      (w.tree.kind n).facts.Kept (w'.tree.kind n).facts := by
  have hrefines := refines_of_rounds options h
  have hkind := hrefines.kind hn
  exact ⟨hrefines.has hn, hkind.nodeClass_eq, hkind.kept⟩

/-- A module with a type and a variable that names it, before anything is resolved. -/
def namedVariable : Tree := .ofRows [
  (.root, [7]),
  (.shaped .bool, []),
  (.value .const, [1]),
  (.declares "T" .type .external, [2]),
  (.shaped (.name (.ofText "T") none), []),
  (.place, [4]),
  (.declares "x" .globalVariable .external, [5, 0]),
  (.declares "m" .module .external, [3, 6])]

/-- The name of the type is bound in the first round and is bound to the same after the second. -/
theorem facts_kept_of_rounds_named :
    ∃ w w' : Workspace, RoundFrom {} ⟨namedVariable, #[]⟩ w ∧ RoundFrom {} w w' ∧ w.tree.Has ⟨4⟩ ∧
      (w.tree.kind ⟨4⟩).facts =
        { link := some ⟨⟨3⟩, some "m::T"⟩, unification := some "bool" } ∧
      w'.tree.Has ⟨4⟩ ∧ (w'.tree.kind ⟨4⟩).nodeClass = (w.tree.kind ⟨4⟩).nodeClass ∧
      (w.tree.kind ⟨4⟩).facts.Kept (w'.tree.kind ⟨4⟩).facts := by
  have hfirst : ((round {} ⟨namedVariable, #[]⟩).map fun r ↦
      (r.2.tree.size, (r.2.tree.kind ⟨4⟩).facts, (round {} r.2).isOk)).toOption =
      some (8, { link := some ⟨⟨3⟩, some "m::T"⟩, unification := some "bool" }, true) := by
    decide +kernel
  cases hround : round {} ⟨namedVariable, #[]⟩ with
  | error f => rw [hround] at hfirst; cases hfirst
  | ok r =>
    obtain ⟨changed, w⟩ := r
    rw [hround] at hfirst
    simp only [Except.map, Except.toOption, Option.some.injEq, Prod.mk.injEq] at hfirst
    obtain ⟨hsize, hfacts, hok⟩ := hfirst
    cases hnext : round {} w with
    | error f => rw [hnext] at hok; cases hok
    | ok r' =>
      have hrounds : RoundFrom {} w r'.2 := ⟨root, r'.1, hnext⟩
      have hhas : w.tree.Has ⟨4⟩ := by show 4 < w.tree.size; omega
      exact ⟨w, r'.2, ⟨root, changed, hround⟩, hrounds, hhas, hfacts,
        facts_kept_of_rounds {} (.single hrounds) hhas⟩

end Compiler

end ProtocolIR
