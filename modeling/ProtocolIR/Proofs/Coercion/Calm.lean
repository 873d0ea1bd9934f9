import ProtocolIR.Proofs.Coercion.Fading

/-!
# Settled nodes

A sweep looks at certain slots of a node: a *site* wants its expression to have the type of a
destination, a condition wants a truth value. A slot is *calm* if nothing is to be done there, and a
node is *settled* if all its slots are calm. What echoes a settled node is settled.
-/

namespace ProtocolIR

open Tree Option NodeKind

/-- A sweep does nothing at such a node itself. -/
def NodeKind.IsInert : NodeKind → Prop
  | .type _ | .qualified _ | .literal _ | .expression .literal | .expression .coerced => True
  | _ => False

theorem NodeKind.not_isCondition_of_isInert {kind : NodeKind} {i : Nat} (h : kind.IsInert) :
    ¬kind.IsCondition i := by
  intro hcondition
  cases kind with
  | statement => exact h
  | expression e =>
    cases e with
    | literal | coerced => exact hcondition
    | _ => exact h
  | _ => exact hcondition

/-- The first operand gives the others their type, and nothing gives the first one its type. -/
def Registry.Leads (registry : Registry) : Prop :=
  ∀ {id op i j}, registry.get? id = some op → op.operands[i]? = some (.sameAs j) → j = 0 ∧ 1 ≤ i

namespace Coercion

/-- Nothing is to be done with the expression in a slot. -/
structure Calm (session : Session) (t : Tree) (n : NodeId) (i : Nat) : Prop where
  value : ∀ {dst style e c}, Site session.registry t n i dst style → t.child n i = some e →
    (t.kind e).isExpression = true → coerceExpression session.conversions t e dst style = .ok c →
      c = .unchanged
  condition : ∀ {e}, (t.kind n).IsCondition i → t.child n i = some e →
    (t.kind e).isExpression = true → Met t e

/-- A visit finds the operator that it looks up, and nothing to be done. -/
structure Settled (session : Session) (t : Tree) (n : NodeId) : Prop where
  known : ∀ {kind id}, t.kind n = .expression (.resolved kind (.builtin id)) →
    session.registry.get? id ≠ none
  calm : ∀ i, Calm session t n i

variable {session : Session} {t t' : Tree} {r : NodeId → NodeId → Prop} {a b n q q' : NodeId} {i : Nat}
  {style style' : Style}

theorem le_firstArgument (kind : OperatorKind) : 2 ≤ firstArgument kind := by
  unfold firstArgument
  split <;> omega

namespace Site

variable {registry : Registry}

/-- No site is where types are looked for. -/
theorem not_readsType (hleads : registry.Leads) (h : Site registry t n i q style) :
    ¬(t.kind n).ReadsType i := by
  cases h with
  | declared hkind => rw [hkind]; exact Nat.one_ne_zero
  | returned hkind => rw [hkind]; exact id
  | assigned hkind => rw [hkind]; exact Nat.one_ne_zero
  | operand hkind hop hpattern =>
    have hi := (hleads hop hpattern).2
    rw [hkind]
    show ¬_ ≤ 1
    omega
  | @argument kind link k _ _ hkind =>
    have hle := le_firstArgument kind
    rw [hkind]
    show ¬_ = 0
    omega

theorem not_isCondition (h : Site registry t n i q style) : ¬(t.kind n).IsCondition i := by
  cases h with
  | declared hkind | returned hkind | assigned hkind | operand hkind | argument hkind => rw [hkind]; exact id

/-- A slot has one destination. -/
theorem unique (h : Site registry t n i q style) (h' : Site registry t n i q' style') :
    q = q' ∧ style = style' := by
  obtain ⟨source, hlook, hread⟩ := mem_looks_of_site h
  obtain ⟨source', hlook', hread'⟩ := mem_looks_of_site h'
  cases eq_of_mem_looks hlook hlook' rfl
  exact ⟨some.inj (hread.symm.trans hread'), rfl⟩

/-- The destination of a site echoes the destination before. -/
theorem echo (hleads : registry.Leads) (h : Echo t t' r) (hr : r a b)
    (hsite : Site registry t' b i q' style) (hplain : (t'.kind q').isExpression = false) :
    ∃ q, Site registry t a i q style ∧ r q q' := by
  cases hsite with
  | declared hkind hvalue htype =>
    rw [h.kind hr] at hkind
    obtain ⟨type, htype, hrtype⟩ := h.other hr htype hplain
    exact ⟨type, .declared hkind hvalue htype, hrtype⟩
  | returned hkind hresult =>
    rw [h.kind hr] at hkind
    obtain ⟨result, hresult, hrresult⟩ := h.exists_enclosingResultType hr hkind hresult hplain
    exact ⟨result, .returned hkind hresult, hrresult⟩
  | assigned hkind htarget htype =>
    rw [h.kind hr] at hkind
    obtain ⟨target, htarget, hrtarget⟩ := exists_of_rel_some (h.slot hr (by rw [hkind]; rfl)) htarget
    obtain ⟨type, htype, hrtype⟩ := h.exists_expressionType hrtarget htype hplain
    exact ⟨type, .assigned hkind htarget htype, hrtype⟩
  | operand hkind hop hpattern hfirst htype =>
    rw [h.kind hr] at hkind
    have hreads := (hleads hop hpattern).1
    obtain ⟨first, hfirst, hrfirst⟩ := exists_of_rel_some
      (h.slot hr (by rw [hkind, hreads]; exact Nat.le_refl _)) hfirst
    obtain ⟨type, htype, hrtype⟩ := h.exists_expressionType hrfirst htype hplain
    exact ⟨type, .operand hkind hop hpattern hfirst htype, hrtype⟩
  | argument hkind hparameter htype =>
    rw [h.kind hr] at hkind
    obtain ⟨parameter, hparameter, hrparameter⟩ := h.exists_parameter (h.callee hr hkind) hparameter
    obtain ⟨type, htype, hrtype⟩ := h.other hrparameter htype hplain
    exact ⟨type, .argument hkind hparameter htype, hrtype⟩

end Site

/-- Where something is to be done, the destination is a type. -/
theorem exists_follow_of_coerceExpression {conversions : List Conversions} {e dst : NodeId} {c : Coercion}
    (hechoes : ∀ c ∈ conversions, c.Echoes) (h : coerceExpression conversions t e dst style = .ok c)
    (hne : c ≠ .unchanged) : ∃ d, t.follow dst = some d := by
  obtain ⟨src, -, -, -, -, -, ⟨l, -, -, hliteral⟩ | htype⟩ := exists_of_coerceExpression h hne
  · obtain ⟨_, _, d, _, -, -, hd, -⟩ :=
      literalRule_of_coerceLiteralWithin (fun c hc ↦ (hechoes c hc).literal) hliteral
    exact ⟨d, hd⟩
  · obtain ⟨-, d, -, hd⟩ := exists_follow_of_coerceType htype
    exact ⟨d, hd⟩

section Echoes

variable (hechoes : ∀ c ∈ session.conversions, c.Echoes) (hsteady : Steady session.conversions)
  (hleads : session.registry.Leads)

include hechoes hsteady hleads in
theorem Calm.echo (h : Echo t t' r) (hr : r a b) (hslot : Option.Rel r (t.child a i) (t'.child b i))
    (hcalm : Calm session t a i) : Calm session t' b i where
  value := by
    intro dst' style e' c hsite he' hexpression hok
    by_contra hne
    obtain ⟨d', hd'⟩ := exists_follow_of_coerceExpression hechoes hok hne
    obtain ⟨dst, hsite, hrdst⟩ := hsite.echo hleads h hr (isExpression_of_follow hd')
    obtain ⟨e, he, hre⟩ := exists_of_rel_some hslot he'
    obtain ⟨c', hok', hne'⟩ := coerceExpression_echo hechoes hsteady h hre hrdst hok hne
    exact hne' (hcalm.value hsite he (by rw [← h.kind hre]; exact hexpression) hok')
  condition := by
    intro e' hcondition he' hexpression
    obtain ⟨e, he, hre⟩ := exists_of_rel_some hslot he'
    rw [h.kind hr] at hcondition
    exact met_echo h hre (hcalm.condition hcondition he (by rw [← h.kind hre]; exact hexpression))

include hechoes hsteady hleads in
theorem Settled.echo (h : Echo t t' r) (hr : r a b)
    (hslots : ∀ i, Option.Rel r (t.child a i) (t'.child b i)) (hsettled : Settled session t a) :
    Settled session t' b where
  known hkind := hsettled.known (by rw [← h.kind hr]; exact hkind)
  calm i := (hsettled.calm i).echo hechoes hsteady hleads h hr (hslots i)

end Echoes

theorem settled_of_isInert (h : (t.kind n).IsInert) : Settled session t n where
  known hkind := by
    rw [hkind] at h
    exact h.elim
  calm i := by
    refine ⟨fun hsite ↦ ?_, fun hcondition ↦ (not_isCondition_of_isInert h hcondition).elim⟩
    cases hsite with
    | declared hkind | returned hkind | assigned hkind | operand hkind => rw [hkind] at h; exact h.elim
    | argument hkind => rw [hkind] at h; exact h.elim

end Coercion

end ProtocolIR
