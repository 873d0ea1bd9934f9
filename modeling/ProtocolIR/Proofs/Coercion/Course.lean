import ProtocolIR.Proofs.Coercion.Application

/-!
# The course of a sweep

A sweep takes a tree from one coercion to the next. Along its course the tree is an amendment of the
one it started with, the types that values are coerced to stay as they were, and all that is made
anew is settled. A tree is *ready* for a sweep if these types hold nothing that is left to coerce.
-/

namespace ProtocolIR

open Tree

/-- What a session is asked for: its front ends answer from what an echo shows and leave conditions
alone, and its operators take their types from the first operand. -/
structure Session.Regular (session : Session) : Prop where
  echoes : ∀ c ∈ session.conversions, c.Echoes
  steady : Coercion.Steady session.conversions
  conditions : Coercion.PlainConditions session.conversions
  leads : session.registry.Leads

theorem Session.Regular.tame {session : Session} (h : session.Regular) :
    Coercion.Tame session.conversions where
  literals c hc := (h.echoes c hc).literal
  steady := h.steady
  conditions := h.conditions

namespace Tree

variable {t t' : Tree} {g : NodeId → Prop}

/-- What is attached, and all of the trees that calls lead to from there. -/
inductive Relevant (t : Tree) : NodeId → Prop
  | root : Relevant t root
  | child {n c : NodeId} : Relevant t n → some c ∈ t.slots n → Relevant t c
  | parent {n p : NodeId} : Relevant t n → t.parent n = some p → Relevant t p
  | callee {n : NodeId} {kind : OperatorKind} {link : Link} : Relevant t n →
      t.kind n = .expression (.resolved kind (.function link)) → Relevant t link.node

/-- What is relevant or will be made later. -/
def Domain (t : Tree) (n : NodeId) : Prop := t.Has n → t.Relevant n

namespace Region

variable {t : Tree} {g : NodeId → Prop} {n a u : NodeId}

theorem below (h : Region t g) (ht : t.Linked) (hn : g n) (hwithin : t.Within n a) : g a := by
  induction hwithin with
  | here => exact hn
  | beneath hp _ ih => exact h.child ih (ht.held hp)

theorem unqualified (h : Region t g) (hn : g n) (hu : t.unqualified n = some u) : g u := by
  obtain ⟨_, -, rfl⟩ | ⟨_, -, hchild⟩ := unqualified_cases hu
  · exact hn
  · exact h.child hn (mem_slots_of_child hchild)

end Region

theorem Amended.isExpression {n : NodeId} (h : Amended t t') (hn : (t'.kind n).isExpression = false) :
    (t.kind n).isExpression = false := by
  by_cases hhas : t.Has n
  · rw [← h.kind hhas]
    exact hn
  · rw [kind_of_not_has hhas]
    rfl

/-- Each node of a region echoes itself. -/
theorem Amended.self (h : Amended t t') (hg : Region t g) :
    Echo t t' (SelfOrCopy g t fun _ _ ↦ False) :=
  h.echo hg (copied_nothing g t t')

theorem SelfOrCopy.self {a b : NodeId} (h : SelfOrCopy g t (fun _ _ ↦ False) a b) : g a ∧ t.Has a ∧ a = b :=
  h.resolve_right id

end Tree

namespace Coercion

/-- The types that values beneath the root are coerced to, with what the optionals among them hold. -/
inductive Destination (registry : Registry) (t : Tree) : NodeId → Prop
  | site {n dst : NodeId} {i : Nat} {style : Style} : t.Within root n → Site registry t n i dst style →
      Destination registry t dst
  | element {x d y : NodeId} : Destination registry t x → t.follow x = some d →
      t.shape? d = some .optional → t.child d 0 = some y → Destination registry t y

/-- A node lies in a type that a value is coerced to. -/
def Inner (registry : Registry) (t : Tree) (a : NodeId) : Prop :=
  ∃ x u, Destination registry t x ∧ t.unqualified x = some u ∧ t.Within u a

/-- In what is relevant links lead to nodes and types have their texts. The types that values are
coerced to hold nothing that is left to coerce, and no return of a function around them. -/
structure Ready (session : Session) (t : Tree) : Prop where
  rooted : t.Rooted
  closed : ∀ {n link}, t.Relevant n → (t.kind n).link? = some link → t.Has link.node
  recorded : ∀ {n data}, t.Relevant n → t.kind n = .type data → ∃ text, data.unification = some text
  settled : ∀ {a}, Inner session.registry t a → Settled session t a
  returns : ∀ {x u}, Destination session.registry t x → t.unqualified x = some u → t.OwnsReturns u

/-- From `t₀`, a sweep has come to `t`. -/
structure Course (session : Session) (t₀ t : Tree) : Prop where
  amended : Amended t₀ t
  region : Region t t₀.Domain
  slots : ∀ {a}, Inner session.registry t₀ a → t.slots a = t₀.slots a
  inner : ∀ {a}, Inner session.registry t₀ a → Settled session t a
  made : ∀ {n}, ¬t₀.Has n → t.Has n → Settled session t n

/-- What may be copied. -/
def Source (session : Session) (t₀ t : Tree) (a : NodeId) : Prop :=
  Settled session t a ∧ t₀.Domain a ∧ t.Has a

/-- What copies may be topmost: the literal in an expression, and types that own their returns. -/
def Top (t : Tree) (e a : NodeId) : Prop := t.parent a = some e ∨ t.OwnsReturns a

variable {session : Session} {t₀ t t' : Tree} {n x u a : NodeId}

theorem Ready.region (h : Ready session t) : Region t t.Domain where
  new hn hhas := absurd hhas hn
  attached hn _ := by
    induction hn with
    | here => exact .root
    | beneath hp hwithin ih => exact (ih (h.rooted.has_parent hp)).child (h.rooted.held hp)
  child hn hc _ := (hn (has_of_mem_slots hc)).child hc
  parent hn hp _ := (hn (has_of_parent hp)).parent hp
  callee hn hkind _ := (hn (has_of_kind (by simp [hkind]))).callee hkind
  closed {n link} hn hlink := by
    refine h.closed (hn (has_of_kind fun hroot ↦ ?_)) hlink
    rw [hroot] at hlink
    cases hlink
  legible hn data hkind := .inl (h.recorded (hn (has_of_kind (by simp [hkind]))) hkind)

theorem Ready.self (h : Ready session t) (hn : t.Within root n) :
    SelfOrCopy t.Domain t (fun _ _ ↦ False) n n :=
  .inl ⟨h.region.attached hn, hn.has h.rooted.has_root, rfl⟩

theorem Course.start (h : Ready session t) : Course session t t where
  amended := .refl h.rooted
  region := h.region
  slots _ := rfl
  inner := h.settled
  made hn hhas := absurd hhas hn

section Ready

variable (hready : Ready session t₀)

include hready

theorem Destination.domain (hleads : session.registry.Leads) (h : Destination session.registry t₀ x)
    (hplain : (t₀.kind x).isExpression = false) : t₀.Domain x ∧ t₀.Has x := by
  have hecho := (Amended.refl hready.rooted).self hready.region
  induction h with
  | site hn hsite =>
    obtain ⟨q, -, hq⟩ := hsite.echo hleads hecho (hready.self hn) hplain
    obtain ⟨hdomain, hhas, rfl⟩ := hq.self
    exact ⟨hdomain, hhas⟩
  | element hx hd _ hy ih =>
    obtain ⟨hdomain, hhas⟩ := ih (isExpression_of_follow hd)
    obtain ⟨s, -, hs⟩ := hecho.exists_follow (.inl ⟨hdomain, hhas, rfl⟩) hd
    obtain ⟨hdomain, -, rfl⟩ := hs.self
    exact ⟨hready.region.child hdomain (mem_slots_of_child hy), hready.rooted.has_of_child hy⟩

theorem Inner.domain (hleads : session.registry.Leads) (h : Inner session.registry t₀ a) :
    t₀.Domain a ∧ t₀.Has a := by
  obtain ⟨x, u, hx, hu, hwithin⟩ := h
  have hdomain := (hx.domain hready hleads (isExpression_of_unqualified hu)).1
  exact ⟨hready.region.below hready.rooted.toLinked (hready.region.unqualified hdomain hu) hwithin,
    hwithin.has (hready.rooted.has_of_unqualified hu)⟩

namespace Course

variable (hcourse : Course session t₀ t) (hx : Destination session.registry t₀ x)
  (hu : t₀.unqualified x = some u)

include hcourse hx hu

omit hready in
/-- The types that values are coerced to stay as they were. -/
theorem within_iff (ht : t₀.Rooted) : t.Within u a ↔ t₀.Within u a := by
  constructor
  · intro h
    induction h with
    | here => exact .here
    | @beneath a p hp _ ih =>
      have hheld := hcourse.amended.rooted'.held hp
      rw [hcourse.slots ⟨x, u, hx, hu, ih⟩] at hheld
      exact .beneath (ht.parent_of_held hheld) ih
  · intro h
    induction h with
    | here => exact .here
    | @beneath a p hp hwithin ih =>
      have hheld := ht.held hp
      rw [← hcourse.slots ⟨x, u, hx, hu, hwithin⟩] at hheld
      exact .beneath (hcourse.amended.rooted'.parent_of_held hheld) ih

theorem ownsReturns (hhas : t₀.Has u) : t.OwnsReturns u := by
  have ht := hready.rooted
  have hiff : ∀ {a}, t.Within u a ↔ t₀.Within u a := hcourse.within_iff hx hu ht
  have hfunction : ∀ {y f}, t₀.Within u y → t₀.findAncestor y NodeKind.isFunction = some f →
      t₀.Within u f → t.findAncestor y NodeKind.isFunction = some f := by
    intro y f hy hf hwithin
    induction hy with
    | here => exact absurd hwithin (not_within_of_findAncestor ht.toCoherent hf)
    | @beneath y p hp hup ih =>
      have hheld := ht.held hp
      rw [← hcourse.slots ⟨x, u, hx, hu, hup⟩] at hheld
      rw [findAncestor_of_parent ht.toCoherent hp] at hf
      rw [findAncestor_of_parent hcourse.amended.rooted'.toCoherent
        (hcourse.amended.rooted'.parent_of_held hheld), hcourse.amended.kind (ht.has_parent hp)]
      split at hf
      next hkind => rwa [if_pos hkind]
      next hkind =>
        rw [if_neg hkind]
        exact ih hf
  intro y hy hkind
  have hy₀ := hiff.1 hy
  obtain ⟨f, hf, hwithin⟩ := hready.returns hx hu y hy₀ (by rwa [← hcourse.amended.kind (hy₀.has hhas)])
  exact ⟨f, hfunction hy₀ hf hwithin, hiff.2 hwithin⟩

end Course

theorem Course.targets (hleads : session.registry.Leads) (hcourse : Course session t₀ t) (e : NodeId) :
    Targets (Source session t₀ t) (Top t e) t (Destination session.registry t₀) where
  wanted {x u data} hx hu hkind := by
    have hplain := hcourse.amended.isExpression (isExpression_of_unqualified hu)
    obtain ⟨hdomain, hhas⟩ := hx.domain hready hleads hplain
    have hu₀ : t₀.unqualified x = some u := (hcourse.amended.unqualified_eq hhas).symm.trans hu
    have hdomainU := hready.region.unqualified hdomain hu₀
    have hhasU := hready.rooted.has_of_unqualified hu₀
    obtain ⟨text, htext⟩ := hready.recorded (hdomainU hhasU) ((hcourse.amended.kind hhasU).symm.trans hkind)
    refine ⟨⟨data, text, hkind, htext⟩, fun a ha ↦ ?_, .inr (hcourse.ownsReturns hready hx hu₀ hhasU)⟩
    have ha₀ := (hcourse.within_iff hx hu₀ hready.rooted).1 ha
    exact ⟨hcourse.inner ⟨x, u, hx, hu₀, ha₀⟩, hready.region.below hready.rooted.toLinked hdomainU ha₀,
      hcourse.amended.has (ha₀.has hhasU)⟩
  element {x d y} hx hd hshape hy := by
    have hplain := hcourse.amended.isExpression (isExpression_of_follow hd)
    obtain ⟨hdomain, hhas⟩ := hx.domain hready hleads hplain
    have hecho := hcourse.amended.self hready.region
    obtain ⟨s, hs, hsd⟩ := hecho.exists_follow (.inl ⟨hdomain, hhas, rfl⟩) hd
    obtain ⟨-, hhasS, rfl⟩ := hsd.self
    have hreads : (t₀.kind s).ReadsType 0 := by
      obtain ⟨data, hkind, -⟩ := exists_data_of_follow hs
      rw [hkind]
      trivial
    refine .element hx hs ?_ ((hcourse.amended.child_eq hhasS hreads).symm.trans hy)
    rwa [← hecho.shape?_eq hsd]

theorem Course.site (hleads : session.registry.Leads) (hcourse : Course session t₀ t) {i : Nat}
    {dst : NodeId} {style : Style} (hn : t₀.Within root n) (hsite : Site session.registry t n i dst style)
    (hplain : (t.kind dst).isExpression = false) : Destination session.registry t₀ dst := by
  obtain ⟨q, hsite₀, hq⟩ := hsite.echo hleads (hcourse.amended.self hready.region) (hready.self hn) hplain
  obtain ⟨-, -, rfl⟩ := hq.self
  exact .site hn hsite₀

end Ready

/-! ## What one coercion does -/

section Placed

variable {source top g : NodeId → Prop} {e e' dst m : NodeId} {i j : Nat} {r : NodeId → NodeId → Prop}

theorem Calm.amended (hregular : session.Regular) (ham : Amended t t') (hg : Region t g) (hm : g m)
    (hhas : t.Has m) (hchild : t'.child m j = t.child m j) (hcalm : Calm session t m j) :
    Calm session t' m j := by
  refine hcalm.echo hregular.echoes hregular.steady hregular.leads (ham.self hg) (.inl ⟨hm, hhas, rfl⟩) ?_
  rw [hchild]
  cases hc : t.child m j with
  | none => exact .none
  | some c => exact .some (.inl ⟨hg.child hm (mem_slots_of_child hc), ham.rooted.has_of_child hc, rfl⟩)

/-- A value that was coerced has the type of its destination. -/
theorem calm_of_site (hregular : session.Regular) (ham : Amended t t') (hg : Region t g) (hn : g n)
    (h : Placed source top t t' n i e e' dst r) {style : Style}
    (hsite : Site session.registry t n i dst style)
    (hrecorded : ∀ {u data}, t.unqualified dst = some u → t.kind u = .type data →
      ∃ text, data.unification = some text) : Calm session t' n i where
  value := by
    intro dst' style' e'' c hsite' he'' _ hok
    by_contra hne
    obtain ⟨d, hd⟩ := exists_follow_of_coerceExpression hregular.echoes hok hne
    obtain ⟨q₀, hsite₀, hq₀⟩ := hsite'.echo hregular.leads (ham.self hg) (.inl ⟨hn, h.has_self, rfl⟩)
      (isExpression_of_follow hd)
    obtain ⟨-, hhas, rfl⟩ := hq₀.self
    obtain ⟨rfl, rfl⟩ := hsite₀.unique hsite
    cases h.child_self.symm.trans he''
    obtain ⟨src, hsrc, hres, -, hequal, -⟩ := exists_of_coerceExpression hok hne
    obtain ⟨q, hq, htype⟩ := h.typed
    cases hq.symm.trans hsrc
    obtain ⟨u, data, hu', hkind'⟩ := unqualified_of_follow hd
    have hu := (ham.unqualified_eq hhas).symm.trans hu'
    have hkind := (ham.kind (ham.rooted.has_of_unqualified hu)).symm.trans hkind'
    obtain ⟨text, htext⟩ := hrecorded hu hkind
    have hdst : t'.serialize q₀ = some text :=
      serialize_of_unification hu' (by rw [typeData?_eq_some_iff.2 hkind']; exact htext)
    have hsrc' : t'.serialize src = some text :=
      htype.serialize ham hu (by rw [typeData?_eq_some_iff.2 hkind]; exact htext) hres
    rw [typesEqual_of_serialize hdst, hsrc'] at hequal
    simp at hequal
  condition hcondition := by
    rw [h.kind h.has_self] at hcondition
    exact absurd hcondition hsite.not_isCondition

/-- A condition that was coerced is a truth value. -/
theorem calm_of_condition (ham : Amended t t') (h : Placed source top t t' n i e e' dst r)
    (hcondition : (t.kind n).IsCondition i) (hu : t.unqualified dst = some u)
    (htext : (t.typeData? u).bind TypeData.unification = some "bool") : Calm session t' n i where
  value hsite' := by
    rw [← h.kind h.has_self] at hcondition
    exact absurd hcondition hsite'.not_isCondition
  condition := by
    intro e'' _ he'' _
    cases h.child_self.symm.trans he''
    obtain ⟨q, hq, htype⟩ := h.typed
    refine .inr fun c hc ↦ ?_
    obtain ⟨src, hsrc, hc⟩ := Option.bind_eq_some_iff.1 hc
    cases hq.symm.trans hsrc
    split at hc
    · cases hc
    next hres =>
      rw [htype.serialize ham hu htext (by simpa using hres), if_pos (beq_self_eq_true _)] at hc
      exact (Option.some.inj hc).symm

end Placed

/-- From one tree of the course to a later one. -/
structure Advance (session : Session) (t₀ t t' : Tree) : Prop where
  course : Course session t₀ t'
  amended : Amended t t'
  calm : ∀ {m j}, t.Has m → t₀.Domain m → Calm session t m j → Calm session t' m j

namespace Advance

variable {t₁ t₂ : Tree} {m : NodeId}

theorem refl (h : Course session t₀ t) : Advance session t₀ t t where
  course := h
  amended := .refl h.amended.rooted'
  calm _ _ h := h

theorem trans (h : Advance session t₀ t t₁) (h' : Advance session t₀ t₁ t₂) : Advance session t₀ t t₂ where
  course := h'.course
  amended := h.amended.trans h'.amended
  calm hm hdomain hcalm := h'.calm (h.amended.has hm) hdomain (h.calm hm hdomain hcalm)

theorem settled (h : Advance session t₀ t t') (hm : t.Has m) (hdomain : t₀.Domain m)
    (hsettled : Settled session t m) : Settled session t' m where
  known hkind := hsettled.known ((h.amended.kind hm).symm.trans hkind)
  calm j := h.calm hm hdomain (hsettled.calm j)

end Advance

theorem isInert_of_novel {kind : NodeKind} (h : t.Novel kind) : kind.IsInert := by
  cases kind with
  | expression e =>
    cases e with
    | literal | coerced => trivial
    | _ => exact h.elim
  | type | qualified | literal => trivial
  | _ => exact h.elim

/-- What was calm stays so, what is made is settled, and the inner types are let alone. -/
theorem Course.advance (hready : Ready session t₀) (hleads : session.registry.Leads)
    (hcourse : Course session t₀ t) (ham : Amended t t') (hregion : Region t' t₀.Domain)
    (hcalm : ∀ {m j}, t.Has m → t₀.Domain m → Calm session t m j → Calm session t' m j)
    (hslots : ∀ {a}, t.Has a → Inner session.registry t₀ a → t'.slots a = t.slots a)
    (hmade : ∀ {b}, ¬t.Has b → t'.Has b → Settled session t' b) : Advance session t₀ t t' := by
  have hsettled : ∀ {m}, t.Has m → t₀.Domain m → Settled session t m → Settled session t' m :=
    fun hm hdm hs ↦ ⟨fun hkind ↦ hs.known ((ham.kind hm).symm.trans hkind), fun j ↦ hcalm hm hdm (hs.calm j)⟩
  refine ⟨⟨hcourse.amended.trans ham, hregion, fun ha ↦ ?_, fun ha ↦ ?_, fun {b} hb hb' ↦ ?_⟩, ham, hcalm⟩
  · rw [hslots (hcourse.amended.has (ha.domain hready hleads).2) ha, hcourse.slots ha]
  · obtain ⟨hdomain, hhas⟩ := ha.domain hready hleads
    exact hsettled (hcourse.amended.has hhas) hdomain (hcourse.inner ha)
  · by_cases hb₁ : t.Has b
    · exact hsettled hb₁ (fun hhas ↦ absurd hhas hb) (hcourse.made hb hb₁)
    · exact hmade hb₁ hb'

/-- A slot that was not calm becomes calm. What is copied was settled, so the copies are. -/
theorem Course.place (hready : Ready session t₀) (hregular : session.Regular)
    (hcourse : Course session t₀ t) {e e' dst : NodeId} {i : Nat} {r : NodeId → NodeId → Prop}
    (hn : t₀.Within root n) (ht' : t'.Rooted)
    (h : Placed (Source session t₀ t) (Top t e) t t' n i e e' dst r) (hreads : ¬(t.kind n).ReadsType i)
    (hbusy : ¬Calm session t n i) (hcalm : Calm session t' n i) : Advance session t₀ t t' := by
  have ht := hcourse.amended.rooted'
  have ham := h.amended ht ht' hreads
  have hsource : ∀ {a}, Source session t₀ t a → t₀.Domain a ∧ t.Has a := fun ha ↦ ha.2
  refine hcourse.advance hready hregular.leads ham
    (h.region ht ht' hreads hcourse.region (hready.region.attached hn) hsource) (fun {m j} hm hdm hmj ↦ ?_)
    (fun hhas ha ↦ h.slots_of_ne hhas fun heq ↦ hbusy (heq ▸ (hcourse.inner ha).calm i))
    fun {b} hb hb' ↦ ?_
  · by_cases hplace : m = n ∧ j = i
    · rw [hplace.1, hplace.2]
      exact hcalm
    · refine hmj.amended hregular ham hcourse.region hdm hm (h.child_of_ne hm ?_)
      by_contra hnot
      rw [not_or, not_not, not_not] at hnot
      exact hplace hnot
  · rcases h.novel hb hb' with ⟨a, hab⟩ | hnovel
    · have hcopied := h.copied ht ht' hcourse.region hsource id
      refine (h.copy_source hab).1.echo hregular.echoes hregular.steady hregular.leads
        (ham.echo hcourse.region hcopied) (.inr hab) fun j ↦ ?_
      exact Carries.rel_join_of_forall₂ (forall₂_rel_mono .inr (h.copies.slots hab)) j
    · exact settled_of_isInert (isInert_of_novel hnovel)

end Coercion

end ProtocolIR
