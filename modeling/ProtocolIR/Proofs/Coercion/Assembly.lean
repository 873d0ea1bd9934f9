import ProtocolIR.Proofs.Coercion.Echo

/-!
# What a coercion builds

The literal or the target type that a coercion puts in place is assembled beside the tree: from
copies of what the tree has, and from new nodes around them. Copies are taken of whole types, or
of the old literal, and each copy but the topmost is held by a copy of what holds its source.
-/

namespace ProtocolIR

open Tree List Option

variable {t t₁ t₂ : Tree} {n c u dst q : NodeId} {source top : NodeId → Prop}
  {r : NodeId → NodeId → Prop} {slots : List (Option NodeId)} {location : Option Location}

namespace Tree

/-- Every new node that no slot holds is one of these. -/
def Loose (t t' : Tree) (cs : List (Option NodeId)) : Prop :=
  ∀ {b}, ¬t.Has b → t'.Has b → t'.parent b = none → some b ∈ cs

theorem Loose.create {kind : NodeKind} (h : Loose t t₁ slots)
    (hcreate : t₁.create kind slots location = .ok (c, t₂)) : Loose t t₂ [some c] := by
  intro b hb hb' hfree
  by_cases hbc : b = c
  · rw [hbc]
    exact mem_singleton_self _
  · have hb₁ := has_of_has_create hcreate hb' hbc
    unfold parent at hfree
    rw [node_create_of_has hcreate hb₁] at hfree
    split at hfree
    · cases hfree
    next hnot => exact absurd (h hb hb₁ hfree) hnot

/-- One thing after the other leaves loose what both leave. -/
theorem Loose.append {cs cs' : List (Option NodeId)} (h : Loose t t₁ cs) (h' : Loose t₁ t₂ cs')
    (hg : Growth t₁ t₂) : Loose t t₂ (cs ++ cs') := by
  intro b hb hb' hfree
  by_cases hb₁ : t₁.Has b
  · rw [hg.parent_eq hb₁] at hfree
    exact mem_append_left _ (h hb hb₁ hfree)
  · exact mem_append_right _ (h' hb₁ hb' hfree)

/-- All of a copy hangs together. -/
theorem Duplicated.loose {slots' : List (Option NodeId)} (h : Duplicated slots t slots' t₁) :
    Loose t t₁ slots' := by
  induction h with
  | nil t => exact fun hb hb' ↦ absurd hb' hb
  | empty _ ih => exact fun hb hb' hfree ↦ mem_cons_of_mem _ (ih hb hb' hfree)
  | node _ hcreate hrest ihparts ih =>
    refine Loose.append (?_ : Loose _ _ [some _]) ih hrest.pieces.1
    intro b hb hb' hfree
    exact ihparts.create hcreate hb (by simpa using hb') (by simpa using hfree)

/-- Kinds of nodes that are made anew: what stands around copies, plain types with their text, and
names for declared types. -/
def Novel (t : Tree) : NodeKind → Prop
  | .qualified _ | .literal _ | .expression .literal | .expression .coerced => True
  | .type data =>
    (NodeKind.type data).link? = none ∧ (∃ text, data.unification = some text) ∨ t.NamesRecorded data
  | _ => False

/-- The new nodes are copies of nodes in `source`, related by `r`, and other new nodes. Copies that are
not held by copies are copies of nodes in `top`. -/
structure Assembled (source top : NodeId → Prop) (t t' : Tree) (r : NodeId → NodeId → Prop) : Prop
    extends Growth t t', Replicas t t t' r where
  source : ∀ {a b}, r a b → source a
  held : ∀ {a b}, r a b → top a ∨ ∃ p p', r p p' ∧ some b ∈ t'.slots p'
  novel : ∀ {b}, ¬t.Has b → t'.Has b → (∃ a, r a b) ∨ t.Novel (t'.kind b)
  inside : ∀ {b c}, ¬t.Has b → some c ∈ t'.slots b → ¬t.Has c

namespace Assembled

theorem nothing (source top : NodeId → Prop) (t : Tree) : Assembled source top t t fun _ _ ↦ False where
  toGrowth := .refl t
  toReplicas := .nothing t t t
  source h := h.elim
  held h := h.elim
  novel hb hb' := absurd hb' hb
  inside hb hc := absurd (has_of_mem_slots hc) hb

theorem create {kind : NodeKind} (h : Assembled source top t t₁ r)
    (hpieces : Pieces t t₁ slots) (hkind : t.Novel kind)
    (hcreate : t₁.create kind slots location = .ok (c, t₂)) : Assembled source top t t₂ r where
  toGrowth := h.toGrowth.create hpieces hcreate
  toReplicas := h.toReplicas.congr (fun hr ↦ (Refines.of_create hcreate).has (h.present hr))
    (fun hr ↦ kind_create_of_has hcreate (h.present hr)) fun hr ↦ slots_create_of_has hcreate (h.present hr)
  source := h.source
  held hr := (h.held hr).imp_right fun ⟨p, p', hp, hb⟩ ↦ by
    refine ⟨p, p', hp, ?_⟩
    rwa [slots_create_of_has hcreate (h.present hp)]
  novel {b} hb hb' := by
    by_cases hbc : b = c
    · rw [hbc, kind_create_self hcreate]
      exact .inr hkind
    · have hb₁ := has_of_has_create hcreate hb' hbc
      rw [kind_create_of_has hcreate hb₁]
      exact h.novel hb hb₁
  inside {b d} hb hd := by
    by_cases hbc : b = c
    · rw [hbc, slots_create_self hcreate] at hd
      exact (hpieces.piece hd).new
    · rw [slots_create_of_has hcreate (has_of_has_create hcreate (has_of_mem_slots hd) hbc)] at hd
      exact h.inside hb hd

/-- Copies of copies do not occur: all sources are in the first tree. -/
theorem append {r' : NodeId → NodeId → Prop} (h : Assembled source top t t₁ r)
    (hcopies : Copies t t₁ t₂ r') (hg : Growth t₁ t₂) (hsource : ∀ {a b}, r' a b → source a)
    (hheld : ∀ {a b}, r' a b → top a ∨ ∃ p p', r' p p' ∧ some b ∈ t₂.slots p') :
    Assembled source top t t₂ fun a b ↦ r a b ∨ r' a b where
  toGrowth := h.toGrowth.trans hg
  toReplicas := h.toReplicas.append hcopies.toReplicas h.toGrowth hg
  source := by
    rintro a b (hr | hr)
    · exact h.source hr
    · exact hsource hr
  held := by
    rintro a b (hr | hr)
    · refine (h.held hr).imp_right fun ⟨p, p', hp, hb⟩ ↦ ⟨p, p', .inl hp, ?_⟩
      rwa [hg.slots_eq (h.present hp)]
    · exact (hheld hr).imp_right fun ⟨p, p', hp, hb⟩ ↦ ⟨p, p', .inr hp, hb⟩
  novel {b} hb hb' := by
    by_cases hb₁ : t₁.Has b
    · rw [hg.kind_eq hb₁]
      exact (h.novel hb hb₁).imp_left fun ⟨a, hr⟩ ↦ ⟨a, .inl hr⟩
    · obtain ⟨a, hr⟩ := hcopies.total hb₁ hb'
      exact .inl ⟨a, .inr hr⟩
  inside {b d} hb hd hhas := by
    by_cases hb₁ : t₁.Has b
    · rw [hg.slots_eq hb₁] at hd
      exact h.inside hb hd hhas
    · obtain ⟨a, hr⟩ := hcopies.total hb₁ (has_of_mem_slots hd)
      obtain ⟨slot, -, hrel⟩ := exists_mem_of_mem_forall₂ (hcopies.slots hr) hd
      cases hrel with
      | some hr' => exact hcopies.new hr' (h.has hhas)

end Assembled

/-- All that is copied lies beneath the topmost node, and all copies but the topmost are held by
copies. The induction is on the way up from a copy. -/
theorem within_of_copies (ht : t.Linked) (hg : Growth t t₁) (hg' : Growth t₁ t₂)
    (ht₂ : t₂.Coherent) (hcopies : Copies t t₁ t₂ r) (hloose : Loose t₁ t₂ [some c]) (hr : r n c)
    {a b : NodeId} (hab : r a b) :
    t.Within n a ∧ (a = n ∨ ∃ p p', r p p' ∧ some b ∈ t₂.slots p') := by
  induction ht₂.grounded b generalizing a with
  | @top b hfree =>
    cases mem_singleton.1 (hloose (hcopies.new hab) (hcopies.present hab) hfree)
    cases hcopies.unique hab hr
    exact ⟨.here, .inl rfl⟩
  | @beneath b p' hp' _ ih =>
    have hheld := ht₂.held hp'
    have hnew : ¬t₁.Has p' := fun hhas ↦ by
      rw [hg'.slots_eq hhas] at hheld
      exact hcopies.new hab ((hg.linked ht).has_of_held hheld)
    obtain ⟨p, hp⟩ := hcopies.total hnew (has_of_mem_slots hheld)
    obtain ⟨slot, hslot, hrel⟩ := exists_mem_of_mem_forall₂ (hcopies.slots hp) hheld
    cases hrel with
    | some hr' =>
      cases hcopies.unique hab hr'
      exact ⟨.beneath (ht.parent_of_held hslot) (ih hp).1, .inr ⟨p, p', hp, hheld⟩⟩

theorem Assembled.ensures_copy (h : Assembled source top t t₁ r) (ht : t.Coherent) (hn : t.Has n)
    (hsource : ∀ a, t.Within n a → source a) (htop : top n) :
    Ensures (Surgery.copy n) t₁ fun c t₂ ↦ ∃ r', Assembled source top t t₂ r' ∧
      r' n c ∧ Growth t₁ t₂ ∧ Piece t₁ t₂ c := by
  refine (safe_copy n t₁).ensures.mono fun c t₂ hcopied ↦ ?_
  obtain ⟨hg, hpieces⟩ := hcopied.pieces
  obtain ⟨r', hcopies, hrel, -⟩ := hcopied.copies ht.toLinked h.toGrowth fun m hm ↦ by
    cases mem_singleton.1 hm
    exact hn
  obtain ⟨⟨hr'⟩, -⟩ := forall₂_cons.1 hrel
  have ht₂ := (h.toGrowth.trans hg).coherent ht
  have hwithin : ∀ {a b}, r' a b → t.Within n a ∧ (a = n ∨ ∃ p p', r' p p' ∧ some b ∈ t₂.slots p') :=
    fun hab ↦ within_of_copies ht.toLinked h.toGrowth hg ht₂ hcopies hcopied.loose hr' hab
  refine ⟨_, h.append hcopies hg (fun hab ↦ hsource _ (hwithin hab).1) (fun hab ↦ ?_), .inr hr', hg,
    hpieces.piece (mem_singleton_self _)⟩
  refine (hwithin hab).2.imp_left fun heq ↦ ?_
  rw [heq]
  exact htop

/-- A reference to a type: a copy of it, or a name for the declaration of it. -/
def Denotes (t : Tree) (u : NodeId) (kind : NodeKind) : Prop :=
  kind = t.kind u ∨ ∃ id link, kind = .type { shape := .name id (some link) } ∧
    t.declaredType link.node = some u

/-- A type that may be wanted: its text is on record, and all of it may be copied. -/
structure Wanted (source top : NodeId → Prop) (t : Tree) (u : NodeId) : Prop where
  recorded : ∃ data text, t.kind u = .type data ∧ data.unification = some text
  source : ∀ a, t.Within u a → source a
  top : top u

theorem Wanted.has (h : Wanted source top t u) : t.Has u := by
  obtain ⟨data, -, hkind, -⟩ := h.recorded
  exact has_of_kind (by simp [hkind])

theorem Assembled.ensures_typeReference (h : Assembled source top t t₁ r) (ht : t.Coherent)
    (hu : Wanted source top t u) :
    Ensures (Surgery.typeReference u) t₁ fun c t₂ ↦ (∃ r', Assembled source top t t₂ r') ∧
      Growth t₁ t₂ ∧ Piece t₁ t₂ c ∧ t.Denotes u (t₂.kind c) := by
  have hcopy : Ensures (Surgery.copy u) t₁ fun c t₂ ↦ (∃ r', Assembled source top t t₂ r') ∧
      Growth t₁ t₂ ∧ Piece t₁ t₂ c ∧ t.Denotes u (t₂.kind c) := by
    refine (h.ensures_copy ht hu.has hu.source hu.top).mono ?_
    rintro c t₂ ⟨r', h', hc, hg, hpiece⟩
    exact ⟨⟨r', h'⟩, hg, hpiece, .inl (h'.kind hc)⟩
  obtain ⟨data, text, hkind, htext⟩ := hu.recorded
  have hkind₁ : t₁.kind u = .type data := by rw [h.kind_eq hu.has, hkind]
  have hself := unqualified_of_type hkind₁
  unfold Surgery.typeReference
  refine ensures_get_bind ?_
  rw [hself]
  split
  · exact hcopy
  next v decl hdecl =>
    split
    · exact hcopy
    next d hd =>
      obtain ⟨_, hdecl', heq⟩ := map_eq_some_iff.1 hdecl
      cases heq
      -- the declaration declares the type in the first tree already
      have hdeclared : t.declaredType decl = some u := by
        obtain ⟨hgrand, hfilter⟩ := filter_eq_some_iff.1 hdecl'
        have hdeclared₁ := eq_of_beq hfilter
        obtain ⟨q, hq, hdecl⟩ := bind_eq_some_iff.1 hgrand
        rw [h.parent_eq hu.has] at hq
        have hqhas := ht.has_parent hq
        rw [h.parent_eq hqhas] at hdecl
        have hdhas := ht.has_parent hdecl
        unfold declaredType at hdeclared₁ ⊢
        rw [h.kind_eq hdhas] at hdeclared₁
        split at hdeclared₁
        next htype =>
          rw [if_pos htype]
          obtain ⟨c, hc, hun⟩ := bind_eq_some_iff.1 hdeclared₁
          rw [child_congr (h.slots_eq hdhas)] at hc
          have hchas := ht.has_of_child hc
          rw [unqualified_congr (h.kind_eq hchas) (h.slots_eq hchas)] at hun
          exact bind_eq_some_iff.2 ⟨c, hc, hun⟩
        · cases hdeclared₁
      have hqualifiers : t₁.qualifiers? u = none := by
        unfold qualifiers?
        rw [hkind₁]
      have hnovel (id : QualifiedId) : t.Novel (.type { shape := .name id (some (t₁.linkTo decl)) }) :=
        .inr ⟨rfl, rfl, _, _, u, text, rfl, hdeclared, by rw [typeData?_eq_some_iff.2 hkind]; exact htext⟩
      refine (ensures_create_eq _ _ _).bind fun name t₂ hcreate ↦ ?_
      simp only [hqualifiers]
      exact ensures_pure ⟨⟨r, h.create (.nil t t₁) (hnovel _) hcreate⟩,
        (Growth.refl t₁).create (.nil t₁ t₁) hcreate, piece_create (.refl t₁) (.nil t₁ t₁) hcreate,
        .inr ⟨_, _, kind_create_self hcreate, hdeclared⟩⟩

/-- A value type of the second tree for a destination in the first. -/
structure TypeFor (t t' : Tree) (dst q : NodeId) : Prop where
  qualified : ∃ qualifiers, t'.kind q = .qualified qualifiers
  exists_type : ∃ u c, t.unqualified dst = some u ∧ t'.slots q = [some c] ∧ t'.Has c ∧
    t.Denotes u (t'.kind c)

theorem TypeFor.has {t' : Tree} (h : TypeFor t t' dst q) : t'.Has q := by
  obtain ⟨_, hkind⟩ := h.qualified
  exact has_of_kind (by simp [hkind])

theorem TypeFor.of_same (h : TypeFor t t₁ dst q) (hsize : t₁.size ≤ t₂.size)
    (hkind : ∀ {m}, t₁.Has m → t₂.kind m = t₁.kind m) (hslots : t₂.slots q = t₁.slots q) :
    TypeFor t t₂ dst q where
  qualified := by
    rw [hkind h.has]
    exact h.qualified
  exists_type := by
    obtain ⟨u, c, hu, hsq, hc, hdenotes⟩ := h.exists_type
    exact ⟨u, c, hu, hslots.trans hsq, Nat.lt_of_lt_of_le hc hsize, by rwa [hkind hc]⟩

/-- The destinations of a literal, with what the optionals among them hold. -/
structure Targets (source top : NodeId → Prop) (t : Tree) (p : NodeId → Prop) : Prop where
  wanted : ∀ {x u data}, p x → t.unqualified x = some u → t.kind u = .type data → Wanted source top t u
  element : ∀ {x d y}, p x → t.follow x = some d → t.shape? d = some .optional →
    t.child d 0 = some y → p y

/-- The target type that is put in place stands for the wanted type. -/
theorem Assembled.ensures_targetType (h : Assembled source top t t₁ r) (ht : t.Coherent)
    (hu : t.unqualified dst = some u) (hwanted : Wanted source top t u) (constness : Constness) :
    Ensures (Coercion.targetType dst constness) t₁ fun q t₂ ↦ (∃ r', Assembled source top t t₂ r') ∧
      Growth t₁ t₂ ∧ Piece t₁ t₂ q ∧ TypeFor t t₂ dst q := by
  have hdst := has_of_unqualified_eq hu
  refine ensures_get_bind ?_
  rw [unqualified_congr (h.kind_eq hdst) (h.slots_eq hdst), hu]
  refine (h.ensures_typeReference ht hwanted).bind ?_
  rintro c t₂ ⟨⟨r', h'⟩, hg, hpiece, hdenotes⟩
  refine ensures_get_bind ((ensures_create_eq _ _ _).mono fun q t₃ hcreate ↦ ?_)
  have hpieces : Pieces t t₂ [some c] := .single (hpiece.weaken h.toGrowth)
  have hnovel : t.Novel (.qualified (.value constness)) := trivial
  refine ⟨⟨r', h'.create hpieces hnovel hcreate⟩, hg.create (.single hpiece) hcreate,
    piece_create hg (.single hpiece) hcreate, ⟨_, kind_create_self hcreate⟩, u, c, hu,
    slots_create_self hcreate, ?_, ?_⟩
  · exact (Refines.of_create hcreate).has hpiece.has
  · rwa [kind_create_of_has hcreate hpiece.has]

end Tree

namespace Coercion

variable {p : NodeId → Prop} {old : NodeId} {conversions : List Conversions} {style : Style} {l : Literal}

/-- A literal whose type stands for a destination. -/
def Remade (source top : NodeId → Prop) (t : Tree) (dst l : NodeId) (t' : Tree) : Prop :=
  (∃ r, Assembled source top t t' r) ∧ Piece t t' l ∧
    ∃ q rest, t'.slots l = some q :: rest ∧ TypeFor t t' dst q

theorem remade_create {l : NodeId} {literal : Literal} {rest : List (Option NodeId)}
    (h : Assembled source top t t₁ r) (htype : TypeFor t t₁ dst q) (hpieces : Pieces t t₁ (some q :: rest))
    (hcreate : t₁.create (.literal literal) (some q :: rest) location = .ok (l, t₂)) :
    Remade source top t dst l t₂ := by
  have hnovel : t.Novel (.literal literal) := trivial
  have htype₂ : TypeFor t t₂ dst q := htype.of_same (Refines.of_create hcreate).size_le
    (kind_create_of_has hcreate) (slots_create_of_has hcreate htype.has)
  exact ⟨⟨r, h.create hpieces hnovel hcreate⟩, piece_create h.toGrowth hpieces hcreate,
    q, rest, slots_create_self hcreate, htype₂⟩

/-- A literal that goes into an optional fits what the optional holds. -/
theorem exists_element_of_literalRule {recurse : NodeId → Except NoMatch Unit} {d : NodeId}
    (hneeds : needsOptional l .optional = true)
    (h : literalRule t style recurse old l d .optional = .ok ()) :
    ∃ element src, t.child d 0 = some element ∧ t.child old 0 = some src ∧
      (t.typesEqual src element = true ∨ recurse element = .ok ()) := by
  cases l with
  | null | optional => cases hneeds
  | _ =>
    simp only [literalRule] at h
    split at h
    next element src helement hsrc =>
      refine ⟨element, src, helement, hsrc, ?_⟩
      split at h
      next hequal => exact .inl hequal
      · exact .inr h
    · cases h

theorem unqualified_of_follow {d : NodeId} (h : t.follow dst = some d) :
    ∃ u data, t.unqualified dst = some u ∧ t.kind u = .type data := by
  obtain ⟨u, hu, hd⟩ := bind_eq_some_iff.1 h
  obtain ⟨data, hkind⟩ := exists_type_of_followWithin hd
  exact ⟨u, data, hu, hkind⟩

/-- The literal inside goes into an optional. -/
theorem ensures_remade_optional {inner : NodeId} (h : Assembled source top t t₁ r) (ht : t.Coherent)
    (hu : t.unqualified dst = some u) (hwanted : Wanted source top t u) (hinner : Piece t t₁ inner)
    (location : Option Location) :
    Ensures (do
      let value ← Surgery.create (.expression .literal) [some inner] location
      let type ← targetType dst .const
      Surgery.create (.literal .optional) [some type, some value] location) t₁
      (Remade source top t dst) := by
  have hnovel : t.Novel (.expression .literal) := trivial
  refine (ensures_create_eq _ _ _).bind fun value t₂ hvalue ↦ ?_
  have h₂ := h.create (.single hinner) hnovel hvalue
  have hpiece₂ := piece_create h.toGrowth (.single hinner) hvalue
  refine (h₂.ensures_targetType ht hu hwanted .const).bind ?_
  rintro type t₃ ⟨⟨r', h₃⟩, hg, hpiece, htype⟩
  have hne : type ≠ value := fun heq ↦ hpiece.new (by rw [heq]; exact hpiece₂.has)
  have hpieces : Pieces t t₃ [some type, some value] :=
    .pair (hpiece.weaken h₂.toGrowth) (hpiece₂.keep hg) hne
  exact (ensures_create_eq _ _ _).mono fun l t₄ hcreate ↦ remade_create h₃ htype hpieces hcreate

/-- The tree is read before anything is built, so a literal inside an optional is made from the
same tree. -/
theorem ensures_retypeWithin {fuel' : Nat} (hplain : PlainLiterals conversions) (ht : t.Coherent)
    (htargets : Targets source top t p) (hl : t.literal? old = some l)
    (hsource : ∀ a, t.Within old a → source a) (htop : top old) (hdst : p dst)
    (hok : coerceLiteralWithin conversions t style old fuel' dst = .ok ()) (fuel : Nat) :
    Ensures (retypeWithin fuel old dst) t (Remade source top t dst) := by
  induction fuel generalizing dst fuel' with
  | zero => exact ensures_throw _
  | succ fuel ih =>
    obtain ⟨_, l', d, target, -, hl', hd, htarget, hok⟩ := literalRule_of_coerceLiteralWithin hplain hok
    cases hl.symm.trans hl'
    obtain ⟨u, data, hu, hkind⟩ := unqualified_of_follow hd
    have hwanted := htargets.wanted hdst hu hkind
    have hold : t.Has old := has_of_kind (by simp [literal?_eq_some_iff.1 hl])
    have hnothing := Assembled.nothing source top t
    unfold retypeWithin
    refine ensures_get_bind ?_
    simp only [hl, hd, bind_some, htarget, getD_some]
    split
    next hneeds =>
      obtain rfl : target = .optional := eq_of_beq (Bool.and_eq_true_iff.1 hneeds).1
      obtain ⟨element, src, helement, hsrc, hfits⟩ := exists_element_of_literalRule hneeds hok
      simp only [helement, hsrc, any_some]
      split
      · refine (hnothing.ensures_copy ht hold hsource htop).bind ?_
        rintro inner t₁ ⟨r', h', -, -, hpiece⟩
        exact ensures_remade_optional h' ht hu hwanted hpiece _
      next hequal =>
        refine (ih (htargets.element hdst hd htarget helement) (hfits.resolve_left hequal)).bind ?_
        rintro inner t₁ ⟨⟨r', h'⟩, hpiece, -⟩
        exact ensures_remade_optional h' ht hu hwanted hpiece _
    · refine (hnothing.ensures_targetType ht hu hwanted .const).bind ?_
      rintro type t₁ ⟨⟨r', h'⟩, hg, hpiece, htype⟩
      exact (ensures_create_eq _ _ _).mono fun l t₂ hcreate ↦
        remade_create h' htype (.single hpiece) hcreate

end Coercion

end ProtocolIR
