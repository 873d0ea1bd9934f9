import ProtocolIR.Proofs.Coercion.Retyping
import ProtocolIR.Proofs.Round.Termination

/-!
# A type that refers to itself

A type that is a reference to itself has no serialization: writing it never comes to an end. So
two mentions of the type never count as the same type, and a literal that is given the type of
the variable it initializes does not fit any better than before. It is made anew, and the tree is
the same program at other places.
-/

namespace ProtocolIR.SelfReference

open Tree List Option Returns

/-- The attached nodes of a module with a type `T` that is a reference to `T`, and a variable `x` of that
type that refers to nothing. -/
inductive Part where
  | top
  | module
  | declaration
  | declared
  | reference
  | inner
  | x
  | type
  | value
  | literal
  | valueType
  | valueName
  deriving DecidableEq

variable {p c : Part} {conversions : List Conversions}

namespace Part

/-- The kind of a part once names are resolved, where the declaration of `T` is given. -/
def kind (target : NodeId) : Part → NodeKind
  | top => .root
  | module => .declares "m" .module .external "m"
  | declaration => .declares "T" .type .external "m::T"
  | declared => .qualified (.value .mutable)
  | reference => .type { shape := .strongRef }
  | x => .declares "x" .globalVariable .external "m::x"
  | value => .expression .literal
  | literal => .literal .null
  | valueType => .qualified (.value .const)
  | inner | type | valueName => .type { shape := .name (.ofText "T") (some ⟨target, some "m::T"⟩) }

/-- What a part holds. -/
def parts : Part → List Part
  | top => [module]
  | module => [declaration, x]
  | declaration => [declared]
  | declared => [reference]
  | reference => [inner]
  | x => [type, value]
  | value => [literal]
  | literal => [valueType]
  | valueType => [valueName]
  | inner | type | valueName => []

end Part

/-- The attached nodes of a tree are the program, with its names resolved, at some places. -/
structure Recurs (t : Tree) (place : Part → NodeId) : Prop where
  rooted : t.Rooted
  place_top : place .top = root
  kind_eq : ∀ p, t.kind (place p) = p.kind (place .declaration)
  slots_eq : ∀ p, t.slots (place p) = p.parts.map fun c ↦ some (place c)

namespace Recurs

variable {t : Tree} {place : Part → NodeId}

/-! ## The tree -/

section

variable (h : Recurs t place)

include h

theorem exists_part_of_held {m c : NodeId} (hm : ∃ p, place p = m) (hc : some c ∈ t.slots m) :
    ∃ p, place p = c := by
  obtain ⟨p, rfl⟩ := hm
  rw [h.slots_eq] at hc
  obtain ⟨c, -, hplace⟩ := List.mem_map.1 hc
  exact ⟨c, some.inj hplace⟩

theorem exists_part {n : NodeId} (hn : t.Within root n) : ∃ p, place p = n := by
  induction hn with
  | here => exact ⟨.top, h.place_top⟩
  | beneath hp _ ih => exact h.exists_part_of_held ih (h.rooted.toLinked.held hp)

theorem parent_eq (hc : c ∈ p.parts) : t.parent (place c) = some (place p) := by
  apply h.rooted.parent_of_held
  rw [h.slots_eq]
  exact List.mem_map_of_mem hc

theorem within_of_mem (hp : t.Within root (place p)) (hc : c ∈ p.parts) :
    t.Within root (place c) := .beneath (h.parent_eq hc) hp

theorem within_module : t.Within root (place .module) :=
  h.within_of_mem (p := .top) (h.place_top ▸ .here) (by decide)

theorem within_declaration : t.Within root (place .declaration) :=
  h.within_of_mem h.within_module (by decide)

theorem within_x : t.Within root (place .x) :=
  h.within_of_mem h.within_module (by decide)

theorem child_eq (p : Part) (i : Nat) : t.child (place p) i = p.parts[i]?.map place := by
  unfold child
  rw [h.slots_eq, getElem?_map]
  cases p.parts[i]? <;> rfl

theorem has (p : Part) : t.Has (place p) := by
  cases p with
  | top => rw [h.place_top]; exact h.rooted.has_root
  | _ =>
    apply has_of_kind
    rw [h.kind_eq]
    exact NodeKind.noConfusion

end

/-! ## The type -/

/-- The parts that mention `T`. -/
def IsMention (p : Part) : Prop := p = .inner ∨ p = .type ∨ p = .valueName

variable (h : Recurs t place)

include h

theorem unqualified_mention (hp : IsMention p) : t.unqualified (place p) = some (place p) := by
  unfold unqualified
  rcases hp with rfl | rfl | rfl <;> rw [h.kind_eq] <;> rfl

theorem typeData?_mention (hp : IsMention p) : t.typeData? (place p) =
      some { shape := .name (.ofText "T") (some ⟨place .declaration, some "m::T"⟩) } := by
  rw [typeData?_eq_some_iff]
  rcases hp with rfl | rfl | rfl <;> rw [h.kind_eq] <;> rfl

theorem typeData?_reference : t.typeData? (place .reference) = some { shape := .strongRef } := by
  rw [typeData?_eq_some_iff, h.kind_eq]
  rfl

theorem unqualified_reference : t.unqualified (place .reference) = some (place .reference) := by
  unfold unqualified
  rw [h.kind_eq]
  rfl

theorem declaredType_eq : t.declaredType (place .declaration) = some (place .reference) := by
  have hdeclared : t.unqualified (place .declared) = some (place .reference) := by
    unfold unqualified
    rw [h.kind_eq]
    exact h.child_eq .declared 0
  unfold declaredType
  rw [h.kind_eq, h.child_eq]
  exact hdeclared

theorem linkTarget_eq :
    t.linkTarget ⟨place .declaration, some "m::T"⟩ = some (place .declaration) := by
  have hattached : t.isAttached (place .declaration) = true :=
    h.rooted.isWithin_iff.2 h.within_declaration
  have hhas : (place .declaration).index < t.size := h.has .declaration
  unfold linkTarget
  rw [if_pos hhas, h.kind_eq]
  simp [Part.kind, sameOrUnknown, hattached]

theorem linkedType_eq :
    t.linkedType (some ⟨place .declaration, some "m::T"⟩) = some (place .reference) := by
  unfold linkedType
  rw [bind_some, h.linkTarget_eq]
  exact h.declaredType_eq

/-- The type has no serialization, since there is always one more level to write. -/
theorem serializeWithin_eq (depth : Nat) : t.serializeWithin depth (place .reference) = none ∧
      ∀ {p}, IsMention p → t.serializeWithin depth (place p) = none := by
  induction depth with
  | zero =>
    refine ⟨?_, fun {p} hp ↦ ?_⟩
    · unfold serializeWithin
      rw [h.unqualified_reference, bind_eq_bind, bind_some, h.typeData?_reference]
      rfl
    · unfold serializeWithin
      rw [h.unqualified_mention hp, bind_eq_bind, bind_some, h.typeData?_mention hp]
      rfl
  | succ depth ih =>
    refine ⟨?_, fun {p} hp ↦ ?_⟩
    · have hinner : t.qualifiers? (place .inner) = none := by
        unfold qualifiers?
        rw [h.kind_eq]
        rfl
      unfold serializeWithin
      rw [h.unqualified_reference, bind_eq_bind, bind_some, h.typeData?_reference]
      have hchild : t.child (place .reference) 0 = some (place .inner) := h.child_eq .reference 0
      simp [serializeShape, serializeAround, serializeQualifiedWith, hchild, hinner, ih.2 (.inl rfl)]
    · unfold serializeWithin
      rw [h.unqualified_mention hp, bind_eq_bind, bind_some, h.typeData?_mention hp]
      simp [serializeShape, h.linkedType_eq, ih.1]

theorem serialize_mention (hp : IsMention p) :
    t.serialize (place p) = none := (h.serializeWithin_eq _).2 hp

theorem serialize_reference : t.serialize (place .reference) = none :=
  (h.serializeWithin_eq _).1

/-- All mentions mean the reference. -/
theorem follow_mention (hp : IsMention p) : t.follow (place p) = some (place .reference) := by
  have hreference : ∀ fuel, t.followWithin (fuel + 1) (place .reference) = some (place .reference) := by
    intro fuel
    unfold followWithin shape?
    rw [h.typeData?_reference]
    rfl
  have hmention : ∀ fuel, t.followWithin (fuel + 2) (place p) = some (place .reference) := by
    intro fuel
    unfold followWithin shape?
    rw [h.typeData?_mention hp]
    dsimp only [map_some]
    rw [h.linkedType_eq, bind_some, hreference]
  unfold follow
  rw [h.unqualified_mention hp, bind_some]
  exact hmention 62

theorem unqualified_valueType : t.unqualified (place .valueType) = some (place .valueName) := by
  unfold unqualified
  rw [h.kind_eq]
  exact h.child_eq .valueType 0

theorem follow_valueType : t.follow (place .valueType) = some (place .reference) := by
  have hfollow := h.follow_mention (p := .valueName) (.inr (.inr rfl))
  unfold follow at *
  rw [h.unqualified_mention (.inr (.inr rfl))] at hfollow
  rw [h.unqualified_valueType]
  exact hfollow

/-- The type mentions nothing but itself. -/
theorem isResolvedWithin_eq (fuel : Nat) :
    ∀ path, t.isResolvedWithin fuel path (place .reference) = true ∧
      ∀ {p}, IsMention p → t.isResolvedWithin fuel path (place p) = true := by
  induction fuel with
  | zero => exact fun _ ↦ ⟨rfl, fun _ ↦ rfl⟩
  | succ fuel ih =>
    intro path
    have hreference := typeData?_eq_some_iff.1 h.typeData?_reference
    have hchildren : t.children (place .reference) = [place .inner] := by
      unfold children
      rw [h.slots_eq]
      rfl
    refine ⟨?_, fun {p} hp ↦ ?_⟩
    · unfold isResolvedWithin
      simp [hreference, hchildren, (ih _).2 (.inl rfl)]
    · have hmention := typeData?_eq_some_iff.1 (h.typeData?_mention hp)
      unfold isResolvedWithin
      simp [hmention, h.linkTarget_eq, h.declaredType_eq, (ih _).1]

theorem isResolved_mention (hp : IsMention p) :
    t.isResolved (place p) = true := (h.isResolvedWithin_eq _ _).2 hp

theorem isResolved_valueType : t.isResolved (place .valueType) = true := by
  unfold isResolved isResolvedWithin
  have hchild : t.child (place .valueType) 0 = some (place .valueName) := h.child_eq .valueType 0
  simp [h.kind_eq, Part.kind, hchild, (h.isResolvedWithin_eq _ _).2 (.inr (.inr rfl))]

theorem valueName_ne_type : place .valueName ≠ place .type := by
  intro heq
  have hname := h.parent_eq (p := .valueType) (c := .valueName) (by decide)
  have htype := h.parent_eq (p := .x) (c := .type) (by decide)
  rw [heq, htype] at hname
  have hkind := h.kind_eq .valueType
  rw [← some.inj hname, h.kind_eq] at hkind
  cases hkind

/-- Two mentions are never the same type. -/
theorem typesEqual_eq : t.typesEqual (place .valueType) (place .type) = false := by
  have htext : t.serialize (place .type) = none := h.serialize_mention (.inr (.inl rfl))
  rw [Bool.eq_false_iff, Ne, typesEqual_iff, h.unqualified_valueType,
    h.unqualified_mention (.inr (.inl rfl)), htext]
  simp [h.valueName_ne_type.symm]

/-! ## The value -/

theorem expressionType_value : t.expressionType (place .value) = some (place .valueType) := by
  have hvalue : t.child (place .value) 0 = some (place .literal) := h.child_eq .value 0
  have hliteral : t.child (place .literal) 0 = some (place .valueType) := h.child_eq .literal 0
  unfold expressionType expressionTypeWithin
  simp [h.kind_eq, Part.kind, hvalue, hliteral]

/-- The value is asked to become one of the type that it has. -/
theorem coerceExpression_eq (hliterals : PlainLiterals conversions) :
    Coercion.coerceExpression conversions t (place .value) (place .type) .ofAssignment =
      .ok .retype := by
  have hmention : IsMention .type := .inr (.inl rfl)
  have hshape : t.shape? (place .reference) = some .strongRef := by
    unfold shape?
    rw [h.typeData?_reference]
    rfl
  have hkeeps : Coercion.keepsType t (place .valueType) (place .type) .ofAssignment = false := by
    unfold Coercion.keepsType followedShape
    rw [h.follow_valueType, h.follow_mention hmention, bind_some, bind_some, hshape,
      h.typeData?_reference]
    rfl
  have hchild : t.child (place .value) 0 = some (place .literal) := h.child_eq .value 0
  have hliteral : Coercion.coerceLiteral conversions t (place .literal) (place .type) .ofAssignment =
      .ok () := by
    have hnone : (conversions.findSome? fun c ↦
        c.literal t (place .literal) (place .type) .ofAssignment) = none :=
      findSome?_eq_none_iff.2 fun c hc ↦ hliterals c hc _ _ _ _
    have hnull := literal?_eq_some_iff.2 (h.kind_eq .literal)
    unfold Coercion.coerceLiteral Coercion.coerceLiteralWithin
    rw [hnone, hnull, h.follow_mention hmention]
    dsimp only
    rw [hshape]
    rfl
  unfold Coercion.coerceExpression
  rw [h.expressionType_value]
  simp [h.isResolved_valueType, h.isResolved_mention hmention, h.typesEqual_eq, hkeeps, h.kind_eq,
    Part.kind, hchild, hliteral]

/-! ## Making the value anew -/

/-- A mention outside the declaration of `T` is copied. -/
theorem typeReference_type :
    Surgery.typeReference (place .type) t = Surgery.copy (place .type) t := by
  have hmodule : t.declaredType (place .module) = none := by
    unfold declaredType
    rw [h.kind_eq]
    rfl
  have hnone : Surgery.declarationOf t (place .type) = none := by
    unfold Surgery.declarationOf
    rw [h.parent_eq (p := .x) (by decide), bind_some, h.parent_eq (p := .module) (by decide)]
    simp [hmodule]
  unfold Surgery.typeReference
  rw [get_bind, h.unqualified_mention (.inr (.inl rfl)), bind_some, hnone]
  rfl

/-- The type of the new value mentions `T` as well. -/
theorem returns_targetType : Returns (Coercion.targetType (place .type) .const) t fun q t₁ ↦
    Growth t t₁ ∧ Piece t t₁ q ∧ t₁.kind q = .qualified (.value .const) ∧
      ∃ c, t₁.slots q = [some c] ∧ t₁.kind c = t.kind (place .type) ∧ t₁.slots c = [] := by
  have hcopy := (returns_copy h.rooted.toCoherent (h.has .type)).and_safe (growing_copy (place .type) t)
  unfold Returns at hcopy
  rw [← h.typeReference_type] at hcopy
  refine Returns.get_bind.2 ?_
  rw [h.unqualified_mention (.inr (.inl rfl)), getD_some]
  refine Returns.bind hcopy fun c t₁ ⟨⟨r, hcopies, hr⟩, hgrows, hpiece⟩ ↦ Returns.get_bind.2 ?_
  refine (returns_create _ _ (by simp [hpiece.free])).mono fun q t₂ hcreate ↦ ?_
  have hslots : t₁.slots c = [] := by
    have hslots := hcopies.slots hr
    rw [h.slots_eq] at hslots
    exact forall₂_nil_left_iff.1 hslots
  exact ⟨hgrows.toGrowth.create (.single hpiece) hcreate, piece_create hgrows.toGrowth (.single hpiece) hcreate,
    kind_create_self hcreate, c, slots_create_self hcreate,
    (kind_create_of_has hcreate hpiece.has).trans (hcopies.kind hr),
    (slots_create_of_has hcreate hpiece.has).trans hslots⟩

theorem returns_retypeLiteral :
    Returns (Coercion.retypeLiteral (place .literal) (place .type)) t fun l t₁ ↦
      Growth t t₁ ∧ Piece t t₁ l ∧ t₁.kind l = .literal .null ∧ ∃ q c, t₁.slots l = [some q] ∧
        t₁.kind q = .qualified (.value .const) ∧ t₁.slots q = [some c] ∧
        t₁.kind c = t.kind (place .type) ∧ t₁.slots c = [] := by
  have hnull : t.literal? (place .literal) = some .null := literal?_eq_some_iff.2 (h.kind_eq .literal)
  have hshape : (t.shape? (place .reference)).getD .unknown = .strongRef := by
    unfold shape?
    rw [h.typeData?_reference]
    rfl
  have hplain : Coercion.needsOptional .null .strongRef = false := rfl
  refine Returns.get_bind.2 ?_
  unfold Coercion.retypeWithin
  refine Returns.get_bind.2 ?_
  simp only [hnull, h.follow_mention (p := .type) (.inr (.inl rfl)), bind_some, hshape, hplain,
    Bool.false_eq_true, if_false]
  refine h.returns_targetType.bind fun q t₁ ⟨hg, hpiece, hq, c, hslots, hc, hnil⟩ ↦ ?_
  refine (returns_create _ _ (by simp [hpiece.free])).mono fun l t₂ hcreate ↦ ?_
  have hhas : t₁.Has c := has_of_kind (by rw [hc, h.kind_eq]; exact NodeKind.noConfusion)
  exact ⟨hg.create (.single hpiece) hcreate, piece_create hg (.single hpiece) hcreate,
    kind_create_self hcreate, q, c, slots_create_self hcreate,
    (kind_create_of_has hcreate hpiece.has).trans hq, (slots_create_of_has hcreate hpiece.has).trans hslots,
    (kind_create_of_has hcreate hhas).trans hc, (slots_create_of_has hcreate hhas).trans hnil⟩

/-- The variable is at a place of its own. -/
theorem place_ne_x (hp : p ≠ .x) : place p ≠ place .x := by
  intro heq
  have hkind := h.kind_eq p
  rw [heq, h.kind_eq] at hkind
  cases p with
  | x => exact hp rfl
  | _ => simp [Part.kind] at hkind

end Recurs

/-- The places of the parts once the value has been made anew. -/
def renewed (place : Part → NodeId) (value literal valueType valueName : NodeId) : Part → NodeId
  | .value => value
  | .literal => literal
  | .valueType => valueType
  | .valueName => valueName
  | p => place p

/-- The value does not fit, and the one made in its place does not fit either. -/
theorem Recurs.returns_coerceSlot {w : Workspace} {place : Part → NodeId} (h : Recurs w.tree place)
    (hliterals : PlainLiterals conversions) (stream : Stream) :
    Returns (Coercion.coerceSlot conversions stream (place .x) 1 (place .type) .ofAssignment) w
      fun changed w' ↦ changed = true ∧ ∃ place', Recurs w'.tree place' ∧ place' .x = place .x := by
  have hvalue : w.tree.child (place .x) 1 = some (place .value) := h.child_eq .x 1
  have hexpression : (w.tree.kind (place .value)).isExpression = true := by
    rw [h.kind_eq]
    rfl
  refine tree_bind.2 ?_
  rw [hvalue, filter_some, if_pos hexpression]
  dsimp only
  rw [h.coerceExpression_eq hliterals]
  obtain ⟨l, t₁, hmade, hg, hpiece, hl, q, c, hlq, hq, hqc, hc, hnil⟩ := h.returns_retypeLiteral
  have htext {t₂ : Tree} {m : NodeId} (hm : t₂.kind m = .literal .null) (hsize : t₁.size < t₂.size) :
      t₂.shortWithin t₂.size m = .ok "Null" := by
    obtain ⟨fuel, hfuel⟩ := Nat.exists_eq_succ_of_ne_zero (Nat.ne_of_gt (Nat.zero_lt_of_lt hsize))
    rw [hfuel, shortWithin, writeNode, hm]
    rfl
  have hold := h.has .literal
  obtain ⟨e, w', hrun, hstep, hslots, -, he, hel, hkeep⟩ := Coercion.returns_retype stream
    h.rooted.toCoherent hvalue (h.kind_eq .value) (h.child_eq .value 0) hmade hg hpiece fun t₂ hsame hsize ↦
      ⟨_, _, htext ((hsame _ (hg.has hold)).1.trans ((hg.kind_eq hold).trans (h.kind_eq .literal))) hsize,
        htext ((hsame l hpiece.has).1.trans hl) hsize⟩
  -- a new node is told from the variable by its kind
  have hnew {m : NodeId} {kind : NodeKind} (hm : t₁.kind m = kind) (hroot : kind ≠ .root)
      (hkind : ∀ d, kind ≠ .declaration d) : w'.tree.kind m = kind ∧ w'.tree.slots m = t₁.slots m := by
    obtain ⟨hsame, hslots⟩ := hkeep m (has_of_kind (hm ▸ hroot))
    refine ⟨hsame.trans hm, hslots ?_⟩
    rintro rfl
    exact hkind _ (hm.symm.trans ((hg.kind_eq (h.has .x)).trans (h.kind_eq .x)))
  rw [h.kind_eq] at hc
  obtain ⟨hl, hlslots⟩ := hnew hl NodeKind.noConfusion fun _ ↦ NodeKind.noConfusion
  obtain ⟨hq, hqslots⟩ := hnew hq NodeKind.noConfusion fun _ ↦ NodeKind.noConfusion
  obtain ⟨hc, hcslots⟩ := hnew hc NodeKind.noConfusion fun _ ↦ NodeKind.noConfusion
  have hkind (p : Part) : w'.tree.kind (place p) = p.kind (place .declaration) :=
    (hkeep _ (hg.has (h.has p))).1.trans ((hg.kind_eq (h.has p)).trans (h.kind_eq p))
  have hother {p : Part} (hp : p ≠ .x) : w'.tree.slots (place p) = p.parts.map fun c ↦ some (place c) :=
    ((hkeep _ (hg.has (h.has p))).2 (h.place_ne_x hp)).trans ((hg.slots_eq (h.has p)).trans (h.slots_eq p))
  refine ⟨true, w', bind_of_ok (discard_of_ok hrun), rfl, renewed place e l q c,
    ⟨hstep.rooted h.rooted, h.place_top, fun p ↦ ?_, fun p ↦ ?_⟩, rfl⟩
  · cases p with
    | value => exact he
    | literal => exact hl
    | valueType => exact hq
    | valueName => exact hc
    | _ => exact hkind _
  · cases p with
    | value => exact hel
    | literal => exact hlslots.trans hlq
    | valueType => exact hqslots.trans hqc
    | valueName => exact hcslots.trans hnil
    | x => rw [h.slots_eq] at hslots; exact hslots
    | _ => exact hother Part.noConfusion

end ProtocolIR.SelfReference
