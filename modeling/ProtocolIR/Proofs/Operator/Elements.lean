import ProtocolIR.Proofs.Operator.Overloads
import ProtocolIR.Proofs.Tree.Copying

/-!
# Element access

Dereferencing and indexing are typed by an element. Which built-in is chosen is decided by the type of
the first operand or, for a reference, by the type behind it; the result is the element of the
operand's own type. The two views agree for optionals, results and lists. A reference is dereferenced
only if what it refers to can be dereferenced, and to index a reference to a list gives the list.
-/

namespace ProtocolIR

open Tree List

/-! ## References are always made -/

section

variable {t : Tree} {n : NodeId}

/-- The second type is a copy of the first, node by node, or a name for its declaration. -/
def RefersTo (t t' : Tree) (type copy : NodeId) : Prop :=
  (∃ r, Copies t t t' r ∧ r type copy) ∨
    ∃ u decl id name, t.unqualified type = some u ∧ t.declaredType decl = some u ∧
      t'.unqualified copy = some name ∧ t'.kind name = .type { shape := .name id (some (t.linkTo decl)) }

theorem returns_typeReference (ht : t.Coherent) (hn : t.Has n) :
    Returns (Surgery.typeReference n) t fun c t' ↦ RefersTo t t' n c := by
  have hcopy : Returns (Surgery.copy n) t fun c t' ↦ RefersTo t t' n c :=
    (returns_copy ht hn).mono fun _ _ ↦ .inl
  unfold Surgery.typeReference
  refine Returns.get_bind.2 ?_
  split
  · exact hcopy
  next u decl hu =>
    split
    · exact hcopy
    next d hd =>
      obtain ⟨v, hv, hdecl⟩ := Option.bind_eq_some_iff.1 hu
      obtain ⟨_, hdecl, heq⟩ := Option.map_eq_some_iff.1 hdecl
      cases heq
      have hdeclared : t.declaredType decl = some u := eq_of_beq (Option.filter_eq_some_iff.1 hdecl).2
      refine (returns_create _ _ (by simp)).bind fun name t₁ hname ↦ ?_
      have hpiece := piece_create (.refl t) (.nil t t) hname
      have hkind := kind_create_self hname
      cases hq : t.qualifiers? n with
      | none =>
        exact ⟨_, t₁, rfl, .inr ⟨u, decl, _, _, hv, hdeclared, by simp [unqualified, hkind], hkind⟩⟩
      | some q =>
        refine (returns_create _ _ (by simp [hpiece.free])).mono fun c t₂ hqualified ↦ ?_
        have hkind₂ := kind_create_self hqualified
        have hchild : t₂.child c 0 = some name := by
          rw [child, slots_create_self hqualified]
          rfl
        rw [← kind_create_of_has hqualified hpiece.has] at hkind
        exact .inr ⟨u, decl, _, _, hv, hdeclared, by simp [unqualified, hkind₂, hchild], hkind⟩

end

/-! ## What is chosen -/

namespace Selection

variable {t : Tree} {session : Session} {e i : NodeId} {s : TypeShape}

/-- A built-in is chosen whose result type is the element type of the first operand. -/
def PicksElement (session : Session) (selection : Selection) : Prop :=
  ∃ c id, selection = .selected c ∧ c.choice = .builtin id ∧
    (session.registry.get? id).map Operator.result = some (.elementOf 0)

theorem picksElement_single {c : Candidate} {id : Nat} (hc : c.choice = .builtin id)
    (hresult : (session.registry.get? id).map Operator.result = some (.elementOf 0)) :
    PicksElement session (pick [c]) :=
  ⟨c, id, by simp [pick, best, least, greatest], hc, hresult⟩

/-- The category of the type that the first operand is matched by. -/
def receiverCategory (t : Tree) (e : NodeId) : Option TypeCategory :=
  ((receiverType t e).bind t.shape?).map TypeShape.category

theorem matchOperand_receiver (operands : List NodeId) (category : TypeCategory) :
    matchOperand t session operands e 0 (.ofCategory category) =
      if receiverCategory t e = some category then some 0 else none := by
  unfold matchOperand receiverCategory
  cases receiverType t e with
  | none => simp
  | some u => cases hs : t.shape? u <;> simp [hs]

theorem candidates_deref : Registry.builtin.candidates .deref =
    [(43, "optional", .optional), (44, "result", .result), (45, "strong_reference", .strongRef),
      (46, "weak_reference", .weakRef), (47, "value_reference", .valueRef)].map fun (id, space, category) ↦
        ⟨id, .deref, space, [.ofCategory category], .elementOf 0, "Dereferences a value."⟩ := by
  decide +kernel

theorem candidates_index : Registry.builtin.candidates .index =
    [⟨41, .index, "list", [.ofCategory .list, .anyInteger], .elementOf 0, "Element at an index."⟩,
      ⟨42, .index, "bytes", [.ofCategory .bytes, .anyInteger], .type (.unsigned 8), "Byte at an index."⟩] := by
  decide +kernel

/-- The categories of the types that can be dereferenced. -/
def dereferenced : List TypeCategory := [.optional, .result, .strongRef, .weakRef, .valueRef]

/-- Dereferencing is decided by the type behind a reference. -/
theorem selectBuiltin_deref (hregistry : session.registry = .builtin) (he : isTyped t e = true) :
    if (receiverCategory t e).any (· ∈ dereferenced) then
      PicksElement session (selectBuiltin t session .deref [e])
    else selectBuiltin t session .deref [e] = .noMatch := by
  unfold selectBuiltin builtinCandidates
  rw [hregistry, candidates_deref]
  split
  next h =>
    obtain ⟨category, hcategory, h⟩ := (Option.any_eq_true _ _).1 h
    simp only [dereferenced, mem_cons, not_mem_nil, or_false, decide_eq_true_eq] at h
    rcases h with rfl | rfl | rfl | rfl | rfl <;>
      simp [he, matchBuiltin, matchOperand_receiver, hcategory] <;>
      exact picksElement_single rfl (by rw [hregistry]; decide +kernel)
  next h =>
    have hnone : ∀ category ∈ dereferenced, receiverCategory t e ≠ some category := by
      rintro category hmem heq
      simp [heq, hmem] at h
    simp only [dereferenced, forall_mem_cons] at hnone
    simp [he, matchBuiltin, matchOperand_receiver, hnone, guard, pick, best, least, greatest]

/-- So is access to an element of a list. -/
theorem selectBuiltin_index (hregistry : session.registry = .builtin) (he : isTyped t e = true)
    (hi : isTyped t i = true) (hinteger : ((t.expressionType i).bind t.followedShape).any TypeShape.isInteger)
    (hlist : receiverCategory t e = some .list) :
    PicksElement session (selectBuiltin t session .index [e, i]) := by
  have hoperand : ∀ operands, matchOperand t session operands i 1 .anyInteger = some 0 := by
    intro operands
    obtain ⟨s, hs, hinteger⟩ := (Option.any_eq_true _ _).1 hinteger
    obtain ⟨type, htype, hs⟩ := Option.bind_eq_some_iff.1 hs
    simp [matchOperand, htype, hs, hinteger]
  unfold selectBuiltin builtinCandidates
  rw [hregistry, candidates_index]
  simp [he, hi, matchBuiltin, matchOperand_receiver, hlist, hoperand, guard]
  exact picksElement_single rfl (by rw [hregistry]; decide +kernel)

section Operand

variable {type u element : NodeId} (hu : t.follow type = some u) (hs : t.shape? u = some s)
  (helement : t.child u 0 = some element)

include hu hs helement

/-- The first operand is matched by its own type, or by the type behind a reference. -/
theorem receiverCategory_eq (htype : t.expressionType e = some type) :
    receiverCategory t e = if s.isReference then (t.followedShape element).map TypeShape.category
      else some s.category := by
  unfold receiverCategory receiverType followedShape
  simp only [htype, hu, hs, helement, Option.bind_eq_bind, Option.bind_some]
  split <;> simp [hs]

theorem elementType_of_dereferenced (h : s.category ∈ dereferenced) : t.elementType type = some element := by
  unfold elementType elementTypeWithin
  rw [hu, Option.bind_some, hs]
  cases s <;> first | exact helement | simp [TypeShape.category, dereferenced] at h

theorem elementType_of_reference (h : s.isReference = true) : t.elementType type = some element := by
  refine elementType_of_dereferenced hu hs helement ?_
  cases s <;> simp [TypeShape.isReference, TypeShape.category, TypeCategory.isReference, dereferenced] at h ⊢

/-- The element of a list is that of its iterator. -/
theorem elementType_of_list {iterator value : NodeId} (hlist : s = .list)
    (hiterator : t.follow element = some iterator) (hshape : t.shape? iterator = some .iterator)
    (hvalue : t.child iterator 0 = some value) : t.elementType type = some value := by
  subst hlist
  obtain ⟨k, hk⟩ := Nat.exists_eq_succ_of_ne_zero (Nat.ne_of_gt (Nat.zero_lt_of_lt (has_of_child_eq helement)))
  unfold elementType elementTypeWithin
  rw [hu, Option.bind_some, hs]
  dsimp only
  rw [helement, Option.bind_some, hk]
  unfold elementTypeWithin
  rw [hiterator, Option.bind_some, hshape]
  exact hvalue

end Operand

end Selection

/-! ## Visits -/

namespace Resolution

variable {session : Session} {w : Workspace} {n e type u element : NodeId} {kind : OperatorKind}
  {operands : List NodeId} {s : TypeShape}

/-- The visit of an operator puts in its place a built-in with the same operands, whose result type
refers to `element`. It returns unless the report of that cannot be written. -/
def Accesses (session : Session) (w : Workspace) (n : NodeId) (kind : OperatorKind)
    (operands : List NodeId) (element : NodeId) : Prop :=
  ∃ result t₁ resolved id, ∃ (before after : Tree) (message : String),
    Surgery.typeReference element w.tree = .ok (result, t₁) ∧ RefersTo w.tree t₁ element result ∧
    Supplants w.tree t₁ n resolved after ∧ after.kind resolved = .expression (.resolved kind (.builtin id)) ∧
    after.slots resolved = some result :: operands.map some ∧
    resolveNode session n w = before.changeLine n (some resolved) message >>= fun line ↦
      .ok (true, ⟨after, w.log.push (.debug .resolver line)⟩)

/-- Binding an operator returns unless the report of it cannot be written. -/
theorem bindOperator_eq {t₂ t₃ t₄ t₅ : Tree} {c : Candidate} {result resolved : NodeId}
    (hcallee : bindCallee kind c.choice operands w.tree = .ok ((), t₂))
    (hremove : t₂.removeChildren n 0 (t₂.slots n).length = .ok t₃)
    (hcreate : t₃.create (.expression (.resolved kind (c.choice.target t₃)))
      (some result :: operands.map some) (t₃.location n) = .ok (resolved, t₄))
    (hreplace : t₄.replaceNode n resolved = .ok t₅) :
    bindOperator n kind c operands result w =
      t₄.changeLine n (some resolved) ("resolved to " ++ c.description) >>= fun line ↦
        .ok ((), ⟨t₅, w.log.push (.debug .resolver line)⟩) := by
  have hedit : Surgery.removeChildren n 0 (t₂.slots n).length t₂ = .ok ((), t₃) := by
    unfold Surgery.removeChildren
    rw [hremove]
    rfl
  refine (bind_of_ok (edit_of_ok hcallee)).trans (Pass.tree_bind.trans ?_)
  refine (bind_of_ok (edit_of_ok hedit)).trans (Pass.tree_bind.trans ?_)
  exact (bind_of_ok (edit_of_ok (x := Surgery.create _ _ _) hcreate)).trans (replaceNode_of_ok hreplace)

theorem accesses_of_picksElement (ht : w.tree.Coherent) (hkind : w.tree.kind n = .expression (.unresolved kind))
    (hslots : w.tree.slots n = (e :: operands).map some) (hp : (w.tree.parent n).isSome)
    (hselect : ∃ selection, w.tree.select session n = .ok selection ∧
      Selection.PicksElement session selection)
    (htype : w.tree.expressionType e = some type) (helement : w.tree.elementType type = some element)
    (hhas : w.tree.Has element) : Accesses session w n kind (e :: operands) element := by
  obtain ⟨_, hselect, c, id, rfl, hchoice, hresult⟩ := hselect
  obtain ⟨op, hop, hresult⟩ := Option.map_eq_some_iff.1 hresult
  obtain ⟨p, hp⟩ := Option.isSome_iff_exists.1 hp
  obtain ⟨result, t₁, hreference, hrefers⟩ := returns_typeReference ht hhas
  obtain ⟨hgrows, hpiece⟩ := (growing_typeReference element w.tree).post_of_ok hreference
  have hchildren : w.tree.children n = e :: operands := by simp [children, hslots]
  have hbuild : Resolution.resultType session (e :: operands) c.choice w.tree = .ok (some result, t₁) := by
    rw [hchoice]
    unfold Resolution.resultType
    simp only [hop]
    rw [hresult]
    unfold builtinResult
    refine (get_bind).trans ?_
    simp only [getElem?_cons_zero, Option.bind_some, htype, helement]
    exact (congrFun (map_eq_pure_bind _ _) w.tree).trans (bind_of_ok hreference)
  obtain ⟨t₃, hremove⟩ : ∃ t₃, t₁.removeChildren n 0 (t₁.slots n).length = .ok t₃ :=
    exists_removeChildren (Nat.zero_le _) (Nat.le_refl _)
  obtain ⟨t₄, t₅, hcreate, hreplace, -, hsupplants, hkind₅, hslots₅⟩ := exists_rebound ht hgrows hpiece hp
    hkind ⟨fun _ ↦ rfl, fun _ ↦ rfl⟩ (.refl t₁) hremove (c.choice.target t₃) (t₃.location n)
  refine ⟨result, t₁, ⟨t₃.size⟩, id, t₄, t₅, "resolved to " ++ c.description, hreference, hrefers, hsupplants,
    by rw [hkind₅, hchoice]; rfl, by rw [hslots₅, hchildren], ?_⟩
  unfold resolveNode
  refine Pass.tree_bind.trans ?_
  rw [hkind]
  refine Pass.tree_bind.trans ?_
  rw [hselect]
  refine (bind_of_ok (m := (pure (.selected c) : Pass Selection)) rfl).trans ?_
  dsimp only
  rw [hchildren]
  refine (bind_of_ok (edit_of_ok hbuild)).trans ?_
  have hbind : bindOperator n kind c (e :: operands) result ⟨t₁, w.log⟩ = _ :=
    bindOperator_eq (by rw [hchoice]; cases kind <;> rfl) hremove (by rw [← hchildren]; exact hcreate) hreplace
  show (bindOperator n kind c (e :: operands) result ⟨t₁, w.log⟩ >>= fun r ↦ .ok (true, r.2)) = _
  rw [hbind]
  cases t₄.changeLine n (some ⟨t₃.size⟩) ("resolved to " ++ c.description) <;> rfl

theorem resolveNode_of_noMatch (hkind : w.tree.kind n = .expression (.unresolved kind))
    (hselect : w.tree.select session n = .ok .noMatch) : resolveNode session n w = .ok (false, w) := by
  unfold resolveNode
  refine Pass.tree_bind.trans ?_
  rw [hkind]
  refine Pass.tree_bind.trans ?_
  rw [hselect]
  rfl

/-- What becomes of an operand `e` whose type follows to `u`, where `element` is the first child of `u`.
Optionals and results are dereferenced to it, and lists are indexed to the element type of the iterator
that it is. A reference is dereferenced only if what it refers to can be, and a reference to a list is
indexed to the list. -/
theorem resolveNode_element (hregistry : session.registry = .builtin) (ht : w.tree.Coherent)
    (htype : w.tree.expressionType e = some type) (hresolved : w.tree.isResolved type = true)
    (hu : w.tree.follow type = some u) (hs : w.tree.shape? u = some s)
    (helement : w.tree.child u 0 = some element) :
    (∀ n, w.tree.kind n = .expression (.unresolved .deref) → w.tree.slots n = [some e] →
      (w.tree.parent n).isSome →
      (s = .optional ∨ s = .result → Accesses session w n .deref [e] element) ∧
      (s.isReference = true →
        if ((w.tree.followedShape element).map TypeShape.category).any (· ∈ Selection.dereferenced)
        then Accesses session w n .deref [e] element
        else resolveNode session n w = .ok (false, w))) ∧
    ∀ n i, w.tree.kind n = .expression (.unresolved .index) → w.tree.slots n = [some e, some i] →
      (w.tree.parent n).isSome → Selection.isTyped w.tree i = true →
      ((w.tree.expressionType i).bind w.tree.followedShape).any TypeShape.isInteger = true →
      (s = .list → ∀ iterator value, w.tree.follow element = some iterator →
        w.tree.shape? iterator = some .iterator → w.tree.child iterator 0 = some value →
        Accesses session w n .index [e, i] value) ∧
      (s.isReference = true → w.tree.followedShape element = some .list →
        Accesses session w n .index [e, i] element) := by
  have he : Selection.isTyped w.tree e = true := by simp [Selection.isTyped, htype, hresolved]
  have hreceiver := Selection.receiverCategory_eq hu hs helement htype
  have hreference := Selection.elementType_of_reference hu hs helement
  have hhas := ht.has_of_child helement
  refine ⟨fun n hkind hslots hp ↦ ?_, fun n i hkind hslots hp hi hinteger ↦ ?_⟩
  · have hselect : w.tree.select session n = .ok (Selection.selectBuiltin w.tree session .deref [e]) := by
      unfold select
      rw [hkind, hslots]
      rfl
    have hchosen := Selection.selectBuiltin_deref hregistry he
    rw [hreceiver] at hchosen
    constructor
    · rintro (rfl | rfl) <;>
        exact accesses_of_picksElement ht hkind hslots hp ⟨_, hselect, hchosen⟩ htype
          (Selection.elementType_of_dereferenced hu hs helement (by decide)) hhas
    · intro h
      rw [if_pos h] at hchosen
      split at hchosen
      next hbehind =>
        rw [if_pos hbehind]
        exact accesses_of_picksElement ht hkind hslots hp ⟨_, hselect, hchosen⟩ htype (hreference h) hhas
      next hbehind =>
        rw [if_neg hbehind]
        exact resolveNode_of_noMatch hkind (hchosen ▸ hselect)
  · have hselect : w.tree.select session n =
        .ok (Selection.selectBuiltin w.tree session .index [e, i]) := by
      unfold select
      rw [hkind, hslots]
      rfl
    have hchosen := Selection.selectBuiltin_index hregistry he hi hinteger
    rw [hreceiver] at hchosen
    constructor
    · rintro rfl iterator value hiterator hshape hvalue
      exact accesses_of_picksElement ht hkind hslots hp ⟨_, hselect, hchosen rfl⟩ htype
        (Selection.elementType_of_list hu hs helement rfl hiterator hshape hvalue) (ht.has_of_child hvalue)
    · intro h hlist
      rw [if_pos h, hlist] at hchosen
      exact accesses_of_picksElement ht hkind hslots hp ⟨_, hselect, hchosen rfl⟩ htype (hreference h) hhas

/-- `*a`, `b[0]` and `*c` for an `a` of type `strong_ref<int<64>>`, a `b` of type
`strong_ref<list<int<64>>>` and a `c` of type `optional<int<64>>`. -/
def threeAccesses : Tree := .ofRows [
  (.root, [4, 13, 17]),
  (.shaped (.signed 64), []),
  (.shaped .strongRef, [1]),
  (.expression (.keyword .current), [2]),
  (.expression (.unresolved .deref), [3]),
  (.shaped (.signed 64), []),
  (.shaped .iterator, [5]),
  (.shaped .list, [6]),
  (.shaped .strongRef, [7]),
  (.expression (.keyword .current), [8]),
  (.shaped (.unsigned 64), []),
  (.literal (.unsigned 0 64), [10]),
  (.expression .literal, [11]),
  (.expression (.unresolved .index), [9, 12]),
  (.shaped (.signed 64), []),
  (.shaped .optional, [14]),
  (.expression (.keyword .current), [15]),
  (.expression (.unresolved .deref), [16])]

theorem resolveNode_element_optional :
    threeAccesses.Coherent ∧ Accesses {} ⟨threeAccesses, #[]⟩ ⟨17⟩ .deref [⟨16⟩] ⟨14⟩ := by
  have ht : threeAccesses.Rooted := by decide +kernel
  have hregistry : ({} : Session).registry = .builtin := rfl
  have htype : threeAccesses.expressionType ⟨16⟩ = some ⟨15⟩ := by decide +kernel
  have helement := resolveNode_element (w := ⟨threeAccesses, #[]⟩) (u := ⟨15⟩) hregistry ht.toCoherent htype
    (by decide +kernel) (by decide +kernel) rfl rfl
  exact ⟨ht.toCoherent, (helement.1 ⟨17⟩ rfl rfl rfl).1 (.inl rfl)⟩

/-- The reference to an integer is not dereferenced, and to index the reference to a list gives a list. -/
theorem resolve_references :
    (resolve {} root ⟨threeAccesses, #[]⟩).toOption.map (fun (changed, w) ↦
      (changed, w.tree.child root 0, w.tree.kind ⟨4⟩,
        ((w.tree.child root 1).bind w.tree.expressionType).bind w.tree.followedShape)) =
      some (true, some ⟨4⟩, .expression (.unresolved .deref), some .list) := by
  decide +kernel

end Resolution

end ProtocolIR
