import ProtocolIR.Proofs.Tree.Coherence
import ProtocolIR.Unification

/-!
# What the readers of types give

Whatever a reader of types finds in a linked tree is a node of the tree, wherever it starts. Types are
equal if they are one node or have one text.
-/

namespace ProtocolIR.Tree

open Option List

variable {t : Tree} {n u : NodeId}

theorem typeData?_eq_some_iff {data : TypeData} :
    t.typeData? n = some data ↔ t.kind n = .type data := by
  unfold typeData?
  cases t.kind n <;> simp

theorem literal?_eq_some_iff {l : Literal} : t.literal? n = some l ↔ t.kind n = .literal l := by
  unfold literal?
  cases t.kind n <;> simp

theorem qualifiers?_eq_some_iff {q : Qualifiers} :
    t.qualifiers? n = some q ↔ t.kind n = .qualified q := by
  unfold qualifiers?
  cases t.kind n <;> simp

theorem shape?_eq_some_iff {shape : TypeShape} :
    t.shape? n = some shape ↔ ∃ data, t.kind n = .type data ∧ data.shape = shape := by
  simp [shape?, map_eq_some_iff, typeData?_eq_some_iff]

theorem unqualified_of_type {data : TypeData} (h : t.kind n = .type data) : t.unqualified n = some n := by
  unfold unqualified
  rw [h]

theorem unqualified_of_qualified {q : Qualifiers} (h : t.kind n = .qualified q) :
    t.unqualified n = t.child n 0 := by
  unfold unqualified
  rw [h]

theorem unqualified_cases (h : t.unqualified n = some u) :
    (∃ data, t.kind n = .type data ∧ u = n) ∨ ∃ q, t.kind n = .qualified q ∧ t.child n 0 = some u := by
  unfold unqualified at h
  split at h
  next q hkind => exact .inr ⟨q, hkind, h⟩
  next data hkind => exact .inl ⟨data, hkind, (some.inj h).symm⟩
  · cases h

section

variable {m : NodeId} {text : String}

theorem serialize_of_unification (hn : t.unqualified n = some u)
    (hu : (t.typeData? u).bind TypeData.unification = some text) : t.serialize n = some text := by
  obtain ⟨data, hdata, htext⟩ := bind_eq_some_iff.1 hu
  unfold serialize serializationDepth serializeWithin
  simp only [hn, hdata, htext, bind_eq_bind, bind_some]

/-- A text is read off the type under the qualification. -/
theorem serialize_congr (h : t.unqualified m = t.unqualified n) :
    t.serialize m = t.serialize n := by
  unfold serialize serializationDepth serializeWithin
  rw [h]

theorem typesEqual_iff : t.typesEqual m n = true ↔
    (∃ u, t.unqualified m = some u ∧ t.unqualified n = some u) ∨
      ∃ text, t.serialize m = some text ∧ t.serialize n = some text := by
  constructor
  · intro h
    unfold typesEqual sameType at h
    rcases Bool.or_eq_true_iff.1 h with h | h
    · split at h
      next u v hu hv =>
        rcases Bool.or_eq_true_iff.1 h with h | h
        · exact .inl ⟨u, hu, eq_of_beq h ▸ hv⟩
        · split at h
          next hx hy =>
            cases eq_of_beq h
            exact .inr ⟨_, serialize_of_unification hu hx, serialize_of_unification hv hy⟩
          · cases h
      · cases h
    · split at h
      next x y hx hy => exact .inr ⟨x, hx, eq_of_beq h ▸ hy⟩
      · cases h
  · rintro (⟨u, hm, hn⟩ | ⟨x, hm, hn⟩)
    · simp [typesEqual, sameType, hm, hn]
    · simp [typesEqual, hm, hn]

end

theorem has_of_unqualified_eq (h : t.unqualified n = some u) : t.Has n := by
  obtain ⟨_, hkind, -⟩ | ⟨_, hkind, -⟩ := unqualified_cases h <;> exact has_of_kind (by simp [hkind])

theorem isExpression_of_unqualified (h : t.unqualified n = some u) : (t.kind n).isExpression = false := by
  obtain ⟨_, hkind, -⟩ | ⟨_, hkind, -⟩ := unqualified_cases h <;> rw [hkind] <;> rfl

theorem unqualified_congr {t' : Tree} (hkind : t'.kind n = t.kind n) (hslots : t'.slots n = t.slots n) :
    t'.unqualified n = t.unqualified n := by
  unfold unqualified
  rw [hkind, child, child, hslots]

theorem has_of_declaration {d : Declaration} (h : t.declaration? n = some d) : t.Has n := by
  have hkind := declaration?_eq_some_iff.1 h
  exact has_of_kind (by rw [hkind]; simp)

theorem has_of_isTypeDeclaration (h : (t.kind n).isTypeDeclaration = true) : t.Has n := by
  apply has_of_kind
  intro hroot
  rw [hroot] at h
  cases h

theorem eq_of_linkTarget {link : Link} (h : t.linkTarget link = some n) : n = link.node := by
  unfold linkTarget at h
  split at h
  · split at h
    · split at h
      · exact (some.inj h).symm
      · cases h
    · split at h
      · exact (some.inj h).symm
      · cases h
    · cases h
  · cases h

theorem isExpression_of_expressionType (h : t.expressionType n = some u) : (t.kind n).isExpression := by
  unfold expressionType expressionTypeWithin at h
  split at h
  next e hkind => rw [hkind]; rfl
  · cases h

namespace Linked

variable {start fuel : Nat} {c : NodeId}

variable (ht : t.Linked)

include ht

theorem has_of_mem_children (h : c ∈ t.children n) : t.Has c :=
  ht.has_of_held (mem_children.1 h)

theorem has_of_mem_childrenFrom {category : NodeCategory} (h : c ∈ t.childrenFrom n start category) :
    t.Has c :=
  ht.has_of_held (mem_slots_of_mem_childrenFrom h)

theorem has_of_unqualified (h : t.unqualified n = some u) : t.Has u := by
  obtain ⟨_, -, rfl⟩ | ⟨_, -, hchild⟩ := unqualified_cases h
  · exact has_of_unqualified_eq h
  · exact ht.has_of_child hchild

theorem has_of_declaredType (h : t.declaredType n = some u) : t.Has u := by
  unfold declaredType at h
  split at h
  · obtain ⟨c, -, hu⟩ := bind_eq_some_iff.1 h
    exact ht.has_of_unqualified hu
  · cases h

theorem has_of_linkedType {resolved : Option Link} (h : t.linkedType resolved = some u) :
    t.Has u := by
  obtain ⟨d, -, hu⟩ := bind_eq_some_iff.1 h
  exact ht.has_of_declaredType hu

theorem has_of_followWithin (hn : t.Has n) (h : t.followWithin fuel n = some u) : t.Has u := by
  induction fuel generalizing n with
  | zero => cases h
  | succ fuel ih =>
    unfold followWithin at h
    split at h
    · cases h
    · obtain ⟨m, hm, hu⟩ := bind_eq_some_iff.1 h
      exact ih (ht.has_of_linkedType hm) hu
    · cases h
      exact hn

theorem has_of_follow (h : t.follow n = some u) : t.Has u := by
  obtain ⟨m, hm, hu⟩ := bind_eq_some_iff.1 h
  exact ht.has_of_followWithin (ht.has_of_unqualified hm) hu

theorem has_of_elementTypeWithin (h : t.elementTypeWithin fuel n = some u) : t.Has u := by
  induction fuel generalizing n with
  | zero => cases h
  | succ fuel ih =>
    obtain ⟨m, -, hu⟩ := bind_eq_some_iff.1 h
    split at hu
    · obtain ⟨c, -, hu⟩ := bind_eq_some_iff.1 hu
      exact ih hu
    all_goals first | exact ht.has_of_child hu | cases hu

theorem has_of_elementType (h : t.elementType n = some u) : t.Has u :=
  ht.has_of_elementTypeWithin h

theorem has_of_declarationType (h : t.declarationType n = some u) : t.Has u := by
  unfold declarationType at h
  split at h
  · split at h
    · obtain ⟨p, -, hu⟩ := bind_eq_some_iff.1 h
      exact ht.has_parent hu
    · split at h
      · exact ht.has_of_child h
      · cases h
  all_goals first | exact ht.has_of_child h | cases h

theorem has_of_expressionTypeWithin (h : t.expressionTypeWithin fuel n = some u) : t.Has u := by
  induction fuel generalizing n with
  | zero => cases h
  | succ fuel ih =>
    unfold expressionTypeWithin at h
    split at h
    · split at h
      · obtain ⟨d, -, hu⟩ := bind_eq_some_iff.1 h
        exact ht.has_of_declarationType hu
      · exact ht.has_of_child h
      · obtain ⟨c, -, hu⟩ := bind_eq_some_iff.1 h
        exact ht.has_of_child hu
      · cases h
      all_goals
        first
        | exact ht.has_of_child h
        | obtain ⟨c, -, hu⟩ := bind_eq_some_iff.1 h
          exact ih hu
    · cases h

theorem has_of_expressionType (h : t.expressionType n = some u) : t.Has u :=
  ht.has_of_expressionTypeWithin h

theorem has_of_mem_parameters {p : NodeId} (h : p ∈ t.parameters n) : t.Has p := by
  unfold parameters at h
  split at h
  · exact ht.has_of_mem_childrenFrom h
  · cases h

theorem has_of_resultType (h : t.resultType n = some u) : t.Has u := by
  obtain ⟨f, -, hu⟩ := bind_eq_some_iff.1 h
  exact ht.has_of_child hu

end Linked

end ProtocolIR.Tree
