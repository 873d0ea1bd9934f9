import ProtocolIR.Proofs.Padding.Basic
import ProtocolIR.Proofs.Saturation

/-!
# Types in a padded tree

The readers of types see the same in a padded tree as in its base. Following names and
serializing have fixed bounds. Reading an expression goes down the tree; reading an element is a
search among the nodes that keeps what it has found; checking whether a type is resolved stops at
the first node that is met twice.
-/

namespace ProtocolIR.Tree.Inset

open List Option

variable {b s : Tree} {n m : NodeId} {fuel fuel' : Nat}

section

variable (h : Inset b s)

include h

theorem typeData?_eq (hn : b.Has n) : s.typeData? n = b.typeData? n := by
  unfold typeData?
  rw [h.kind_eq hn]

theorem shape?_eq (hn : b.Has n) : s.shape? n = b.shape? n := by
  unfold shape?
  rw [h.typeData?_eq hn]

theorem qualifiers?_eq (hn : b.Has n) : s.qualifiers? n = b.qualifiers? n := by
  unfold qualifiers?
  rw [h.kind_eq hn]

theorem literal?_eq (hn : b.Has n) : s.literal? n = b.literal? n := by
  unfold literal?
  rw [h.kind_eq hn]

theorem unqualified_eq (hn : b.Has n) : s.unqualified n = b.unqualified n := by
  unfold unqualified
  rw [h.kind_eq hn, h.child_eq hn]

theorem declaredType_eq (n : NodeId) : s.declaredType n = b.declaredType n := by
  unfold declaredType
  rw [h.isTypeDeclaration_eq]
  split
  next hdecl =>
    rw [h.child_eq (has_of_isTypeDeclaration hdecl)]
    exact bind_congr fun c hc ↦ h.unqualified_eq (h.base.has_of_child hc)
  · rfl

theorem linkedType_eq (resolved : Option Link) : s.linkedType resolved = b.linkedType resolved := by
  unfold linkedType
  have htarget : resolved.bind s.linkTarget = resolved.bind b.linkTarget :=
    bind_congr fun link _ ↦ h.linkTarget_eq link
  rw [htarget]
  exact bind_congr fun d _ ↦ h.declaredType_eq d

theorem followWithin_eq (hn : b.Has n) (fuel : Nat) :
    s.followWithin fuel n = b.followWithin fuel n := by
  induction fuel generalizing n with
  | zero => rfl
  | succ fuel ih =>
    unfold followWithin
    rw [h.shape?_eq hn]
    cases b.shape? n with
    | none => rfl
    | some shape =>
      cases shape with
      | name id resolved =>
        show (s.linkedType resolved).bind _ = (b.linkedType resolved).bind _
        rw [h.linkedType_eq]
        exact bind_congr fun u hu ↦ ih (h.base.has_of_linkedType hu)
      | _ => rfl

theorem follow_eq (hn : b.Has n) : s.follow n = b.follow n := by
  unfold follow
  rw [h.unqualified_eq hn]
  exact bind_congr fun u hu ↦ h.followWithin_eq (h.base.has_of_unqualified hu) followLimit

theorem followedShape_eq (hn : b.Has n) : s.followedShape n = b.followedShape n := by
  unfold followedShape
  rw [h.follow_eq hn]
  exact bind_congr fun u hu ↦ h.shape?_eq (h.base.has_of_follow hu)

/-! ## Elements -/

/-- One level of the search looks only at what the level below gives for nodes of the base. -/
theorem elementTypeWithin_succ
    (hbelow : ∀ m, b.Has m → s.elementTypeWithin fuel m = b.elementTypeWithin fuel' m)
    (hn : b.Has n) : s.elementTypeWithin (fuel + 1) n = b.elementTypeWithin (fuel' + 1) n := by
  unfold elementTypeWithin
  rw [h.follow_eq hn]
  refine bind_congr fun u hu ↦ ?_
  have hhas := h.base.has_of_follow hu
  rw [h.shape?_eq hhas, h.child_eq hhas]
  cases b.shape? u with
  | none => rfl
  | some shape =>
    cases shape with
    | list => exact bind_congr fun c hc ↦ hbelow c (h.base.has_of_child hc)
    | _ => rfl

end

theorem elementTypeWithin_keeps {t : Tree} {a : NodeId} (ha : t.elementTypeWithin fuel n = some a) :
    t.elementTypeWithin (fuel + 1) n = some a := by
  induction fuel generalizing n with
  | zero => cases ha
  | succ fuel ih =>
    unfold elementTypeWithin at ha ⊢
    obtain ⟨u, hu, ha⟩ := bind_eq_some_iff.1 ha
    refine bind_eq_some_iff.2 ⟨u, hu, ?_⟩
    cases hshape : t.shape? u with
    | none => rw [hshape] at ha; cases ha
    | some shape =>
      rw [hshape] at ha
      cases shape with
      | list =>
        obtain ⟨c, hc, ha⟩ := bind_eq_some_iff.1 ha
        exact bind_eq_some_iff.2 ⟨c, hc, ih ha⟩
      | _ => exact ha

section

variable (h : Inset b s)

include h

theorem elementType_eq (hn : b.Has n) : s.elementType n = b.elementType n := by
  have hsame : ∀ fuel, ∀ m, b.Has m → s.elementTypeWithin fuel m = b.elementTypeWithin fuel m := by
    intro fuel
    induction fuel with
    | zero => exact fun _ _ ↦ rfl
    | succ fuel ih => exact fun m hm ↦ h.elementTypeWithin_succ ih hm
  have hfollows : Saturation.Follows b.present b.elementTypeWithin := by
    intro fuel hquiet m hm
    exact (refl h.rooted).elementTypeWithin_succ (fun c hc ↦ hquiet c (mem_present.2 hc))
      (mem_present.1 hm)
  calc s.elementType n = b.elementTypeWithin (s.size + 1) n := hsame _ n hn
    _ = b.elementType n := by
      apply Saturation.answer_eq (fun _ _ _ _ ↦ elementTypeWithin_keeps) hfollows
      · exact Nat.le_succ_of_le (card_present_le b)
      · exact Nat.succ_le_succ h.size_le
      · exact mem_present.2 hn

/-! ## Resolved types -/

/-- One level of the check looks only at what the level below gives for nodes of the base. -/
theorem isResolvedWithin_succ {path : List NodeId}
    (hbelow : n ∉ path → ∀ m, b.Has m →
      s.isResolvedWithin fuel (n :: path) m = b.isResolvedWithin fuel' (n :: path) m)
    (hn : b.Has n) :
    s.isResolvedWithin (fuel + 1) path n = b.isResolvedWithin (fuel' + 1) path n := by
  unfold isResolvedWithin
  by_cases hmem : n ∈ path
  · rw [if_pos hmem, if_pos hmem]
  · rw [if_neg hmem, if_neg hmem, h.kind_eq hn, h.child_eq hn, h.children_eq hn]
    have hcheck := hbelow hmem
    have hany : ∀ o : Option NodeId, (∀ m, o = some m → b.Has m) →
        o.any (s.isResolvedWithin fuel (n :: path)) = o.any (b.isResolvedWithin fuel' (n :: path)) := by
      intro o ho
      cases o with
      | none => rfl
      | some m => exact hcheck m (ho m rfl)
    have hall : (b.child n 0).all (s.isResolvedWithin fuel (n :: path)) =
        (b.child n 0).all (b.isResolvedWithin fuel' (n :: path)) := by
      cases hc : b.child n 0 with
      | none => rfl
      | some m => exact hcheck m (h.base.has_of_child hc)
    have hchildren : (b.children n).all (s.isResolvedWithin fuel (n :: path)) =
        (b.children n).all (b.isResolvedWithin fuel' (n :: path)) :=
      all_congr_of_mem fun c hc ↦ hcheck c (h.base.has_of_mem_children hc)
    cases b.kind n with
    | qualified q => exact hany _ fun m hm ↦ h.base.has_of_child hm
    | type data =>
      cases hshape : data.shape with
      | name id resolved =>
        have htarget : resolved.bind s.linkTarget = resolved.bind b.linkTarget :=
          bind_congr fun link _ ↦ h.linkTarget_eq link
        simp only [hshape, htarget]
        cases resolved.bind b.linkTarget with
        | none => rfl
        | some d =>
          show (s.declaredType d).any _ = (b.declaredType d).any _
          rw [h.declaredType_eq]
          exact hany _ fun m hm ↦ h.base.has_of_declaredType hm
      | auto | unknown => simp only [hshape]
      | _ => simp only [hshape, hchildren]
    | declaration d =>
      cases hkind : d.kind with
      | label => simp only [hkind]
      | _ => simp only [hkind, hall]
    | item i => exact hall
    | _ => rfl

theorem isResolved_eq (hn : b.Has n) : s.isResolved n = b.isResolved n := by
  -- a path without repetition ends before the fuel does
  have hpath : ∀ fuel fuel' (path : List NodeId) m, path.Nodup → (∀ a ∈ path, b.Has a) → b.Has m →
      b.size < fuel + path.length → b.size < fuel' + path.length →
        s.isResolvedWithin fuel path m = b.isResolvedWithin fuel' path m := by
    intro fuel
    induction fuel with
    | zero =>
      intro fuel' path m hnodup hpath _ hlt _
      have hle := length_le_size hnodup hpath
      omega
    | succ fuel ih =>
      intro fuel' path m hnodup hpath hm hlt hlt'
      have hle := length_le_size hnodup hpath
      obtain ⟨fuel', rfl⟩ : ∃ k, fuel' = k + 1 := ⟨fuel' - 1, by omega⟩
      refine h.isResolvedWithin_succ (fun hnot c hc ↦ ?_) hm
      refine ih fuel' (m :: path) c (nodup_cons.2 ⟨hnot, hnodup⟩) ?_ hc ?_ ?_
      · intro a ha
        rcases mem_cons.1 ha with rfl | ha
        · exact hm
        · exact hpath a ha
      · rw [length_cons]
        omega
      · rw [length_cons]
        omega
  have hsize := h.size_le
  exact hpath _ _ [] n nodup_nil (fun _ ha ↦ by cases ha) hn (by simp; omega) (by simp)

/-! ## Types of expressions and declarations -/

theorem declarationType_eq (n : NodeId) : s.declarationType n = b.declarationType n := by
  unfold declarationType
  by_cases hn : b.Has n
  · have hgrand : (b.parent n).bind s.parent = (b.parent n).bind b.parent :=
      bind_congr fun p hp ↦ h.parent_eq (h.base.has_parent hp)
    rw [h.kind_eq hn, h.child_eq hn, h.parent_eq hn, hgrand]
  · rw [kind_of_not_has hn]
    rcases h.extra_kind hn with hkind | ⟨data, hkind⟩ | ⟨q, hkind⟩ <;> rw [hkind]

theorem expressionType_eq (hn : b.Has n) : s.expressionType n = b.expressionType n := by
  have hstep : ∀ fuel fuel' n, b.Has n →
      (∀ c, some c ∈ b.slots n → s.expressionTypeWithin fuel c = b.expressionTypeWithin fuel' c) →
        s.expressionTypeWithin (fuel + 1) n = b.expressionTypeWithin (fuel' + 1) n := by
    intro fuel fuel' n hn hchildren
    have hchild : ∀ i, (b.child n i).bind (s.expressionTypeWithin fuel) =
        (b.child n i).bind (b.expressionTypeWithin fuel') :=
      fun i ↦ bind_congr fun c hc ↦ hchildren c (mem_slots_of_child hc)
    have hliteral : ((b.child n 0).bind fun c ↦ s.child c 0) = (b.child n 0).bind fun c ↦ b.child c 0 :=
      bind_congr fun c hc ↦ h.child_eq (h.base.has_of_child hc) 0
    have hlink : ∀ link, (s.linkTarget link).bind s.declarationType =
        (b.linkTarget link).bind b.declarationType := by
      intro link
      rw [h.linkTarget_eq]
      exact bind_congr fun d _ ↦ h.declarationType_eq d
    unfold expressionTypeWithin
    simp only [h.kind_eq hn, h.child_eq hn, hchild, hliteral, hlink]
  exact h.rooted.eq_of_descent hstep hn (Nat.le_succ_of_le h.size_le) (Nat.le_succ _)

theorem function_eq (hn : b.Has n) :
    (s.child n 0).bind s.unqualified = (b.child n 0).bind b.unqualified := by
  rw [h.child_eq hn]
  exact bind_congr fun c hc ↦ h.unqualified_eq (h.base.has_of_child hc)

/-- A type that is not in the base has no parameters, since what it holds are types. -/
theorem childrenFrom_extra (hn : ¬b.Has n) (start : Nat) :
    s.childrenFrom n start .declaration = [] := by
  unfold childrenFrom
  refine filter_eq_nil_iff.2 fun c hc ↦ ?_
  obtain ⟨slot, hslot, hsome⟩ := mem_filterMap.1 hc
  cases hsome
  have hheld := mem_of_mem_drop hslot
  have hextra := h.extra_type (h.not_has_of_held hn hheld) (h.linked.has_of_held hheld)
  rcases hextra with hcategory | hcategory
  · rw [hcategory]; decide
  · rw [hcategory]; decide

theorem parameters_eq (n : NodeId) : s.parameters n = b.parameters n := by
  unfold parameters
  by_cases hn : b.Has n
  · rw [h.function_eq hn]
    cases hf : (b.child n 0).bind b.unqualified with
    | none => rfl
    | some f =>
      obtain ⟨c, -, hf⟩ := bind_eq_some_iff.1 hf
      exact h.childrenFrom_eq (h.base.has_of_unqualified hf) 1 .declaration
  · have hnone : b.child n 0 = none := by
      unfold child
      rw [slots_of_not_has hn]
      rfl
    rw [hnone]
    cases hf : (s.child n 0).bind s.unqualified with
    | none => rfl
    | some f =>
      obtain ⟨c, hc, hf⟩ := bind_eq_some_iff.1 hf
      have hc' := h.not_has_of_held hn (mem_slots_of_child hc)
      apply h.childrenFrom_extra
      intro hhas
      obtain ⟨_, -, rfl⟩ | ⟨_, -, hf⟩ := unqualified_cases hf
      · exact hc' hhas
      · exact h.not_has_of_held hc' (mem_slots_of_child hf) hhas

theorem resultType_eq (hn : b.Has n) : s.resultType n = b.resultType n := by
  unfold resultType
  rw [h.function_eq hn]
  refine bind_congr fun f hf ↦ ?_
  obtain ⟨c, -, hf⟩ := bind_eq_some_iff.1 hf
  exact h.child_eq (h.base.has_of_unqualified hf) 0

theorem enclosingResultType_eq (hn : b.Has n) :
    s.enclosingResultType n = b.enclosingResultType n := by
  unfold enclosingResultType
  rw [h.findAncestor_eq hn]
  refine bind_congr fun f hf ↦ h.resultType_eq ?_
  exact h.rooted.has_of_mem_ancestors (mem_of_find?_eq_some hf)

theorem isAuto_eq (hn : b.Has n) : s.isAuto n = b.isAuto n := by
  unfold isAuto
  rw [h.unqualified_eq hn]
  have hshape : (b.unqualified n).bind s.shape? = (b.unqualified n).bind b.shape? :=
    bind_congr fun u hu ↦ h.shape?_eq (h.base.has_of_unqualified hu)
  rw [hshape]

end

/-! ## Serialization -/

section Serialization

variable {write write' : NodeId → Option String}

variable (h : Inset b s)

include h

theorem isDeclared_eq (hn : b.Has n) : s.isDeclared n = b.isDeclared n := by
  have hgrand : (b.parent n).bind s.parent = (b.parent n).bind b.parent :=
    bind_congr fun p hp ↦ h.parent_eq (h.base.has_parent hp)
  unfold isDeclared
  rw [h.parent_eq hn, hgrand]
  cases (b.parent n).bind b.parent with
  | none => rfl
  | some d => exact h.isTypeDeclaration_eq d

variable (hwrite : ∀ m, b.Has m → write m = write' m)

include hwrite

theorem serializeQualifiedWith_eq (hn : b.Has n) :
    serializeQualifiedWith s write n = serializeQualifiedWith b write' n := by
  have hchild : (b.child n 0).bind write = (b.child n 0).bind write' :=
    bind_congr fun c hc ↦ hwrite c (h.base.has_of_child hc)
  unfold serializeQualifiedWith
  rw [h.qualifiers?_eq hn, h.child_eq hn, hwrite n hn]
  simp only [bind_eq_bind, ← bind_assoc, hchild]

theorem serializeAround_eq {part : Option NodeId}
    (hpart : ∀ m, part = some m → b.Has m) (word : String) :
    serializeAround s write word part = serializeAround b write' word part := by
  unfold serializeAround
  cases part with
  | none => rfl
  | some m =>
    simp only [bind_eq_bind, bind_some]
    rw [h.serializeQualifiedWith_eq hwrite (hpart m rfl)]

theorem serializeMember_eq (hn : b.Has n) : serializeMember s write n = serializeMember b write' n := by
  have hchild : (b.child n 0).bind (serializeQualifiedWith s write) =
      (b.child n 0).bind (serializeQualifiedWith b write') :=
    bind_congr fun c hc ↦ h.serializeQualifiedWith_eq hwrite (h.base.has_of_child hc)
  unfold serializeMember
  rw [h.declaration?_eq, h.child_eq hn]
  simp only [bind_eq_bind, ← bind_assoc, hchild]

theorem serializeShape_eq (hn : b.Has n) (data : TypeData) :
    serializeShape s write n data = serializeShape b write' n data := by
  have hlinked : ∀ resolved, (b.linkedType resolved).bind write = (b.linkedType resolved).bind write' :=
    fun resolved ↦ bind_congr fun u hu ↦ hwrite u (h.base.has_of_linkedType hu)
  have helement : ∀ word, serializeAround s write word (b.elementType n) =
      serializeAround b write' word (b.elementType n) :=
    h.serializeAround_eq hwrite fun m hm ↦ h.base.has_of_elementType hm
  have hpart : ∀ word, serializeAround s write word (b.child n 0) =
      serializeAround b write' word (b.child n 0) :=
    h.serializeAround_eq hwrite fun m hm ↦ h.base.has_of_child hm
  have hparts : (b.children n).mapM (serializeQualifiedWith s write) =
      (b.children n).mapM (serializeQualifiedWith b write') :=
    mapM_congr_of_mem fun c hc ↦ h.serializeQualifiedWith_eq hwrite (h.base.has_of_mem_children hc)
  have hmembers : (b.children n).mapM (serializeMember s write) =
      (b.children n).mapM (serializeMember b write') :=
    mapM_congr_of_mem fun c hc ↦ h.serializeMember_eq hwrite (h.base.has_of_mem_children hc)
  have hsignature : (b.children n).mapM (serializeSignaturePart s write) =
      (b.children n).mapM (serializeSignaturePart b write') := by
    refine mapM_congr_of_mem fun c hc ↦ ?_
    have hhas := h.base.has_of_mem_children hc
    unfold serializeSignaturePart
    rw [h.kind_eq hhas, h.child_eq hhas, h.serializeQualifiedWith_eq hwrite hhas]
    have hchild : (b.child c 0).bind (serializeQualifiedWith s write) =
        (b.child c 0).bind (serializeQualifiedWith b write') :=
      bind_congr fun m hm ↦ h.serializeQualifiedWith_eq hwrite (h.base.has_of_child hm)
    rw [hchild]
  unfold serializeShape serializeCompound
  simp only [h.linkedType_eq, h.elementType_eq hn, h.child_eq hn, h.children_eq hn, h.isDeclared_eq hn,
    hlinked, helement, hpart, hparts, hmembers, hsignature]

end Serialization

theorem serialize_eq (h : Inset b s) (hn : b.Has n) : s.serialize n = b.serialize n := by
  unfold serialize
  generalize serializationDepth = depth
  induction depth generalizing n with
  | zero =>
    have hdata : (b.unqualified n).bind s.typeData? = (b.unqualified n).bind b.typeData? :=
      bind_congr fun u hu ↦ h.typeData?_eq (h.base.has_of_unqualified hu)
    unfold serializeWithin
    simp only [bind_eq_bind, ← bind_assoc, h.unqualified_eq hn, hdata]
  | succ depth ih =>
    unfold serializeWithin
    rw [h.unqualified_eq hn]
    refine bind_congr fun u hu ↦ ?_
    have hhas := h.base.has_of_unqualified hu
    simp only [h.typeData?_eq hhas, h.serializeShape_eq (fun m hm ↦ ih hm) hhas]

theorem typesEqual_eq (h : Inset b s) (hn : b.Has n) (hm : b.Has m) :
    s.typesEqual n m = b.typesEqual n m := by
  rw [Bool.eq_iff_iff, typesEqual_iff, typesEqual_iff, h.unqualified_eq hn, h.unqualified_eq hm,
    h.serialize_eq hn, h.serialize_eq hm]

end ProtocolIR.Tree.Inset
