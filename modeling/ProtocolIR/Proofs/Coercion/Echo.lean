import ProtocolIR.Proofs.Padding.Condition

/-!
# Echoes

A later tree *echoes* an earlier one along a relation of nodes: related nodes have the same kind,
the slots in which types are looked for hold related nodes, and a link that leads somewhere in the
later tree led to the same node in the earlier one. Several nodes may echo one node, as copies do,
but a node echoes one node at most. Links may be lost, so that less is resolved later than before.

What a reader of types finds in the later tree then echoes what it found in the earlier one. The
other direction needs that the type is resolved in the later tree. Texts of types are read off
their records, but for names that stand for types with a record.
-/

namespace ProtocolIR

open List Option NodeKind Bool

/-- The link of a name or of a call. -/
def NodeKind.link? : NodeKind → Option Link
  | .type data =>
    match data.shape with
    | .name _ resolved => resolved
    | _ => none
  | .expression (.name _ resolved) => resolved
  | .expression (.resolved _ (.function link)) => some link
  | _ => none

/-- The slots in which types are looked for. The first operand of a built-in operator can give
the others their type. -/
def NodeKind.ReadsType : NodeKind → Nat → Prop
  | .qualified _, _ | .type _, _ | .literal _, _ => True
  | .declaration _, i | .item _, i => i = 0
  | .expression .coerced, i | .expression .ternary, i => i = 1
  | .expression (.resolved _ (.builtin _)), i => i ≤ 1
  | .expression _, i => i = 0
  | _, _ => False

section Relations

variable {α β : Type} {r : α → α → Prop} {s : β → β → Prop} {x y : Option α}

section

variable (h : Option.Rel r x y)

include h

theorem rel_bind {f g : α → Option β} (hfg : ∀ a b, r a b → Option.Rel s (f a) (g b)) :
    Option.Rel s (x.bind f) (y.bind g) := by
  cases h with
  | none => exact .none
  | some hab => exact hfg _ _ hab

theorem exists_of_rel_some {b : α} (hy : y = some b) : ∃ a, x = some a ∧ r a b := by
  subst hy
  cases h with
  | some hab => exact ⟨_, rfl, hab⟩

theorem exists_of_some_rel {a : α} (hx : x = some a) : ∃ b, y = some b ∧ r a b := by
  subst hx
  cases h with
  | some hab => exact ⟨_, rfl, hab⟩

theorem any_of_rel {p q : α → Bool} (hpq : ∀ {a b}, r a b → q b = true → p a = true)
    (hy : y.any q = true) : x.any p = true := by
  cases h with
  | none => cases hy
  | some hab => exact hpq hab hy

theorem all_of_rel {p q : α → Bool} (hpq : ∀ {a b}, r a b → q b = true → p a = true)
    (hy : y.all q = true) : x.all p = true := by
  cases h with
  | none => rfl
  | some hab => exact hpq hab hy

end

end Relations

namespace Tree

variable {u s n v : NodeId} {t : Tree} {fuel : Nat} {data : TypeData} {text : String} {link : Link}

/-- A name without a record for a declared type whose text is on record. -/
def NamesRecorded (t : Tree) (data : TypeData) : Prop :=
  data.wildcard = false ∧ data.unification = none ∧ ∃ id link u text,
    data.shape = .name id (some link) ∧ t.declaredType link.node = some u ∧
      (t.typeData? u).bind TypeData.unification = some text

/-- The text of a type is on record, or the type is a name for one whose text is. -/
def Legible (t : Tree) (n : NodeId) : Prop :=
  ∀ data, t.kind n = .type data → (∃ text, data.unification = some text) ∨ t.NamesRecorded data

section Names

variable {id : QualifiedId} {resolved : Option Link} {path : List NodeId}

theorem shape?_of_type (hkind : t.kind n = .type data) : t.shape? n = some data.shape :=
  map_eq_some_iff.2 ⟨data, typeData?_eq_some_iff.2 hkind, rfl⟩

variable (hshape : t.shape? n = some (.name id resolved))

include hshape

theorem link?_of_name : (t.kind n).link? = resolved := by
  obtain ⟨data, hdata, hname⟩ := map_eq_some_iff.1 hshape
  rw [typeData?_eq_some_iff.1 hdata]
  unfold link?
  simp only [hname]

theorem followWithin_of_name :
    t.followWithin (fuel + 1) n = (t.linkedType resolved).bind (t.followWithin fuel) := by
  rw [followWithin, hshape]

theorem isResolvedWithin_of_name (hn : n ∉ path) :
    t.isResolvedWithin (fuel + 1) path n =
      (t.linkedType resolved).any (t.isResolvedWithin fuel (n :: path)) := by
  obtain ⟨data, hdata, hname⟩ := map_eq_some_iff.1 hshape
  unfold isResolvedWithin linkedType
  simp only [if_neg hn, typeData?_eq_some_iff.1 hdata, hname]
  cases resolved.bind t.linkTarget with
  | none | some d => rfl

end Names

structure Echo (t t' : Tree) (r : NodeId → NodeId → Prop) : Prop where
  rooted : t.Rooted
  rooted' : t'.Rooted
  size_le : t.size ≤ t'.size
  has : ∀ {a b}, r a b → t.Has a
  has' : ∀ {a b}, r a b → t'.Has b
  unique : ∀ {a a' b}, r a b → r a' b → a = a'
  kind : ∀ {a b}, r a b → t'.kind b = t.kind a
  length : ∀ {a b}, r a b → (t'.slots b).length = (t.slots a).length
  slot : ∀ {a b i}, r a b → (t.kind a).ReadsType i → Option.Rel r (t.child a i) (t'.child b i)
  other : ∀ {a b i c'}, r a b → t'.child b i = some c' → (t'.kind c').isExpression = false →
    ∃ c, t.child a i = some c ∧ r c c'
  other' : ∀ {a b i c}, r a b → t.child a i = some c → (t.kind c).isExpression = false →
    ∃ c', t'.child b i = some c' ∧ r c c'
  target : ∀ {a b link m}, r a b → (t.kind a).link? = some link → t'.linkTarget link = some m →
    t.linkTarget link = some m ∧ r m m
  around : ∀ {link m q}, t'.linkTarget link = some m → r m m → (t'.parent m).bind t'.parent = some q →
    (t'.kind q).isExpression = false → (t.parent m).bind t.parent = some q ∧ r q q
  callee : ∀ {a b kind link}, r a b → t.kind a = .expression (.resolved kind (.function link)) →
    r link.node link.node
  function : ∀ {a b f'}, r a b → t.kind a = .statement .ret →
    t'.findAncestor b isFunction = some f' →
      ∃ f, t.findAncestor a isFunction = some f ∧ r f f'
  legible : ∀ {a b}, r a b → t.Legible a

namespace Echo

variable {t t' : Tree} {r : NodeId → NodeId → Prop} {a b u u' s s' q' : NodeId} {fuel fuel' : Nat}
  {path path' : List NodeId}

variable (h : Echo t t' r)

include h

theorem typeData?_eq (hr : r a b) : t'.typeData? b = t.typeData? a := by
  unfold typeData?
  rw [h.kind hr]

theorem shape?_eq (hr : r a b) : t'.shape? b = t.shape? a := by
  unfold shape?
  rw [h.typeData?_eq hr]

theorem literal?_eq (hr : r a b) : t'.literal? b = t.literal? a := by
  unfold literal?
  rw [h.kind hr]

/-- What a node holds that reads types in all its slots. -/
theorem slots (hr : r a b) (hreads : ∀ i, (t.kind a).ReadsType i) :
    List.Forall₂ (Option.Rel r) (t.slots a) (t'.slots b) := by
  refine forall₂_iff_get.2 ⟨(h.length hr).symm, fun i hi hi' ↦ ?_⟩
  have hslot := h.slot hr (hreads i)
  unfold child at hslot
  rw [getElem?_eq_getElem hi, getElem?_eq_getElem hi'] at hslot
  exact hslot

theorem children (hr : r a b) (hreads : ∀ i, (t.kind a).ReadsType i) :
    List.Forall₂ r (t.children a) (t'.children b) := by
  have hslots := h.slots hr hreads
  unfold Tree.children
  generalize t.slots a = x, t'.slots b = y at hslots
  induction hslots with
  | nil => exact .nil
  | cons hab _ ih =>
    cases hab with
    | none => exact ih
    | some hab => exact .cons hab ih

theorem unqualified (hr : r a b) : Option.Rel r (t.unqualified a) (t'.unqualified b) := by
  unfold Tree.unqualified
  rw [h.kind hr]
  cases hkind : t.kind a with
  | qualified q => exact h.slot hr (by rw [hkind]; trivial)
  | type data => exact .some hr
  | _ => exact .none

theorem declaredType (hr : r a b) : Option.Rel r (t.declaredType a) (t'.declaredType b) := by
  unfold Tree.declaredType
  rw [h.kind hr]
  split
  next htype =>
    refine rel_bind (h.slot hr ?_) fun _ _ ↦ h.unqualified
    cases hkind : t.kind a with
    | declaration d => rfl
    | _ => rw [hkind] at htype; cases htype
  · exact .none

theorem exists_linkedType (hr : r a b) {resolved : Option Link}
    (hlink : (t.kind a).link? = resolved) (hu : t'.linkedType resolved = some u') :
    ∃ u, t.linkedType resolved = some u ∧ r u u' := by
  obtain ⟨m, hm, hdeclared⟩ := bind_eq_some_iff.1 hu
  obtain ⟨link, rfl, htarget⟩ := bind_eq_some_iff.1 hm
  obtain ⟨htarget, hrm⟩ := h.target hr hlink htarget
  obtain ⟨u, hu, hru⟩ := exists_of_rel_some (h.declaredType hrm) hdeclared
  exact ⟨u, bind_eq_some_iff.2 ⟨m, htarget, hu⟩, hru⟩

theorem exists_followWithin (hr : r u u') (hs : t'.followWithin fuel u' = some s') :
    ∃ s, t.followWithin fuel u = some s ∧ r s s' := by
  induction fuel generalizing u u' with
  | zero => cases hs
  | succ fuel ih =>
    unfold followWithin at hs ⊢
    rw [h.shape?_eq hr] at hs
    split at hs
    · cases hs
    next hshape =>
      obtain ⟨m', hm', hs⟩ := bind_eq_some_iff.1 hs
      obtain ⟨m, hm, hrm⟩ := h.exists_linkedType hr (link?_of_name hshape) hm'
      obtain ⟨s, hs, hrs⟩ := ih hrm hs
      exact ⟨s, bind_eq_some_iff.2 ⟨m, hm, hs⟩, hrs⟩
    · cases hs
      exact ⟨u, rfl, hr⟩

theorem exists_follow (hr : r a b) (hs : t'.follow b = some s') :
    ∃ s, t.follow a = some s ∧ r s s' := by
  obtain ⟨u', hu', hs⟩ := bind_eq_some_iff.1 hs
  obtain ⟨u, hu, hru⟩ := exists_of_rel_some (h.unqualified hr) hu'
  obtain ⟨s, hs, hrs⟩ := h.exists_followWithin hru hs
  exact ⟨s, bind_eq_some_iff.2 ⟨u, hu, hs⟩, hrs⟩

/-! ## Resolved types -/

/-- One level of the check. -/
theorem isResolvedWithin_succ (hr : r a b) (hmem : a ∉ path) (hmem' : b ∉ path')
    (hcheck : ∀ {c c'}, r c c' → t'.isResolvedWithin fuel' (b :: path') c' = true →
      t.isResolvedWithin fuel (a :: path) c = true)
    (hres : t'.isResolvedWithin (fuel' + 1) path' b = true) :
    t.isResolvedWithin (fuel + 1) path a = true := by
  have hlater := hres
  unfold Tree.isResolvedWithin at hres ⊢
  rw [if_neg hmem', h.kind hr] at hres
  rw [if_neg hmem]
  cases hkind : t.kind a with
  | type data =>
    rw [hkind] at hres
    cases hshape : data.shape with
    | name id resolved =>
      have hname := (shape?_of_type hkind).trans (congrArg some hshape)
      rw [isResolvedWithin_of_name ((h.shape?_eq hr).trans hname) hmem'] at hlater
      obtain ⟨m', hm', hres⟩ := (any_eq_true _ _).1 hlater
      obtain ⟨m, hm, hrm⟩ := h.exists_linkedType hr (link?_of_name hname) hm'
      obtain ⟨d, hd, hm⟩ := bind_eq_some_iff.1 hm
      simp only [hshape, hd]
      exact (any_eq_true _ _).2 ⟨m, hm, hcheck hrm hres⟩
    | auto | unknown =>
      simp only [hshape] at hres
      cases hres
    | _ =>
      simp only [hshape, or_eq_true_iff] at hres ⊢
      refine hres.imp_right fun hparts ↦ all_eq_true.2 fun c hc ↦ ?_
      obtain ⟨c', hc', hrc⟩ := exists_mem_of_forall₂ (h.children hr fun i ↦ by rw [hkind]; trivial) hc
      exact hcheck hrc (all_eq_true.1 hparts c' hc')
  | qualified q =>
    rw [hkind] at hres
    exact any_of_rel (h.slot hr (by rw [hkind]; trivial)) hcheck hres
  | declaration d =>
    rw [hkind] at hres
    have hslot := h.slot (i := 0) hr (by rw [hkind]; rfl)
    cases hd : d.kind with
    | label => simp only [hd]
    | _ =>
      simp only [hd] at hres ⊢
      exact all_of_rel hslot hcheck hres
  | item i =>
    rw [hkind] at hres
    exact all_of_rel (h.slot hr (by rw [hkind]; rfl)) hcheck hres
  | _ => rfl

/-- A path in the later tree without repetition ends before the fuel does, and the earlier check
stops at the latest where the later one does. -/
theorem isResolvedWithin (hr : r a b) (hpath : ∀ y ∈ path', ∃ x ∈ path, r x y)
    (hnodup : path'.Nodup) (hhas : ∀ y ∈ path', t'.Has y) (hfuel : t'.size < fuel' + path'.length)
    (hres : t'.isResolvedWithin fuel' path' b = true) : t.isResolvedWithin fuel path a = true := by
  induction fuel' generalizing fuel path path' a b with
  | zero =>
    have hle := length_le_size hnodup hhas
    omega
  | succ fuel' ih =>
    cases fuel with
    | zero => rfl
    | succ fuel =>
      by_cases hmem : a ∈ path
      · unfold Tree.isResolvedWithin
        rw [if_pos hmem]
      · have hmem' : b ∉ path' := fun hb ↦ by
          obtain ⟨x, hx, hrx⟩ := hpath b hb
          exact hmem (h.unique hrx hr ▸ hx)
        refine h.isResolvedWithin_succ hr hmem hmem' (fun hc ↦ ?_) hres
        refine ih hc ?_ (nodup_cons.2 ⟨hmem', hnodup⟩)
          (forall_mem_cons.2 ⟨h.has' hr, hhas⟩) (by rw [length_cons]; omega)
        refine forall_mem_cons.2 ⟨⟨a, mem_cons_self, hr⟩, fun y hy ↦ ?_⟩
        obtain ⟨x, hx, hrx⟩ := hpath y hy
        exact ⟨x, mem_cons_of_mem a hx, hrx⟩

theorem isResolved (hr : r a b) (hres : t'.isResolved b = true) : t.isResolved a = true := by
  show t.isResolvedWithin (t.size + 1) [] a = true
  exact h.isResolvedWithin hr (fun _ hy ↦ by cases hy) nodup_nil (fun _ hy ↦ by cases hy) (by simp) hres

end Echo

theorem followWithin_of_le {fuel' : Nat} (hle : fuel ≤ fuel') (hs : t.followWithin fuel u = some s) :
    t.followWithin fuel' u = some s := by
  induction fuel generalizing fuel' u with
  | zero => cases hs
  | succ fuel ih =>
    obtain ⟨fuel', rfl⟩ : ∃ k, fuel' = k + 1 := ⟨fuel' - 1, by omega⟩
    unfold followWithin at hs ⊢
    split at hs
    · cases hs
    · obtain ⟨m, hm, hs⟩ := bind_eq_some_iff.1 hs
      exact bind_eq_some_iff.2 ⟨m, hm, ih (by omega) hs⟩
    · exact hs

/-- A chain of names that ends has a length. -/
theorem exists_least_followWithin (hs : t.followWithin fuel u = some s) :
    ∃ k ≤ fuel, t.followWithin k u = some s ∧ ∀ j < k, t.followWithin j u = none := by
  induction fuel with
  | zero => cases hs
  | succ fuel ih =>
    cases hbefore : t.followWithin fuel u with
    | none =>
      refine ⟨fuel + 1, Nat.le_refl _, hs, fun j hj ↦ eq_none_iff_forall_ne_some.2 fun m hm ↦ ?_⟩
      rw [followWithin_of_le (Nat.le_of_lt_succ hj) hm] at hbefore
      cases hbefore
    | some m =>
      have hsame := followWithin_of_le (Nat.le_succ fuel) hbefore
      rw [hs] at hsame
      cases hsame
      obtain ⟨k, hk, hleast⟩ := ih hbefore
      exact ⟨k, Nat.le_succ_of_le hk, hleast⟩

namespace Echo

/-- A chain of names that ends stays a chain while it is resolved. What is on the path already
needs more steps than are left, so the check does not stop early. -/
theorem exists_followWithin_of_isResolved (h : Echo t t' r) {k fuel' : Nat} {path' : List NodeId}
    (hr : r u u') (hs : t.followWithin k u = some s) (hleast : ∀ j < k, t.followWithin j u = none)
    (hpath : ∀ y ∈ path', ∃ x, r x y ∧ t.followWithin k x = none) (hnodup : path'.Nodup)
    (hhas : ∀ y ∈ path', t'.Has y) (hfuel : t'.size < fuel' + path'.length)
    (hres : t'.isResolvedWithin fuel' path' u' = true) :
    ∃ s', t'.followWithin k u' = some s' ∧ r s s' := by
  induction k generalizing fuel' path' u u' with
  | zero => cases hs
  | succ k ih =>
    cases fuel' with
    | zero =>
      have hle := length_le_size hnodup hhas
      omega
    | succ fuel' =>
      have hmem : u' ∉ path' := fun hu' ↦ by
        obtain ⟨x, hrx, hx⟩ := hpath u' hu'
        rw [h.unique hrx hr, hs] at hx
        cases hx
      have hshape' := h.shape?_eq hr
      unfold followWithin at hs ⊢
      rw [hshape']
      split at hs
      · cases hs
      next id resolved hshape =>
        have hstep : ∀ j, t.followWithin (j + 1) u = (t.linkedType resolved).bind (t.followWithin j) :=
          fun j ↦ followWithin_of_name hshape
        rw [isResolvedWithin_of_name (hshape'.trans hshape) hmem] at hres
        obtain ⟨m', hm', hres⟩ := (any_eq_true _ _).1 hres
        obtain ⟨m, hm, hrm⟩ := h.exists_linkedType hr (link?_of_name hshape) hm'
        simp only [hm, hm', bind_some] at hstep hs ⊢
        refine ih hrm hs (fun j hj ↦ (hstep j).symm.trans (hleast (j + 1) (by omega)))
          (forall_mem_cons.2 ⟨⟨u, hr, hleast k (by omega)⟩, fun y hy ↦ ?_⟩)
          (nodup_cons.2 ⟨hmem, hnodup⟩) (forall_mem_cons.2 ⟨h.has' hr, hhas⟩)
          (by rw [length_cons]; omega) hres
        obtain ⟨x, hrx, hx⟩ := hpath y hy
        refine ⟨x, hrx, eq_none_iff_forall_ne_some.2 fun v hv ↦ ?_⟩
        rw [followWithin_of_le (Nat.le_succ k) hv] at hx
        cases hx
      · cases hs
        exact ⟨u', rfl, hr⟩

theorem exists_follow_of_isResolved (h : Echo t t' r) (hr : r a b) (hs : t.follow a = some s)
    (hres : t'.isResolved b = true) : ∃ s', t'.follow b = some s' ∧ r s s' := by
  obtain ⟨u, hu, hs⟩ := bind_eq_some_iff.1 hs
  obtain ⟨u', hu', hru⟩ := exists_of_some_rel (h.unqualified hr) hu
  obtain ⟨k, hk, hs, hleast⟩ := exists_least_followWithin hs
  have hfollow : ∃ s', t'.followWithin k u' = some s' ∧ r s s' := by
    obtain ⟨_, -, rfl⟩ | ⟨q, hkind, hchild⟩ := unqualified_cases hu'
    · exact h.exists_followWithin_of_isResolved hru hs hleast (fun _ hy ↦ by cases hy) nodup_nil
        (fun _ hy ↦ by cases hy) (by simp) hres
    · unfold Tree.isResolved Tree.isResolvedWithin at hres
      simp only [hkind, hchild, not_mem_nil, if_false, any_some] at hres
      refine h.exists_followWithin_of_isResolved hru hs hleast ?_
        (nodup_singleton b) (fun y hy ↦ ?_) (by simp) hres
      · intro y hy
        cases mem_singleton.1 hy
        refine ⟨a, hr, ?_⟩
        cases k with
        | zero => rfl
        | succ k =>
          unfold followWithin shape? typeData?
          rw [← h.kind hr, hkind]
          rfl
      · cases mem_singleton.1 hy
        exact h.has' hr
  obtain ⟨s', hs', hrs⟩ := hfollow
  exact ⟨s', bind_eq_some_iff.2 ⟨u', hu', followWithin_of_le hk hs'⟩, hrs⟩

end Echo

/-! ## Texts -/

/-- The text of a name that is not on record is the text of what it stands for. -/
theorem serialize_of_name {id : QualifiedId} (hu : t.unqualified n = some u)
    (hkind : t.kind u = .type data) (hnone : data.unification = none)
    (hwildcard : data.wildcard = false) (hshape : data.shape = .name id (some link))
    (hv : t.linkedType (some link) = some v)
    (htext : (t.typeData? v).bind TypeData.unification = some text) : t.serialize n = some text := by
  obtain ⟨dataV, hdata, hdataText⟩ := bind_eq_some_iff.1 htext
  have hself := unqualified_of_type (typeData?_eq_some_iff.1 hdata)
  unfold serialize serializationDepth serializeWithin
  simp only [hu, typeData?_eq_some_iff.2 hkind, hnone, bind_eq_bind, bind_some]
  unfold serializeShape
  simp only [hwildcard, hshape, hv, bind_some, false_eq_true, if_false]
  unfold serializeWithin
  simp only [hself, hdata, hdataText, bind_eq_bind, bind_some]

/-- A name that is not on record has no text unless it is linked. -/
theorem exists_linkedType_of_serialize {id : QualifiedId}
    (hu : t.unqualified n = some u) (hkind : t.kind u = .type data)
    (hnone : data.unification = none) (hwildcard : data.wildcard = false)
    (hshape : data.shape = .name id (some link)) (htext : t.serialize n = some text) :
    ∃ v, t.linkedType (some link) = some v := by
  unfold serialize serializationDepth serializeWithin at htext
  simp only [hu, typeData?_eq_some_iff.2 hkind, hnone, bind_eq_bind, bind_some] at htext
  unfold serializeShape at htext
  simp only [hwildcard, hshape, false_eq_true, if_false] at htext
  obtain ⟨v, hv, -⟩ := bind_eq_some_iff.1 htext
  exact ⟨v, hv⟩

theorem exists_typeData_of_serialize (htext : t.serialize n = some text) :
    ∃ u data, t.unqualified n = some u ∧ t.kind u = .type data := by
  unfold serialize serializationDepth serializeWithin at htext
  obtain ⟨u, hu, htext⟩ := bind_eq_some_iff.1 htext
  obtain ⟨data, hdata, -⟩ := bind_eq_some_iff.1 htext
  exact ⟨u, data, hu, typeData?_eq_some_iff.1 hdata⟩

/-- What a link stands for is what its node declares. -/
theorem linkedType_eq_of_declaredType (hu : t.declaredType link.node = some u)
    (hv : t.linkedType (some link) = some v) : v = u := by
  obtain ⟨d, hd, hv⟩ := bind_eq_some_iff.1 hv
  rw [eq_of_linkTarget hd, hu] at hv
  exact (some.inj hv).symm

/-- A resolved name is linked. -/
theorem exists_linkedType_of_isResolved {id : QualifiedId} (ht : t.Linked)
    (hu : t.unqualified n = some u) (hkind : t.kind u = .type data)
    (hshape : data.shape = .name id (some link)) (hres : t.isResolved n = true) :
    ∃ v, t.linkedType (some link) = some v := by
  have hname : ∀ fuel (path : List NodeId), u ∉ path → t.isResolvedWithin (fuel + 1) path u = true →
      ∃ v, t.linkedType (some link) = some v := by
    intro fuel path hmem hres
    rw [isResolvedWithin_of_name ((shape?_of_type hkind).trans (congrArg some hshape)) hmem] at hres
    obtain ⟨v, hv, -⟩ := (any_eq_true _ _).1 hres
    exact ⟨v, hv⟩
  obtain ⟨_, -, rfl⟩ | ⟨q, hn, hchild⟩ := unqualified_cases hu
  · exact hname _ [] (by simp) hres
  · have hne : u ≠ n := by
      rintro rfl
      rw [hkind] at hn
      cases hn
    obtain ⟨size, hsize⟩ : ∃ size, t.size = size + 1 := by
      have hhas := ht.has_of_child hchild
      unfold Has at hhas
      exact ⟨t.size - 1, by omega⟩
    unfold isResolved at hres
    rw [hsize] at hres
    unfold isResolvedWithin at hres
    simp only [hn, hchild, not_mem_nil, if_false, any_some] at hres
    exact hname _ [n] (by simpa using hne) hres

namespace Echo

variable {c d : NodeId} (h : Echo t t' r)

include h

/-- Types have the same text in both trees where a name without a record is still linked. -/
theorem exists_serialize (hr : r a b) (hu' : t'.unqualified b = some u') (hkind' : t'.kind u' = .type data)
    (hlinked : ∀ id link, data.unification = none → data.wildcard = false →
      data.shape = .name id (some link) → ∃ v, t'.linkedType (some link) = some v) :
    ∃ text, t.serialize a = some text ∧ t'.serialize b = some text := by
  obtain ⟨u, hu, hru⟩ := exists_of_rel_some (h.unqualified hr) hu'
  have hkind : t.kind u = .type data := by rw [← h.kind hru, hkind']
  rcases h.legible hru data hkind with ⟨x, hx⟩ | ⟨hwildcard, hnone, id, link, v, x, hshape, hv, hx⟩
  · have hrecord : (t.typeData? u).bind TypeData.unification = some x := by
      rw [typeData?_eq_some_iff.2 hkind]
      exact hx
    exact ⟨x, serialize_of_unification hu hrecord,
      serialize_of_unification hu' (by rw [h.typeData?_eq hru]; exact hrecord)⟩
  · have hlink := link?_of_name ((shape?_of_type hkind).trans (congrArg some hshape))
    obtain ⟨v', hv'⟩ := hlinked id link hnone hwildcard hshape
    obtain ⟨w, hw, hrw⟩ := h.exists_linkedType hru hlink hv'
    cases linkedType_eq_of_declaredType hv hw
    exact ⟨x, serialize_of_name hu hkind hnone hwildcard hshape hw hx,
      serialize_of_name hu' hkind' hnone hwildcard hshape hv' (by rw [h.typeData?_eq hrw]; exact hx)⟩

/-- A text that shows in the later tree showed in the earlier one. -/
theorem serialize (hr : r a b) (htext : t'.serialize b = some text) :
    t.serialize a = some text := by
  obtain ⟨u', data, hu', hkind'⟩ := exists_typeData_of_serialize htext
  obtain ⟨x, hx, hx'⟩ := h.exists_serialize hr hu' hkind' fun _ _ hnone hwildcard hshape ↦
    exists_linkedType_of_serialize hu' hkind' hnone hwildcard hshape htext
  rw [hx, ← hx', htext]

/-- The text of a type that is still resolved is still the same. -/
theorem serialize_of_isResolved (hr : r a b) (htext : t.serialize a = some text)
    (hres : t'.isResolved b = true) : t'.serialize b = some text := by
  obtain ⟨u, data, hu, hkind⟩ := exists_typeData_of_serialize htext
  obtain ⟨u', hu', hru⟩ := exists_of_some_rel (h.unqualified hr) hu
  have hkind' : t'.kind u' = .type data := by rw [h.kind hru, hkind]
  obtain ⟨x, hx, hx'⟩ := h.exists_serialize hr hu' hkind' fun _ _ _ _ hshape ↦
    exists_linkedType_of_isResolved h.rooted'.toLinked hu' hkind' hshape hres
  rw [hx', ← hx, htext]

theorem typesEqual (hr : r a b) (hrc : r c d) (hequal : t'.typesEqual b d = true) :
    t.typesEqual a c = true := by
  rw [typesEqual_iff] at hequal ⊢
  rcases hequal with ⟨u', hu', hv'⟩ | ⟨x, hx, hy⟩
  · obtain ⟨u, hu, hru⟩ := exists_of_rel_some (h.unqualified hr) hu'
    obtain ⟨v, hv, hrv⟩ := exists_of_rel_some (h.unqualified hrc) hv'
    exact .inl ⟨u, hu, h.unique hrv hru ▸ hv⟩
  · exact .inr ⟨x, h.serialize hr hx, h.serialize hrc hy⟩

/-- Types that were equal are equal while they are resolved, if one of them has a text. -/
theorem typesEqual_of_isResolved (hr : r a b) (hrc : r c d)
    (htext : t'.serialize d = some text) (hequal : t.typesEqual a c = true)
    (hres : t'.isResolved b = true) : t'.typesEqual b d = true := by
  rw [typesEqual_of_serialize htext, beq_iff_eq]
  rw [typesEqual_of_serialize (h.serialize hrc htext), beq_iff_eq] at hequal
  exact h.serialize_of_isResolved hr hequal hres

/-- What a type means has a text. -/
theorem exists_serialize_of_follow (hr : r a b) (hs : t'.follow b = some s') :
    ∃ text, t'.serialize b = some text := by
  obtain ⟨u', hu', hs⟩ := bind_eq_some_iff.1 hs
  unfold followLimit followWithin at hs
  cases hshape : t'.shape? u' with
  | none => rw [hshape] at hs; cases hs
  | some shape =>
    obtain ⟨data, hkind', rfl⟩ := shape?_eq_some_iff.1 hshape
    obtain ⟨x, -, hx⟩ := h.exists_serialize hr hu' hkind' fun id link _ _ hname ↦ by
      rw [hshape, hname] at hs
      obtain ⟨v, hv, -⟩ := bind_eq_some_iff.1 hs
      exact ⟨v, hv⟩
    exact ⟨x, hx⟩

/-! ## Types of expressions and declarations -/

theorem exists_declarationType {m : NodeId} (hm : t'.linkTarget link = some m)
    (hr : r m m) (hq : t'.declarationType m = some q') (hplain : (t'.kind q').isExpression = false) :
    ∃ q, t.declarationType m = some q ∧ r q q' := by
  unfold declarationType at hq ⊢
  rw [h.kind hr] at hq
  cases hkind : t.kind m with
  | declaration d =>
    rw [hkind] at hq
    cases hd : d.kind with
    | label =>
      simp only [hd] at hq ⊢
      exact ⟨q', h.around hm hr hq hplain⟩
    | _ =>
      simp only [hd] at hq ⊢
      split at hq
      next hvalue =>
        rw [if_pos hvalue]
        exact h.other hr hq hplain
      · cases hq
  | item i =>
    rw [hkind] at hq
    cases i with
    | field | var => exact h.other hr hq hplain
    | _ => cases hq
  | _ => rw [hkind] at hq; cases hq

theorem exists_expressionTypeWithin {fuel : Nat} (hr : r a b)
    (hq : t'.expressionTypeWithin fuel b = some q') (hplain : (t'.kind q').isExpression = false) :
    ∃ q, t.expressionTypeWithin fuel a = some q ∧ r q q' := by
  induction fuel generalizing a b with
  | zero => cases hq
  | succ fuel ih =>
    have hpart : ∀ i, (t.kind a).ReadsType i →
        (t'.child b i).bind (t'.expressionTypeWithin fuel) = some q' →
          ∃ q, (t.child a i).bind (t.expressionTypeWithin fuel) = some q ∧ r q q' := by
      intro i hreads hq
      obtain ⟨c', hc', hq⟩ := bind_eq_some_iff.1 hq
      obtain ⟨c, hc, hrc⟩ := exists_of_rel_some (h.slot hr hreads) hc'
      obtain ⟨q, hq, hrq⟩ := ih hrc hq
      exact ⟨q, bind_eq_some_iff.2 ⟨c, hc, hq⟩, hrq⟩
    unfold expressionTypeWithin at hq ⊢
    rw [h.kind hr] at hq
    cases hkind : t.kind a with
    | expression e =>
      rw [hkind] at hq
      cases e with
      | name id resolved =>
        cases resolved with
        | none => exact h.other hr hq hplain
        | some link =>
          obtain ⟨m, hm, hq⟩ := bind_eq_some_iff.1 hq
          obtain ⟨hm', hrm⟩ := h.target hr (by rw [hkind]; rfl) hm
          obtain ⟨q, hq, hrq⟩ := h.exists_declarationType hm hrm hq hplain
          exact ⟨q, bind_eq_some_iff.2 ⟨m, hm', hq⟩, hrq⟩
      | literal =>
        obtain ⟨c', hc', hq⟩ := bind_eq_some_iff.1 hq
        obtain ⟨c, hc, hrc⟩ := exists_of_rel_some (h.slot hr (by rw [hkind]; rfl)) hc'
        obtain ⟨q, hq, hrq⟩ := h.other hrc hq hplain
        exact ⟨q, bind_eq_some_iff.2 ⟨c, hc, hq⟩, hrq⟩
      | unresolved kind => cases hq
      | assign => exact hpart 0 (by rw [hkind]; rfl) hq
      | ternary => exact hpart 1 (by rw [hkind]; rfl) hq
      | _ => exact h.other hr hq hplain
    | _ => rw [hkind] at hq; cases hq

end Echo

/-- Assignments and conditionals end before the bound does. -/
theorem Coherent.expressionTypeWithin_eq (ht : t.Coherent) (hfuel : t.size ≤ fuel) (hn : t.Has n) :
    t.expressionTypeWithin fuel n = t.expressionType n := by
  refine ht.eq_of_descent (fun fuel fuel' n _ hchildren ↦ ?_) hn hfuel (Nat.le_succ _)
  have hchild : ∀ i, (t.child n i).bind (t.expressionTypeWithin fuel) =
      (t.child n i).bind (t.expressionTypeWithin fuel') :=
    fun i ↦ bind_congr fun c hc ↦ hchildren c (mem_slots_of_child hc)
  unfold expressionTypeWithin
  simp only [hchild]

/-- No expression is a declaration. -/
theorem filter_declarations_cons {x : Option NodeId} {xs : List (Option NodeId)}
    (hx : ∀ c, x = some c → (t.kind c).isExpression = true) :
    (filterMap id (x :: xs)).filter (fun c ↦ (t.kind c).category == .declaration) =
      (filterMap id xs).filter fun c ↦ (t.kind c).category == .declaration := by
  cases x with
  | none => rfl
  | some c =>
    rw [filterMap_cons_some (show id (some c) = some c from rfl), filter_cons]
    cases hkind : t.kind c with
    | expression => rfl
    | _ =>
      have hc := hx c rfl
      rw [hkind] at hc
      cases hc

namespace Echo

variable (h : Echo t t' r) (hr : r a b)

include h hr

theorem exists_expressionType (hq : t'.expressionType b = some q')
    (hplain : (t'.kind q').isExpression = false) : ∃ q, t.expressionType a = some q ∧ r q q' := by
  obtain ⟨q, hq, hrq⟩ := h.exists_expressionTypeWithin hr hq hplain
  rw [h.rooted.expressionTypeWithin_eq (Nat.le_succ_of_le h.size_le) (h.has hr)] at hq
  exact ⟨q, hq, hrq⟩

/-- Any slot holds related nodes, unless it holds expressions in both trees. -/
theorem rel_or_isExpression (i : Nat) :
    Option.Rel r (t.child a i) (t'.child b i) ∨
      (∀ c, t.child a i = some c → (t.kind c).isExpression) ∧
        ∀ c, t'.child b i = some c → (t'.kind c).isExpression := by
  by_cases hleft : ∀ c, t.child a i = some c → (t.kind c).isExpression
  · by_cases hright : ∀ c, t'.child b i = some c → (t'.kind c).isExpression
    · exact .inr ⟨hleft, hright⟩
    · simp only [not_forall, not_eq_true] at hright
      obtain ⟨c', hc', hplain⟩ := hright
      obtain ⟨c, hc, hrc⟩ := h.other hr hc' hplain
      rw [hc, hc']
      exact .inl (.some hrc)
  · simp only [not_forall, not_eq_true] at hleft
    obtain ⟨c, hc, hplain⟩ := hleft
    obtain ⟨c', hc', hrc⟩ := h.other' hr hc hplain
    rw [hc, hc']
    exact .inl (.some hrc)

/-- Declarations are related to declarations, whatever holds them. -/
theorem childrenFrom (start : Nat) :
    List.Forall₂ r (t.childrenFrom a start .declaration) (t'.childrenFrom b start .declaration) := by
  have hslots : List.Forall₂ (fun x y ↦ Option.Rel r x y ∨
      (∀ c, x = some c → (t.kind c).isExpression) ∧ ∀ c, y = some c → (t'.kind c).isExpression)
      (t.slots a) (t'.slots b) := by
    refine forall₂_iff_get.2 ⟨(h.length hr).symm, fun i hi hi' ↦ ?_⟩
    have hslot := h.rel_or_isExpression hr i
    unfold child at hslot
    rw [getElem?_eq_getElem hi, getElem?_eq_getElem hi'] at hslot
    exact hslot
  unfold Tree.childrenFrom
  have hdrop := forall₂_drop start hslots
  generalize (t.slots a).drop start = x, (t'.slots b).drop start = y at hdrop
  induction hdrop with
  | nil => exact .nil
  | @cons x y xs ys hxy _ ih =>
    rcases hxy with hxy | ⟨hx, hy⟩
    · cases hxy with
      | none => exact ih
      | @some c c' hrc =>
        simp only [filterMap_cons_some (show id (some c) = some c from rfl),
          filterMap_cons_some (show id (some c') = some c' from rfl), filter_cons, h.kind hrc]
        split
        · exact .cons hrc ih
        · exact ih
    · rw [filter_declarations_cons hx, filter_declarations_cons hy]
      exact ih

/-- The function type of a declaration. -/
theorem exists_signature {f' : NodeId} (hf : (t'.child b 0).bind t'.unqualified = some f') :
    ∃ f, (t.child a 0).bind t.unqualified = some f ∧ r f f' := by
  obtain ⟨c', hc', hf⟩ := bind_eq_some_iff.1 hf
  have hplain : (t'.kind c').isExpression = false := by
    unfold Tree.unqualified at hf
    split at hf
    next hkind => rw [hkind]; rfl
    next hkind => rw [hkind]; rfl
    · cases hf
  obtain ⟨c, hc, hrc⟩ := h.other hr hc' hplain
  obtain ⟨f, hf, hrf⟩ := exists_of_rel_some (h.unqualified hrc) hf
  exact ⟨f, bind_eq_some_iff.2 ⟨c, hc, hf⟩, hrf⟩

theorem exists_parameter {k : Nat} {p' : NodeId} (hp : (t'.parameters b)[k]? = some p') :
    ∃ p, (t.parameters a)[k]? = some p ∧ r p p' := by
  unfold parameters at hp ⊢
  cases hf' : (t'.child b 0).bind t'.unqualified with
  | none => rw [hf'] at hp; cases hp
  | some f' =>
    obtain ⟨f, hf, hrf⟩ := h.exists_signature hr hf'
    simp only [hf'] at hp
    simp only [hf]
    obtain ⟨hlength, hget⟩ := forall₂_iff_get.1 (h.childrenFrom hrf 1)
    obtain ⟨hk, rfl⟩ := List.getElem?_eq_some_iff.1 hp
    rw [← hlength] at hk
    exact ⟨_, getElem?_eq_getElem hk, hget k hk _⟩

theorem exists_enclosingResultType (hkind : t.kind a = .statement .ret)
    (hq : t'.enclosingResultType b = some q') (hplain : (t'.kind q').isExpression = false) :
    ∃ q, t.enclosingResultType a = some q ∧ r q q' := by
  obtain ⟨g', hg', hq⟩ := bind_eq_some_iff.1 hq
  obtain ⟨g, hg, hrg⟩ := h.function hr hkind hg'
  obtain ⟨f', hf', hq⟩ := bind_eq_some_iff.1 hq
  obtain ⟨f, hf, hrf⟩ := h.exists_signature hrg hf'
  obtain ⟨q, hq, hrq⟩ := h.other hrf hq hplain
  refine ⟨q, bind_eq_some_iff.2 ⟨g, hg, ?_⟩, hrq⟩
  exact bind_eq_some_iff.2 ⟨f, hf, hq⟩

end Echo

end Tree

end ProtocolIR
