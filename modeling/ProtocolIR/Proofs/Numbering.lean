import ProtocolIR.Proofs.Pass.Enumeration
import ProtocolIR.Proofs.Tree.Orders

/-!
# The numbers of labels

A visit of an enum numbers its labels and leaves the labels of all others alone. So after a walk the
labels of every enum are numbered as if there were no other. Of labels with one value the first one is
taken. A label is linked to the declaration of its enum, but not the label for undefined values that the
walk itself adds: the next walk links it, and has nothing else to do.
-/

namespace ProtocolIR

open Tree List

namespace Tree

variable {t t' t₁ t₂ : Tree} {n : NodeId}

/-- A node holds the same in both trees. -/
structure SameMembers (t t' : Tree) (n : NodeId) : Prop where
  slots : t'.slots n = t.slots n
  kind : ∀ {c}, some c ∈ t.slots n → t'.kind c = t.kind c

theorem SameMembers.refl (t : Tree) (n : NodeId) : t.SameMembers t n := ⟨rfl, fun _ ↦ rfl⟩

theorem SameMembers.trans (h : t.SameMembers t₁ n) (h' : t₁.SameMembers t₂ n) : t.SameMembers t₂ n where
  slots := h'.slots.trans h.slots
  kind hc := (h'.kind (h.slots ▸ hc)).trans (h.kind hc)

theorem SameMembers.labels_eq (h : t.SameMembers t' n) : t'.labels n = t.labels n :=
  labels_congr h.slots fun _ hc ↦ isLabel_congr (h.kind hc)

theorem SameMembers.countable (h : t.SameMembers t' n) (hn : t.Countable n) : t'.Countable n where
  only c hc := by
    rw [h.slots] at hc
    rw [isLabel_congr (h.kind hc), hn.only c hc]
  range before hbefore := by
    rw [h.labels_eq] at hbefore
    rw [lastNumber, map_congr_left fun l hl ↦ h.kind (mem_slots_of_mem_labels (hbefore.subset hl))]
    exact hn.range before hbefore

theorem EnumNumbered.mem_labels {l : NodeId} (h : t.EnumNumbered t' n) (hl : l ∈ t.labels n) :
    l ∈ t'.labels n := by
  have hlabels := h.labels
  split at hlabels
  · rwa [hlabels]
  · obtain ⟨u, hu, -⟩ := hlabels
    simp [hu, hl]

/-- What is said about the numbers of an enum depends on what it holds only. -/
theorem EnumNumbered.congr (h : t₁.EnumNumbered t₂ n) (hleft : t.SameMembers t₁ n)
    (hhas : ∀ {m}, t.Has m → t₁.Has m) (hright : t₂.SameMembers t' n) : t.EnumNumbered t' n := by
  have hlabels := hleft.labels_eq
  have hkind {l : NodeId} (hl : l ∈ t.labels n) : t₁.kind l = t.kind l := hleft.kind (mem_slots_of_mem_labels hl)
  have hkind' {l : NodeId} (hl : l ∈ t₂.labels n) : t'.kind l = t₂.kind l :=
    hright.kind (mem_slots_of_mem_labels hl)
  have hundef := h.labels
  rw [hlabels, any_congr_of_mem fun l hl ↦ congrArg NodeKind.marksUndef (hkind hl), ← hright.labels_eq] at hundef
  refine ⟨fun before l after heq ↦ ?_, ?_⟩
  · have hnumbered := h.label before l after (hlabels.trans heq)
    rw [lastNumber, map_congr_left fun m hm ↦ hkind (by simp [heq, hm]), hkind (by simp [heq])] at hnumbered
    rw [hkind' (h.mem_labels (by simp [hlabels, heq]))]
    exact hnumbered
  · split at hundef
    next hany => rwa [if_pos hany]
    next hany =>
      obtain ⟨u, hu, hnew, hself⟩ := hundef
      rw [if_neg hany]
      exact ⟨u, hu, fun h ↦ hnew (hhas h), (hkind' (by rw [← hright.labels_eq, hu]; simp)).trans hself⟩

/-- Apart from labels and from what enums hold, two trees are the same. -/
structure SameButLabels (t t' : Tree) : Prop where
  kind_eq : ∀ {m}, t.Has m → t.isLabel m = false → t'.kind m = t.kind m
  label : ∀ {m}, t.isLabel m = true → t'.isLabel m = true
  slots_eq : ∀ {m}, t.Has m → t.shape? m ≠ some .enumeration → t'.slots m = t.slots m
  parent_eq : ∀ {m}, t.Has m → t'.parent m = t.parent m

theorem untyped_of_isLabel (h : t.isLabel n = true) : t.unqualified n = none ∧ t.declaredType n = none := by
  obtain ⟨_, _, _, _, _, _, hkind⟩ := isLabel_iff.1 h
  rw [unqualified, declaredType, hkind]
  exact ⟨rfl, rfl⟩

theorem SameButLabels.unqualified_eq (h : t.SameButLabels t') (hn : t.Has n) :
    t'.unqualified n = t.unqualified n := by
  by_cases hlabel : t.isLabel n = true
  · rw [(untyped_of_isLabel hlabel).1, (untyped_of_isLabel (h.label hlabel)).1]
  · unfold unqualified child
    rw [h.kind_eq hn (eq_false_of_ne_true hlabel)]
    split
    next hkind => rw [h.slots_eq hn (by simp [shape?_eq_some_iff, hkind])]
    all_goals rfl

theorem SameButLabels.declaredType_eq (h : t.SameButLabels t') (ht : t.Coherent) (hn : t.Has n) :
    t'.declaredType n = t.declaredType n := by
  by_cases hlabel : t.isLabel n = true
  · rw [(untyped_of_isLabel hlabel).2, (untyped_of_isLabel (h.label hlabel)).2]
  · unfold declaredType child
    rw [h.kind_eq hn (eq_false_of_ne_true hlabel)]
    split
    next hkind =>
      rw [h.slots_eq hn fun hshape ↦ ?_]
      · exact Option.bind_congr fun c hc ↦ h.unqualified_eq (ht.has_of_held (mem_slots_of_child hc))
      · obtain ⟨_, hdata, -⟩ := shape?_eq_some_iff.1 hshape
        rw [hdata] at hkind
        cases hkind
    · rfl

/-- Enums have the owners that they had. -/
theorem SameButLabels.owner_eq (h : t.SameButLabels t') (ht : t.Coherent) (hn : t.Has n) :
    (t'.enumOwner n).map t'.linkTo = (t.enumOwner n).map t.linkTo := by
  unfold enumOwner
  rw [h.parent_eq hn]
  cases hp : t.parent n with
  | none => rfl
  | some p =>
    rw [Option.bind_some, Option.bind_some, h.parent_eq (ht.has_parent hp)]
    cases hd : t.parent p with
    | none => rfl
    | some d =>
      have hhas := ht.has_parent hd
      rw [Option.filter_some, Option.filter_some, h.declaredType_eq ht hhas]
      by_cases hlabel : t.isLabel d = true
      · rw [(untyped_of_isLabel hlabel).2]
        rfl
      · have hkind := h.kind_eq hhas (eq_false_of_ne_true hlabel)
        unfold linkTo declaration?
        rw [hkind]
        split <;> simp [hkind]

/-- Nothing is left to do for an enum. -/
structure EnumSettled (t : Tree) (n : NodeId) : Prop where
  label : ∀ l ∈ t.labels n, (t.kind l).IsSettled ((t.enumOwner n).map t.linkTo)
  undef : ((t.labels n).any fun l ↦ (t.kind l).marksUndef) = true

theorem Refines.shape?_eq_enumeration (h : t.Refines t') (hn : t.Has n) :
    t'.shape? n = some .enumeration ↔ t.shape? n = some .enumeration := by
  have hkind := h.kind hn
  rw [shape?_eq_some_iff, shape?_eq_some_iff]
  generalize t.kind n = kind, t'.kind n = kind' at hkind
  cases hkind with
  | @type data data' hdata =>
    have hshape := hdata.shape
    simp only [NodeKind.type.injEq, exists_eq_left']
    generalize data.shape = shape, data'.shape = shape' at hshape
    cases hshape <;> simp
  | _ => simp

theorem firstOfEachValue_filter (t : Tree) (v : Option Int64) (seen : List (Option Int64)) (ls : List NodeId) :
    (t.firstOfEachValue seen ls).filter (t.labelValue · == v) =
      if v ∈ seen then [] else (ls.find? (t.labelValue · == v)).toList := by
  induction ls generalizing seen with
  | nil => simp [firstOfEachValue]
  | cons l ls ih =>
    unfold firstOfEachValue
    rw [find?_cons]
    by_cases hv : t.labelValue l = v
    · subst hv
      split
      next hseen => rw [ih, if_pos hseen]
      next hseen => rw [filter_cons_of_pos (by simp), ih, if_pos mem_cons_self]; simp
    · have hne : (t.labelValue l == v) = false := beq_eq_false_iff_ne.2 hv
      rw [hne]
      split
      · exact ih seen
      · rw [filter_cons_of_neg (by simp [hv]), ih]
        simp [Ne.symm hv]

theorem firstOfEachValue_sublist (t : Tree) (seen : List (Option Int64)) (ls : List NodeId) :
    (t.firstOfEachValue seen ls).Sublist ls := by
  induction ls generalizing seen with
  | nil => exact .slnil
  | cons l ls ih =>
    unfold firstOfEachValue
    split
    · exact (ih seen).cons l
    · exact (ih _).cons_cons l

end Tree

/-- A walk whose visits each keep what is said about the nodes ahead. -/
theorem Pass.ends_sweep {allowed : Fault → Prop} {visit : NodeId → Pass Bool}
    {inv : List NodeId → Tree → Prop} {order : Order} {start : NodeId} {w : Workspace}
    (hvisit : ∀ n ahead w', (n :: ahead) <:+ w.tree.ordered order start → inv (n :: ahead) w'.tree →
      w'.tree.isWithin n start = true ∧ Ends allowed (visit n) w' fun _ w'' ↦ inv ahead w''.tree)
    (h : inv (w.tree.ordered order start) w.tree) :
    Ends allowed (sweep order start visit) w fun _ w' ↦ inv [] w'.tree := by
  suffices hvisits : ∀ ahead changed (w' : Workspace), ahead <:+ w.tree.ordered order start → inv ahead w'.tree →
      Ends allowed (ahead.foldlM (fun changed n ↦ do
        if (← tree).isWithin n start then return (← visit n) || changed else return changed) changed) w'
        fun _ w'' ↦ inv [] w''.tree from hvisits _ false w suffix_rfl h
  intro ahead
  induction ahead with
  | nil => exact fun changed w' _ h ↦ ends_pure h
  | cons n ahead ih =>
    intro changed w' hsuffix h
    obtain ⟨hwithin, hn⟩ := hvisit n ahead w' hsuffix h
    rw [foldlM_cons]
    refine Ends.bind (ends_tree_bind ?_) fun changed' w'' ↦ ih changed' w'' ((suffix_cons n ahead).trans hsuffix)
    rw [if_pos hwithin]
    exact hn.bind fun changed' w'' hinv ↦ ends_pure hinv

namespace Enumeration

variable {t t' : Tree} {w : Workspace} {start n : NodeId} {ahead : List NodeId}

theorem Relabels.sameMembers {m : NodeId} (h : Relabels t n t') (ht : t.Coherent) (hm : t.Has m)
    (hne : m ≠ n) : t.SameMembers t' m where
  slots := h.slots_eq hm hne
  kind hc := by
    refine h.kind_eq (ht.has_of_held hc) fun hl ↦ hne ?_
    exact Option.some.inj ((ht.parent_of_held hc).symm.trans (ht.parent_of_held (mem_slots_of_mem_labels hl)))

theorem Relabels.isLabel {l : NodeId} (h : Relabels t n t') (hl : t.isLabel l = true) :
    t'.isLabel l = true := by
  by_cases hmem : l ∈ t.labels n
  · obtain ⟨before, after, heq⟩ := append_of_mem hmem
    have hnumbered := h.numbered.label before l after heq
    rw [isLabel_iff]
    generalize t.kind l = kind, t'.kind l = kind' at hnumbered
    cases hnumbered
    exact ⟨_, _, _, _, _, _, rfl⟩
  · obtain ⟨_, _, _, _, _, _, hkind⟩ := isLabel_iff.1 hl
    rwa [isLabel_congr (h.kind_eq (has_of_kind (by simp [hkind])) hmem)]

/-- The tree while enums are visited: those ahead hold what they held, and the others are numbered. -/
structure Partway (t : Tree) (start : NodeId) (ahead : List NodeId) (t' : Tree) : Prop extends
    Refines t t', SameButLabels t t' where
  coherent : t'.Coherent
  enum : ∀ {m}, t'.shape? m = some .enumeration → t.shape? m = some .enumeration
  members : ∀ {n}, n ∈ ahead → t.SameMembers t' n
  numbered : ∀ {n}, t.Within start n → t.shape? n = some .enumeration → n ∉ ahead → t.EnumNumbered t' n
  settled : ∀ {n l}, t.Within start n → t.shape? n = some .enumeration → n ∉ ahead → l ∈ t.labels n →
    (t'.kind l).IsSettled ((t.enumOwner n).map t.linkTo)

theorem Partway.within (h : Partway t start ahead t')
    (hn : t.Within start n) : t'.Within start n := by
  induction hn with
  | here => exact .here
  | beneath hp _ ih => exact .beneath ((h.parent_eq (has_of_parent hp)).trans hp) ih

theorem Partway.within_of (h : Partway t start ahead t') (ht : t.Coherent)
    (hhas : t.Has n) (hn : t'.Within start n) : t.Within start n := by
  induction hn with
  | here => exact .here
  | beneath hp _ ih =>
    rw [h.parent_eq hhas] at hp
    exact .beneath hp (ih (ht.has_parent hp))

theorem has_of_enumeration (h : t.shape? n = some .enumeration) : t.Has n := by
  obtain ⟨data, hdata, -⟩ := shape?_eq_some_iff.1 h
  exact has_of_kind (by simp [hdata])

theorem Partway.ends_visit (h : Partway t start (n :: ahead) w.tree) (ht : t.Coherent)
    (hn : t.Has n) (hahead : n ∉ ahead) (hhas : ∀ m ∈ ahead, t.Has m) :
    Ends (fun f ↦ ¬f.IsStructural ∧ t.shape? n = some .enumeration ∧ ¬t.Countable n)
      (do if (← Pass.tree).shape? n == some .enumeration then normalizeEnum n else return false) w
      fun _ w' ↦ Partway t start ahead w'.tree := by
  refine ends_tree_bind ?_
  split
  next henum =>
    have henum := eq_of_beq henum
    have henum₀ := (h.shape?_eq_enumeration hn).1 henum
    have hsame := h.members mem_cons_self
    refine (ends_normalizeEnum h.coherent henum).mono
      (fun _ hf ↦ ⟨hf.1, henum₀, fun hcount ↦ hf.2 (hsame.countable hcount)⟩) fun _ w' ↦ ?_
    rintro ⟨hturn, hrelabels⟩
    have hother {m : NodeId} (hm : t.Has m) (hne : m ≠ n) := hrelabels.sameMembers h.coherent (h.has hm) hne
    refine ⟨h.toRefines.trans hturn.toRefines, ⟨fun {m} hm hlabel ↦ ?_,
      fun hlabel ↦ hrelabels.isLabel (h.label hlabel), fun {m} hm hshape ↦ ?_,
      fun hm ↦ (hrelabels.parent_eq (h.has hm)).trans (h.parent_eq hm)⟩, hturn.coherent,
      fun hm ↦ h.enum (hrelabels.enum hm), fun {m} hm ↦ ?_, fun {m} hm henum' hnot ↦ ?_,
      fun {m l} hm henum' hnot hl ↦ ?_⟩
    · have hkind := h.kind_eq hm hlabel
      refine (hrelabels.kind_eq (h.has hm) fun hmem ↦ ?_).trans hkind
      rw [← isLabel_congr hkind, (mem_filter.1 hmem).2] at hlabel
      cases hlabel
    · exact (hrelabels.slots_eq (h.has hm) fun hmn ↦ hshape (hmn ▸ henum₀)).trans (h.slots_eq hm hshape)
    · exact (h.members (mem_cons_of_mem n hm)).trans (hother (hhas m hm) (ne_of_mem_of_not_mem hm hahead))
    · by_cases hmn : m = n
      · subst hmn
        exact hrelabels.numbered.congr hsame h.has (.refl ..)
      · exact (h.numbered hm henum' (by simp [hmn, hnot])).congr (.refl ..) id
          (hother (has_of_enumeration henum') hmn)
    · by_cases hmn : m = n
      · subst hmn
        rw [← h.owner_eq ht hn]
        exact hrelabels.settled (hsame.labels_eq ▸ hl)
      · have hahead' : m ∉ n :: ahead := by simp [hmn, hnot]
        have hl' := mem_slots_of_mem_labels ((h.numbered hm henum' hahead').mem_labels hl)
        rw [(hother (has_of_enumeration henum') hmn).kind hl']
        exact h.settled hm henum' hahead' hl
  next henum =>
    have hcons {m : NodeId} (henum' : t.shape? m = some .enumeration) (hnot : m ∉ ahead) : m ∉ n :: ahead := by
      refine List.not_mem_cons_of_ne_of_not_mem ?_ hnot
      rintro rfl
      exact henum (beq_iff_eq.2 ((h.shape?_eq_enumeration hn).2 henum'))
    exact ends_pure ⟨h.toRefines, h.toSameButLabels, h.coherent, h.enum, fun hm ↦ h.members (mem_cons_of_mem n hm),
      fun hm henum' hnot ↦ h.numbered hm henum' (hcons henum' hnot),
      fun hm henum' hnot ↦ h.settled hm henum' (hcons henum' hnot)⟩

/-- A run ends with all enums numbered, unless there is one that cannot be. -/
theorem ends_normalize (ht : w.tree.Coherent) (hstart : w.tree.Has start) :
    Ends (fun f ↦ ¬f.IsStructural ∧ ∃ n, w.tree.Within start n ∧ w.tree.shape? n = some .enumeration ∧
      ¬w.tree.Countable n) (normalize start) w fun _ w' ↦ Partway w.tree start [] w'.tree := by
  have hhas {n : NodeId} (hn : n ∈ w.tree.ordered .pre start) : w.tree.Has n :=
    ht.has_of_mem_ordered hstart .pre hn
  have hmem {n : NodeId} (hn : w.tree.Within start n) (henum : w.tree.shape? n = some .enumeration) :=
    ht.mem_ordered .pre (has_of_enumeration henum) hn
  have hbefore : Partway w.tree start (w.tree.ordered .pre start) w.tree :=
    ⟨.refl _, ⟨fun _ _ ↦ rfl, id, fun _ _ ↦ rfl, fun _ ↦ rfl⟩, ht, id, fun _ ↦ .refl ..,
      fun hn henum hnot ↦ absurd (hmem hn henum) hnot, fun hn henum hnot ↦ absurd (hmem hn henum) hnot⟩
  refine Pass.ends_sweep (fun n ahead w' hsuffix h ↦ ?_) hbefore
  have hn := hsuffix.subset mem_cons_self
  have hnodup : (n :: ahead).Nodup := by
    refine hsuffix.sublist.nodup ?_
    rw [ordered_eq_map]
    exact ht.nodup_of_walks (ht.walks_orderWithin .pre 0 hstart)
  refine ⟨h.coherent.isWithin_iff.2 (h.within (ht.within_of_mem_ordered .pre hn)), ?_⟩
  exact (h.ends_visit ht (hhas hn) (nodup_cons.1 hnodup).1
    fun m hm ↦ hhas (hsuffix.subset (mem_cons_of_mem n hm))).mono
      (fun _ hf ↦ ⟨hf.1, n, ht.within_of_mem_ordered .pre hn, hf.2⟩) fun _ _ ↦ id

/-- Labels without a value are numbered in their order, and of labels with one value the first one is
taken. A run fails only where some enum holds something else than labels or runs out of numbers. -/
theorem normalize_numbers (w : Workspace) (start : NodeId) (ht : w.tree.Coherent) (hstart : w.tree.Has start) :
    Ends (fun f ↦ ¬f.IsStructural ∧ ∃ n, w.tree.Within start n ∧ w.tree.shape? n = some .enumeration ∧
      ¬w.tree.Countable n) (normalize start) w fun _ w' ↦ ∀ n, w.tree.Within start n →
        w.tree.shape? n = some .enumeration → w.tree.EnumNumbered w'.tree n ∧
          (w'.tree.uniqueLabels n).Sublist (w'.tree.labels n) ∧
          ∀ v, (w'.tree.uniqueLabels n).filter (w'.tree.labelValue · == v) =
            ((w'.tree.labels n).find? (w'.tree.labelValue · == v)).toList := by
  refine (ends_normalize ht hstart).mono (fun _ ↦ id) fun _ w' h n hn henum ↦ ?_
  refine ⟨h.numbered hn henum not_mem_nil, firstOfEachValue_sublist .., fun v ↦ ?_⟩
  exact (firstOfEachValue_filter ..).trans (if_neg not_mem_nil)

/-- An enum with a value in the middle. -/
def sparseEnum : Tree := .ofRows [
  (.root, []),
  (.shaped .enumeration, [2, 3, 4]),
  (.declares "A" (.label none false none) .external, []),
  (.declares "B" (.label (some 7) false none) .external, []),
  (.declares "C" (.label none false none) .external, [])]

theorem countable_sparseEnum : sparseEnum.Countable ⟨1⟩ where
  only c hc := (by decide : ∀ c ∈ sparseEnum.children ⟨1⟩, sparseEnum.isLabel c = true) c (mem_children.2 hc)
  range before hbefore :=
    (by decide : ∀ before ∈ (sparseEnum.labels ⟨1⟩).inits, sparseEnum.lastNumber before < 9223372036854775808)
      before ((mem_inits ..).2 hbefore)

/-- The labels `A`, `B = 7` and `C` get the values 0, 7 and 8. -/
theorem normalize_numbers_sparseEnum : sparseEnum.Coherent ∧ sparseEnum.Has ⟨1⟩ ∧
    (∀ n, sparseEnum.Within ⟨1⟩ n → sparseEnum.shape? n = some .enumeration → sparseEnum.Countable n) ∧
    Returns (normalize ⟨1⟩) ⟨sparseEnum, #[]⟩ fun _ w' ↦ sparseEnum.EnumNumbered w'.tree ⟨1⟩ := by
  have hrooted : sparseEnum.Rooted := by decide +kernel
  have hcount : ∀ n, sparseEnum.Within ⟨1⟩ n → sparseEnum.shape? n = some .enumeration →
      sparseEnum.Countable n := by
    rintro ⟨k⟩ - henum
    have hk : k < 5 := has_of_enumeration henum
    obtain rfl : k = 1 := (by decide : ∀ k < 5, sparseEnum.shape? ⟨k⟩ = some .enumeration → k = 1) k hk henum
    exact countable_sparseEnum
  refine ⟨hrooted.toCoherent, by decide, hcount, ?_⟩
  exact ((normalize_numbers ⟨sparseEnum, #[]⟩ ⟨1⟩ hrooted.toCoherent (by decide)).mono
    (fun _ ⟨_, n, hn, henum, hnot⟩ ↦ hnot (hcount n hn henum)) fun _ _ h ↦ (h ⟨1⟩ .here (by decide)).1).returns

/-! ## The next run -/

theorem normalizeLabel_of_isSettled {l : NodeId} {owner : Option Link} (progress : Progress)
    (hl : w.tree.isLabel l = true) (h : (w.tree.kind l).IsSettled owner) :
    ∃ previous, normalizeLabel owner progress l w =
      .ok (⟨previous, progress.hasUndef || (w.tree.kind l).marksUndef, progress.changed⟩, w) := by
  obtain ⟨id, linkage, canonicalId, value, isImplicit, link, hkind⟩ := isLabel_iff.1 hl
  rw [hkind] at h ⊢
  obtain ⟨hvalue, hlink⟩ := h
  obtain ⟨previous, hnumber⟩ : ∃ previous, number progress.previous value isImplicit = .ok (value, previous) := by
    cases isImplicit with
    | true => exact ⟨_, rfl⟩
    | false =>
      obtain ⟨v, rfl⟩ := Option.isSome_iff_exists.1 (hvalue.resolve_left (by simp))
      exact ⟨v, rfl⟩
  refine ⟨previous, Pass.tree_bind.trans ?_⟩
  rw [declaration?_eq_some_iff.2 hkind]
  dsimp only
  rw [hnumber, hlink]
  have hsame : Pass.modifyTree (fun t ↦ t.setKind l (.declaration ⟨id, linkage, canonicalId,
      .label value isImplicit link⟩)) w = .ok ((), w) := by
    show Except.ok ((), Workspace.mk (w.tree.setKind l _) w.log) = _
    rw [setKind_self hkind]
  refine (bind_of_ok (m := (liftM (.ok (value, previous) : Except Fault _) : Pass _)) rfl).trans
    ((bind_of_ok hsame).trans ?_)
  simp [NodeKind.marksUndef, Bool.or_assoc]
  rfl

theorem foldlM_of_isSettled {ls : List NodeId} {owner : Option Link} (progress : Progress)
    (h : ∀ l ∈ ls, w.tree.isLabel l = true ∧ (w.tree.kind l).IsSettled owner) :
    ∃ previous, ls.foldlM (normalizeLabel owner) progress w =
      .ok (⟨previous, progress.hasUndef || ls.any fun l ↦ (w.tree.kind l).marksUndef, progress.changed⟩, w) := by
  induction ls generalizing progress with
  | nil => exact ⟨progress.previous, by rw [any_nil, Bool.or_false]; rfl⟩
  | cons l ls ih =>
    obtain ⟨hl, hls⟩ := forall_mem_cons.1 h
    obtain ⟨previous, hrun⟩ := normalizeLabel_of_isSettled progress hl.1 hl.2
    obtain ⟨previous', hrest⟩ := ih ⟨previous, _, _⟩ hls
    refine ⟨previous', ?_⟩
    rw [foldlM_cons, any_cons, ← Bool.or_assoc]
    exact (bind_of_ok hrun).trans hrest

/-- Where nothing is left to do, a run does nothing. -/
theorem normalize_of_settled
    (h : ∀ n, w.tree.isWithin n start = true → w.tree.shape? n = some .enumeration → w.tree.EnumSettled n) :
    normalize start w = .ok (false, w) := by
  refine Pass.sweep_of_idle fun n hn ↦ Pass.tree_bind.trans ?_
  split
  next henum =>
    have hsettled := h n hn (eq_of_beq henum)
    obtain ⟨previous, hrun⟩ := foldlM_of_isSettled {} fun l (hl : l ∈ w.tree.labels n) ↦
      ⟨(mem_filter.1 hl).2, hsettled.label l hl⟩
    refine Pass.tree_bind.trans ((bind_of_ok hrun).trans ?_)
    rw [hsettled.undef]
    rfl
  · rfl

theorem Partway.enumSettled (h : Partway t start [] t') (ht : t.Coherent) (hn : t.Within start n)
    (henum : t.shape? n = some .enumeration)
    (hundef : t.enumOwner n ≠ none → (t.labels n).any fun l ↦ (t.kind l).marksUndef) : t'.EnumSettled n := by
  have hlabel {l : NodeId} (hl : l ∈ t.labels n) := h.settled hn henum not_mem_nil hl
  rw [← h.owner_eq ht (has_of_enumeration henum)] at hlabel
  have hlabels := (h.numbered hn henum not_mem_nil).labels
  split at hlabels
  next hany =>
    refine ⟨fun l hl ↦ hlabel (hlabels ▸ hl), ?_⟩
    obtain ⟨l, hl, hmarks⟩ := any_eq_true.1 hany
    obtain ⟨before, after, heq⟩ := append_of_mem hl
    have hnumbered := (h.numbered hn henum not_mem_nil).label before l after heq
    refine any_eq_true.2 ⟨l, hlabels ▸ hl, ?_⟩
    generalize t.kind l = kind, t'.kind l = kind' at hnumbered hmarks
    cases hnumbered
    exact hmarks
  next hnot =>
    obtain ⟨u, hu, -, hkind⟩ := hlabels
    have howner : t.enumOwner n = none := not_not.1 fun hne ↦ hnot (hundef hne)
    refine ⟨fun l hl ↦ ?_, any_eq_true.2 ⟨u, by simp [hu], by rw [hkind]; rfl⟩⟩
    rw [hu, mem_append] at hl
    obtain hl | hl := hl
    · exact hlabel hl
    · rw [mem_singleton.1 hl, hkind, h.owner_eq ht (has_of_enumeration henum), howner]
      exact ⟨.inl rfl, rfl⟩

/-- After a run, the next one has nothing to do if and only if no enum that lacked a label for undefined
values is declared with a canonical ID. -/
theorem normalize_twice_iff {w' : Workspace} {changed : Bool} (ht : w.tree.Coherent)
    (hstart : w.tree.Has start) (h : normalize start w = .ok (changed, w')) :
    normalize start w' = .ok (false, w') ↔ ∀ n, w.tree.Within start n →
      w.tree.shape? n = some .enumeration → w.tree.enumOwner n ≠ none →
        (w.tree.labels n).any fun l ↦ (w.tree.kind l).marksUndef := by
  have hrun := (ends_normalize ht hstart).1 _ _ h
  constructor
  · intro hagain n hn henum howner
    by_contra hnot
    have hlabels := (hrun.numbered hn henum not_mem_nil).labels
    rw [if_neg hnot] at hlabels
    obtain ⟨u, hu, -, hkind⟩ := hlabels
    have hhas := has_of_enumeration henum
    have hsettled := ((ends_normalize hrun.coherent (hrun.has hstart)).1 _ _ hagain).settled (l := u)
      (hrun.within hn) ((hrun.shape?_eq_enumeration hhas).2 henum) not_mem_nil (by simp [hu])
    rw [hkind, hrun.owner_eq ht hhas] at hsettled
    exact howner (Option.map_eq_none_iff.1 hsettled.2)
  · intro hundef
    refine normalize_of_settled fun n hn henum ↦ ?_
    have henum := hrun.enum henum
    have hn := hrun.within_of ht (has_of_enumeration henum) (hrun.coherent.isWithin_iff.1 hn)
    exact hrun.enumSettled ht hn henum (hundef n hn henum)

/-- An enum with one label. -/
def declaredEnum (canonicalId : Option String) (label : String) : Tree := .ofRows [
  (.root, [1]),
  (.declares "E" .type .external canonicalId, [2]),
  (.value, [3]),
  (.shaped .enumeration, [4]),
  (.declaration ⟨label, .external, none, .label none false none⟩, [])]

/-- The first run numbers and links a label for undefined values that is there, and adds one where the
declaration has no canonical ID. There is nothing left for the second. -/
theorem normalize_twice_of_either :
    (∃ w', normalize root ⟨declaredEnum (some "E") undefLabel, #[]⟩ = .ok (true, w') ∧
      normalize root w' = .ok (false, w')) ∧
    ∃ w', normalize root ⟨declaredEnum none "A", #[]⟩ = .ok (true, w') ∧ normalize root w' = .ok (false, w') := by
  have htwice (t : Tree) (ht : t.Rooted) (hroot : t.Has root)
      (hchanged : (normalize root ⟨t, #[]⟩).toOption.map Prod.fst = some true)
      (hundef : ∀ k < t.size, t.shape? ⟨k⟩ = some .enumeration → t.enumOwner ⟨k⟩ ≠ none →
        (t.labels ⟨k⟩).any fun l ↦ (t.kind l).marksUndef) :
      ∃ w', normalize root ⟨t, #[]⟩ = .ok (true, w') ∧ normalize root w' = .ok (false, w') := by
    cases hrun : normalize root ⟨t, #[]⟩ with
    | error f => simp [hrun, Except.toOption] at hchanged
    | ok r =>
      obtain ⟨changed, w'⟩ := r
      obtain rfl : changed = true := by simpa [hrun, Except.toOption] using hchanged
      exact ⟨w', rfl, (normalize_twice_iff ht.toCoherent hroot hrun).2 fun n _ henum ↦
        hundef n.index (has_of_enumeration henum) henum⟩
  exact ⟨htwice _ (by decide) (by decide) (by decide +kernel) (by decide),
    htwice _ (by decide) (by decide) (by decide +kernel) (by decide)⟩

/-- The label for undefined values is added by the first run and linked by the second. -/
theorem normalize_twice_declaredEnum : (declaredEnum (some "E") "A").Rooted ∧
    ((normalize root ⟨declaredEnum (some "E") "A", #[]⟩).toOption.bind fun r ↦
      (normalize root r.2).toOption.map fun r' ↦ (r.1, r'.1, r.2.tree.kind ⟨5⟩ == r'.2.tree.kind ⟨5⟩)) =
        some (true, true, false) :=
  ⟨by decide, by decide +kernel⟩

end Enumeration

end ProtocolIR
