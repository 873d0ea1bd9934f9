import ProtocolIR.Proofs.Pass.Building
import ProtocolIR.Proofs.Sweeps

/-!
# The numbering of enums is a turn

A label is written whether or not that says anything new; writing the same label again changes
nothing, and only a new value or a new link is reported. The text of an enum does not depend on its
labels. The labels of an enum are numbered in the order in which it holds them, so the number of a label
depends on the labels before it only.
-/

namespace ProtocolIR

open Tree List

/-! ## Numbers of labels -/

/-- The last number once a label has been counted. An implicit label does not count, and a label
without a value comes next. -/
def NodeKind.count (last : Int) : NodeKind → Int
  | .declaration ⟨_, _, _, .label value false _⟩ => (value.map Int64.toInt).getD (last + 1)
  | _ => last

/-- A label is implicit or has the ID for undefined values. -/
def NodeKind.marksUndef : NodeKind → Bool
  | .declaration ⟨id, _, _, .label _ isImplicit _⟩ => isImplicit || id == undefLabel
  | _ => false

/-- Nothing is left to do for a label: it has a value if it counts, and a link if there is one to give. -/
def NodeKind.IsSettled (owner : Option Link) : NodeKind → Prop
  | .declaration ⟨_, _, _, .label value isImplicit link⟩ =>
    (isImplicit = true ∨ value.isSome = true) ∧ link.or owner = link
  | _ => True

/-- The value that a label gets after the last number. -/
inductive Enumeration.Numbers (last : Int) : Option Int64 → Bool → Option Int64 → Prop
  | implicit (value : Option Int64) : Numbers last value true value
  | given (v : Int64) (isImplicit : Bool) : Numbers last (some v) isImplicit (some v)
  | next {v : Int64} : v.toInt = last + 1 → Numbers last none false (some v)

/-- A label and the same label with its number. All else stays, but for the link to its enum. -/
inductive NodeKind.NumberedAfter (last : Int) : NodeKind → NodeKind → Prop
  | label {id : String} {linkage : Linkage} {canonicalId : Option String} {value value' : Option Int64}
      {isImplicit : Bool} {link link' : Option Link} : Enumeration.Numbers last value isImplicit value' →
      NumberedAfter last (.declaration ⟨id, linkage, canonicalId, .label value isImplicit link⟩)
        (.declaration ⟨id, linkage, canonicalId, .label value' isImplicit link'⟩)

namespace Tree

variable {t : Tree} {n l : NodeId}

theorem labels_eq (t : Tree) (n : NodeId) : t.labels n = (t.children n).filter t.isLabel := by
  unfold labels childrenFrom
  rw [drop_zero, filter_filter]
  refine filter_congr fun c _ ↦ Bool.and_eq_left_iff_imp.2 fun hlabel ↦ ?_
  cases hkind : t.kind c with
  | declaration => rfl
  | _ => simp [isLabel, declaration?, hkind, NodeKind.declaration?] at hlabel

theorem mem_slots_of_mem_labels (hl : l ∈ t.labels n) : some l ∈ t.slots n :=
  mem_slots_of_mem_childrenFrom (mem_filter.1 hl).1

theorem isLabel_iff : t.isLabel l = true ↔ ∃ id linkage canonicalId value isImplicit link,
    t.kind l = .declaration ⟨id, linkage, canonicalId, .label value isImplicit link⟩ := by
  constructor
  · intro h
    unfold isLabel at h
    split at h
    next value isImplicit link hkind =>
      obtain ⟨⟨id, linkage, canonicalId, _⟩, hd, rfl⟩ := Option.map_eq_some_iff.1 hkind
      exact ⟨id, linkage, canonicalId, value, isImplicit, link, declaration?_eq_some_iff.1 hd⟩
    · cases h
  · rintro ⟨_, _, _, _, _, _, hkind⟩
    simp [isLabel, declaration?, hkind, NodeKind.declaration?]

theorem isLabel_congr {t' : Tree} (h : t'.kind l = t.kind l) : t'.isLabel l = t.isLabel l := by
  rw [isLabel, isLabel, declaration?, declaration?, h]

theorem labels_congr {t' : Tree} (hslots : t'.slots n = t.slots n)
    (h : ∀ c, some c ∈ t.slots n → t'.isLabel c = t.isLabel c) : t'.labels n = t.labels n := by
  rw [labels_eq, labels_eq, children, children, hslots]
  exact filter_congr fun c hc ↦ h c (mem_children.1 hc)

/-- The last number once labels have been counted. -/
def lastNumber (t : Tree) (labels : List NodeId) : Int := (labels.map t.kind).foldl NodeKind.count (-1)

theorem lastNumber_append (t : Tree) (labels : List NodeId) (l : NodeId) :
    t.lastNumber (labels ++ [l]) = (t.kind l).count (t.lastNumber labels) := by
  rw [lastNumber, map_append, foldl_append]
  rfl

/-- The labels of an enum are all that it holds, and their numbers are 64-bit numbers. -/
structure Countable (t : Tree) (n : NodeId) : Prop where
  only : ∀ c, some c ∈ t.slots n → t.isLabel c = true
  range : ∀ before, before <+: t.labels n → t.lastNumber before < 9223372036854775808

/-- The labels of an enum have been numbered in their order, and there is one for undefined values. -/
structure EnumNumbered (t t' : Tree) (n : NodeId) : Prop where
  label : ∀ before l after, t.labels n = before ++ l :: after →
    NodeKind.NumberedAfter (t.lastNumber before) (t.kind l) (t'.kind l)
  labels : if (t.labels n).any fun l ↦ (t.kind l).marksUndef then t'.labels n = t.labels n else
    ∃ u, t'.labels n = t.labels n ++ [u] ∧ ¬t.Has u ∧
      t'.kind u = .declaration ⟨undefLabel, .external, none, .label (some undefValue) true none⟩

/-! ## Texts -/

theorem exists_shortWithin_of_isLabel (h : t.isLabel l = true) (fuel : Nat) :
    ∃ text, t.shortWithin (fuel + 1) l = .ok text := by
  obtain ⟨_, _, _, value, _, _, hkind⟩ := isLabel_iff.1 h
  unfold shortWithin writeNode
  rw [hkind]
  unfold writeDeclaration
  cases value with
  | none => exact ⟨_, rfl⟩
  | some => exact ⟨_, rfl⟩

/-- An enum with labels only has a text. -/
theorem exists_short_of_enumeration (hshape : t.shape? n = some .enumeration)
    (honly : ∀ c, some c ∈ t.slots n → t.isLabel c = true) : ∃ text, t.short n = .ok text := by
  obtain ⟨data, hdata, henum⟩ := shape?_eq_some_iff.1 hshape
  obtain ⟨fuel, hfuel⟩ := Nat.exists_eq_add_one_of_ne_zero
    (Nat.ne_zero_of_lt (has_of_kind (by simp [hdata]) : t.Has n))
  have hall : ∀ ls ⊆ t.children n, ∃ texts, ls.mapM (t.shortWithin t.size) = .ok texts := by
    intro ls hls
    induction ls with
    | nil => exact ⟨[], rfl⟩
    | cons l ls ih =>
      obtain ⟨hl, hls⟩ := cons_subset.1 hls
      obtain ⟨text, htext⟩ := exists_shortWithin_of_isLabel (honly l (mem_children.1 hl)) fuel
      obtain ⟨texts, htexts⟩ := ih hls
      rw [mapM_cons, hfuel, htext, ← hfuel, htexts]
      exact ⟨_, rfl⟩
  obtain ⟨texts, htexts⟩ := hall ((t.children n).filter fun c ↦ !isImplicitLabel t c) (filter_subset_self _)
  unfold short shortWithin writeNode
  rw [hdata]
  dsimp only
  unfold writeType writeAll
  rw [unqualified_of_type hdata, Option.bind_some, typeData?_eq_some_iff.2 hdata, Option.map_some]
  dsimp only
  rw [henum, htexts]
  split
  · exact ⟨_, rfl⟩
  · cases data.typeId <;> exact ⟨_, rfl⟩

end Tree

theorem Pass.returns_recordChange {w : Workspace} {stream : Stream} {n : NodeId} {message : String}
    (h : ∃ text, w.tree.short n = .ok text) :
    Returns (recordChange stream n message) w fun _ w' ↦ w'.tree = w.tree := by
  obtain ⟨text, h⟩ := h
  obtain ⟨line, hline⟩ : ∃ line, w.tree.changeLine n none message = .ok line := by
    simp only [changeLine, changePart, h]
    exact ⟨_, rfl⟩
  refine Returns.tree_bind.2 ?_
  rw [hline]
  exact ⟨_, _, rfl, rfl⟩

namespace Enumeration

variable {w : Workspace} {n l : NodeId} {t t' t'' : Tree} {owner : Option Link} {progress progress' : Progress}

/-! ## One label -/

/-- Only a number that is no 64-bit number is not found. -/
theorem ends_number (previous : Int64) (value : Option Int64) (isImplicit : Bool) {id : String}
    {linkage : Linkage} {canonicalId : Option String} {link : Option Link} :
    let next := NodeKind.count previous.toInt
      (.declaration ⟨id, linkage, canonicalId, .label value isImplicit link⟩)
    Ends (fun f ↦ ¬f.IsStructural ∧ 9223372036854775808 ≤ next)
      (liftM (number previous value isImplicit) : Pass (Option Int64 × Int64)) w fun r w' ↦
        w = w' ∧ Numbers previous.toInt value isImplicit r.1 ∧ r.2.toInt = next := by
  intro next
  cases isImplicit with
  | true => exact Returns.ends ⟨_, w, rfl, rfl, .implicit value, rfl⟩
  | false =>
    cases value with
    | some v => exact Returns.ends ⟨_, w, rfl, rfl, .given v false, rfl⟩
    | none =>
      by_cases hmax : previous = Int64.maxValue
      · subst hmax
        exact ends_throw ⟨fun h ↦ h, (by decide : (9223372036854775808 : Int) ≤ Int64.maxValue.toInt + 1)⟩
      · have hsucc : (previous + 1).toInt = previous.toInt + 1 := by
          have hle := previous.le_toInt
          have hne : previous.toInt ≠ 9223372036854775807 := fun heq ↦ hmax (Int64.toInt_inj.1 heq)
          have hlt := previous.toInt_lt
          rw [Int64.toInt_add]
          exact Int.bmod_eq_of_le (by simp; omega) (by simp; omega)
        have hnumber : number previous none false = .ok (some (previous + 1), previous + 1) := by
          simp only [number, successor, if_neg hmax]
          rfl
        rw [hnumber]
        exact Returns.ends ⟨_, w, rfl, rfl, .next hsucc, hsucc⟩

theorem Numbers.settled {last : Int} {value value' : Option Int64} {isImplicit : Bool}
    (h : Numbers last value isImplicit value') : Settled value value' := by
  rintro v rfl
  cases h <;> rfl

theorem settled_or {α : Type} (a b : Option α) : Settled a (a.or b) := fun x hx ↦ by
  rw [hx]
  rfl

/-- Nothing is done to what is no label. A label is given what it lacks, and what is new is reported. -/
inductive Labels (owner : Option Link) (l : NodeId) (progress : Progress) (t : Tree) : Progress → Tree → Prop
  | none : t.isLabel l = false → Labels owner l progress t progress t
  | write {id : String} {linkage : Linkage} {canonicalId : Option String} {value value' : Option Int64}
      {isImplicit : Bool} {link : Option Link} {previous : Int64} :
      t.kind l = .declaration ⟨id, linkage, canonicalId, .label value isImplicit link⟩ →
      Numbers progress.previous.toInt value isImplicit value' →
      previous.toInt = (t.kind l).count progress.previous.toInt →
      Labels owner l progress t
        { previous
          hasUndef := progress.hasUndef || isImplicit || id == undefLabel
          changed := progress.changed || value' ≠ value || link.or owner ≠ link }
        (t.setKind l (.declaration ⟨id, linkage, canonicalId, .label value' isImplicit (link.or owner)⟩))

theorem Labels.refines (h : Labels owner l progress t progress' t') : t.Refines t' := by
  cases h with
  | none => exact .refl t
  | write hkind hvalue =>
    refine .of_setKind ?_
    rw [hkind]
    exact .declaration ⟨rfl, rfl, .refl _, .label hvalue.settled (settled_or _ _)⟩

/-- Writing a label is a step that reports what is new about it. -/
theorem Labels.step (h : Labels owner l progress t progress' t') (ht : t.Coherent) :
    ∃ b, progress'.changed = (progress.changed || b) ∧ Step t b t' := by
  cases h with
  | none => exact ⟨false, (Bool.or_false _).symm, .refl ht⟩
  | @write id linkage canonicalId value value' isImplicit link previous hkind hvalue =>
    refine ⟨_, Bool.or_assoc .., ?_⟩
    generalize hor : link.or owner = link'
    have hlink : Settled link link' := hor ▸ settled_or link owner
    by_cases hsame : value' = value ∧ link' = link
    · obtain ⟨rfl, rfl⟩ := hsame
      rw [setKind_self hkind]
      exact (Step.refl ht).report (by simp)
    · have hchanged : (decide (value' ≠ value) || decide (link' ≠ link)) = true := by
        by_cases hv : value' = value <;> simp_all
      refine Step.report (Step.of_setDeclaration ht hkind ⟨rfl, rfl, .refl _, .label hvalue.settled hlink⟩
        fun heq ↦ hsame ?_) hchanged
      cases heq
      exact ⟨rfl, rfl⟩

theorem ends_normalizeLabel (owner : Option Link) (progress : Progress) (l : NodeId) :
    Ends (fun f ↦ ¬f.IsStructural ∧ 9223372036854775808 ≤ (w.tree.kind l).count progress.previous.toInt)
      (normalizeLabel owner progress l) w fun progress' w' ↦ Labels owner l progress w.tree progress' w'.tree := by
  refine ends_tree_bind ?_
  split
  next d hd =>
    obtain ⟨id, linkage, canonicalId, kind⟩ := d
    have hkind := declaration?_eq_some_iff.1 hd
    have hhas : w.tree.Has l := has_of_kind (by simp [hkind])
    dsimp only
    split
    next value isImplicit link =>
      rw [hkind]
      refine (ends_number _ value isImplicit).bind ?_
      rintro ⟨value', previous⟩ _ ⟨rfl, hvalue, hprevious⟩
      have hlabels : Labels owner l progress w.tree _ _ := .write hkind hvalue (hkind ▸ hprevious)
      generalize hwrite : w.tree.setKind l _ = t₁ at hlabels
      refine ends_bind_of_ok (show Pass.modifyTree _ w = .ok ((), ⟨t₁, w.log⟩) by rw [← hwrite]; rfl) ?_
      have hreport (w' : Workspace) (hw' : w'.tree = t₁) (message : String) :
          Returns (Pass.recordChange .normalizer l message) w' fun _ w'' ↦ w''.tree = t₁ := by
        refine (Pass.returns_recordChange (exists_shortWithin_of_isLabel ?_ _)).mono
          fun _ _ hw'' ↦ hw''.trans hw'
        rw [isLabel_iff, hw', ← hwrite, kind_setKind, if_pos ⟨rfl, hhas⟩]
        exact ⟨_, _, _, _, _, _, rfl⟩
      dsimp only
      split
      · refine (hreport _ rfl _).ends.bind fun _ w₂ hw₂ ↦ ?_
        split
        · exact (hreport w₂ hw₂ _).ends.bind fun _ w₃ hw₃ ↦ ends_pure (hw₃ ▸ hlabels)
        · exact ends_pure (hw₂ ▸ hlabels)
      · split
        · exact (hreport _ rfl _).ends.bind fun _ w₂ hw₂ ↦ ends_pure (hw₂ ▸ hlabels)
        · exact ends_pure hlabels
    next hother =>
      refine ends_pure (.none (eq_false_of_ne_true fun hlabel ↦ ?_))
      obtain ⟨_, _, _, _, _, _, hkind'⟩ := isLabel_iff.1 hlabel
      cases hkind.symm.trans hkind'
      exact hother _ _ _ rfl
  next hnone =>
    refine ends_pure (.none (eq_false_of_ne_true fun hlabel ↦ ?_))
    obtain ⟨_, _, _, _, _, _, hkind⟩ := isLabel_iff.1 hlabel
    exact absurd (declaration?_eq_some_iff.2 hkind) (by simp [hnone])

theorem Numbers.isImplicit_or_isSome {last : Int} {value value' : Option Int64} {isImplicit : Bool}
    (h : Numbers last value isImplicit value') : isImplicit = true ∨ value'.isSome = true := by
  cases h with
  | implicit => exact .inl rfl
  | given | next => exact .inr rfl

/-- The tree while the labels of an enum are numbered. -/
structure Numbering (t : Tree) (owner : Option Link) (n : NodeId) (before : List NodeId) (progress : Progress)
    (t' : Tree) : Prop extends Turn t progress.changed t' where
  links : SameLinks t t'
  shape : t'.shape? n = some .enumeration
  last : progress.previous.toInt = t.lastNumber before
  undef : progress.hasUndef = before.any fun l ↦ (t.kind l).marksUndef
  numbered : ∀ {pre l post}, before = pre ++ l :: post →
    NodeKind.NumberedAfter (t.lastNumber pre) (t.kind l) (t'.kind l)
  settled : ∀ {l}, l ∈ before → (t'.kind l).IsSettled owner
  kind_eq : ∀ {m}, m ∉ before → t'.kind m = t.kind m

theorem Numbering.label {before : List NodeId} (h : Numbering t owner n before progress t') (hl : l ∈ t.labels n)
    (hbefore : l ∉ before) (hlabel : Labels owner l progress t' progress' t'') :
    Numbering t owner n (before ++ [l]) progress' t'' := by
  have ht' := h.coherent
  obtain ⟨b, hchanged, hstep⟩ := hlabel.step ht'
  have hrefines := hlabel.refines
  obtain ⟨data, hdata, hshape⟩ := shape?_eq_some_iff.1 h.shape
  have hsame := h.kind_eq hbefore
  cases hlabel with
  | none hnot =>
    rw [isLabel_congr hsame] at hnot
    cases hnot.symm.trans (mem_filter.1 hl).2
  | @write id linkage canonicalId value value' isImplicit link previous hkind hvalue hprevious =>
    have hhas : t'.Has l := has_of_kind (by simp [hkind])
    have hself {kind : NodeKind} : (t'.setKind l kind).kind l = kind := by
      rw [kind_setKind, if_pos ⟨rfl, hhas⟩]
    have hother {m : NodeId} {kind : NodeKind} (hm : m ≠ l) : (t'.setKind l kind).kind m = t'.kind m := by
      rw [kind_setKind, if_neg fun h ↦ hm h.1]
    refine ⟨hchanged ▸ h.toTurn.trans (.of_edited ht' hstep ?_), ⟨fun m ↦ ?_, fun m ↦ ?_⟩,
      shape?_eq_some_iff.2 ⟨data, ?_, hshape⟩, ?_, ?_, ?_, ?_, ?_⟩
    · have hnew := hrefines.kind hhas
      rw [hself] at hnew
      refine .of_setKind (.of_setKind hnew ?_ ?_) ?_
      · intro data' _ hdata'
        cases hkind.symm.trans hdata'
      · -- only the enum holds its label
        intro p d' _ _ _ hp _ hne
        have hparent := ht'.parent_of_held (h.links.slots n ▸ mem_slots_of_mem_labels hl)
        cases hparent.symm.trans (ht'.parent_of_held hp)
        exact absurd h.shape hne
      · intro data' _ hdata'
        cases hkind.symm.trans hdata'
    · rw [slots_setKind, h.links.slots]
    · rw [parent_setKind, h.links.parent]
    · rw [hother, hdata]
      rintro rfl
      cases hdata.symm.trans hkind
    · rw [hprevious, hsame, h.last, lastNumber_append]
    · rw [any_append, any_cons, any_nil, ← hsame, hkind, ← h.undef, Bool.or_false, Bool.or_assoc]
      rfl
    · intro pre m post heq
      obtain rfl | ⟨post, x, rfl⟩ := post.eq_nil_or_concat
      · obtain ⟨rfl, hm⟩ := append_inj' heq rfl
        cases hm
        rw [hself, ← hsame, hkind, ← h.last]
        exact .label hvalue
      · rw [concat_eq_append, ← cons_append, ← append_assoc] at heq
        obtain ⟨rfl, -⟩ := append_inj' heq rfl
        rw [hother fun hm ↦ hbefore (by simp [hm])]
        exact h.numbered rfl
    · intro m hm
      by_cases hml : m = l
      · subst hml
        rw [hself]
        exact ⟨hvalue.isImplicit_or_isSome, by rw [Option.or_assoc, Option.or_self]⟩
      · rw [hother hml]
        exact h.settled (by simpa [hml] using hm)
    · intro m hm
      rw [mem_append, not_or, mem_singleton] at hm
      rw [hother hm.2, h.kind_eq hm.1]

/-- The labels that are left are numbered, unless there are too many. -/
theorem Numbering.labels {before ls : List NodeId} (h : Numbering t owner n before progress w.tree)
    (hls : t.labels n = before ++ ls) (hnodup : (t.labels n).Nodup) :
    Ends (fun f ↦ ¬f.IsStructural ∧ ¬t.Countable n) (ls.foldlM (normalizeLabel owner) progress) w
      fun progress' w' ↦ Numbering t owner n (t.labels n) progress' w'.tree := by
  induction ls generalizing before progress w with
  | nil => exact ends_pure (by rwa [hls, append_nil])
  | cons l ls ih =>
    have hl : l ∈ t.labels n := by simp [hls]
    have hbefore : l ∉ before := fun hmem ↦ by
      rw [hls] at hnodup
      exact (nodup_append.1 hnodup).2.2 l hmem l mem_cons_self rfl
    rw [foldlM_cons]
    refine Ends.bind ((ends_normalizeLabel owner progress l).mono (fun f ⟨hf, hle⟩ ↦ ⟨hf, fun hn ↦ ?_⟩)
      fun _ _ ↦ id) fun progress' w' hlabel ↦ ih (h.label hl hbefore hlabel) (by simp [hls])
    have hlt := hn.range (before ++ [l]) ⟨ls, by simp [hls]⟩
    rw [h.kind_eq hbefore, h.last, ← lastNumber_append] at hle
    exact absurd hlt (not_lt.2 hle)

/-- An enum has a new label for undefined values. All else is as it was. -/
structure Appended (t : Tree) (n u : NodeId) (t' : Tree) : Prop where
  new : ¬t.Has u
  has_old : ∀ {m}, t'.Has m → m ≠ u → t.Has m
  kind_new : t'.kind u = .declaration ⟨undefLabel, .external, none, .label (some undefValue) true none⟩
  kind_eq : ∀ {m}, t.Has m → t'.kind m = t.kind m
  slots_self : t'.slots n = t.slots n ++ [some u]
  slots_eq : ∀ {m}, t.Has m → m ≠ n → t'.slots m = t.slots m
  parent_eq : ∀ {m}, t.Has m → t'.parent m = t.parent m

theorem ends_addUndef (ht : w.tree.Coherent) (hn : w.tree.shape? n = some .enumeration) :
    Ends (fun f ↦ ¬f.IsStructural ∧ ¬∀ c, some c ∈ w.tree.slots n → w.tree.isLabel c = true) (addUndef n) w
      fun _ w' ↦ Turn w.tree true w'.tree ∧ ∃ u, Appended w.tree n u w'.tree := by
  obtain ⟨data, hdata, hshape⟩ := shape?_eq_some_iff.1 hn
  have hhas : w.tree.Has n := has_of_kind (by simp [hdata])
  refine ends_tree_bind ?_
  generalize w.tree.location n = location
  obtain ⟨t₁, hcreate⟩ : ∃ t₁, w.tree.create _ [] location = .ok (⟨w.tree.size⟩, t₁) := exists_create
    (.declaration ⟨undefLabel, .external, none, .label (some undefValue) true none⟩) location (by simp)
  generalize (⟨w.tree.size⟩ : NodeId) = u at hcreate
  have hgrows := (Grows.refl w.tree).create (.nil _ _) ⟨rfl, by simp⟩ hcreate
  have hpiece := piece_create (.refl _) (.nil _ _) hcreate
  refine ends_bind_of_ok (edit_of_ok hcreate) ?_
  obtain ⟨t₂, hadd⟩ : ∃ t₂, t₁.addChild n (some u) = .ok t₂ := exists_addChild (by simpa using hpiece.free)
  have hrun : Surgery.addChild n (some u) t₁ = .ok ((), t₂) := by
    unfold Surgery.addChild
    rw [hadd]
    rfl
  have hstep := step_addChild ht hgrows.toGrowth hpiece hhas hadd
  have hreslot := reslotted_addChild hadd (hgrows.has hhas) (by simpa using hpiece.has)
  have hkind := (sameKinds_addChild hadd).kind_eq
  have happended : Appended w.tree n u t₂ :=
    { new := hpiece.new
      has_old := fun {m} hm hne ↦ by
        have hindex := index_create hcreate
        have hsize := size_create hcreate
        have hne : m.index ≠ u.index := fun heq ↦ hne (by cases m; cases u; cases heq; rfl)
        rw [(addChild_eq_ok_iff.1 hadd).2] at hm
        simp only [Has, size_setSlots, size_setParents] at hm ⊢
        omega
      kind_new := (hkind u).trans (kind_create_self hcreate)
      kind_eq := fun hm ↦ (hkind _).trans (hgrows.kind_eq hm)
      slots_self := by
        rw [(addChild_eq_ok_iff.1 hadd).2, slots_setSlots, if_pos ⟨rfl, by simpa using hgrows.has hhas⟩,
          hgrows.slots_eq hhas]
      slots_eq := fun hm hne ↦ (hreslot.slots_ne _ hne).trans (hgrows.slots_eq hm)
      parent_eq := fun {m} hm ↦ by
        have hne : m ∉ (some u).toList := fun hmem ↦ hpiece.new (mem_singleton.1 hmem ▸ hm)
        rw [hreslot.parent, if_neg hne, if_neg not_mem_nil, hgrows.parent_eq hm] }
  have hturn : Turn w.tree true t₂ := hgrows.turn ht hstep fun ht₁ ↦ .of_addChild ht₁ hadd
    (shape?_eq_some_iff.2 ⟨data, (hgrows.kind_eq hhas).trans hdata, hshape⟩)
  refine ends_bind_of_ok (edit_of_ok hrun) ?_
  by_cases honly : ∀ c, some c ∈ w.tree.slots n → w.tree.isLabel c = true
  · have henum : t₂.shape? n = some .enumeration :=
      shape?_eq_some_iff.2 ⟨data, (happended.kind_eq hhas).trans hdata, hshape⟩
    refine ((Pass.returns_recordChange (exists_short_of_enumeration henum fun c hc ↦ ?_)).mono
      fun _ w₃ hw₃ ↦ ?_).ends
    · rw [happended.slots_self, mem_append] at hc
      obtain hc | hc := hc
      · rw [isLabel_congr (happended.kind_eq (ht.has_of_held hc)), honly c hc]
      · cases mem_singleton.1 hc
        exact isLabel_iff.2 ⟨_, _, _, _, _, _, happended.kind_new⟩
    · exact hw₃ ▸ ⟨hturn, u, happended⟩
  · exact (Pass.safe_recordChange fun _ ↦ ⟨hturn, u, happended⟩).ends.mono (fun _ hf ↦ ⟨hf, honly⟩) fun _ _ ↦ id

/-- The labels of an enum are numbered, and other nodes hold what they held. -/
structure Relabels (t : Tree) (n : NodeId) (t' : Tree) : Prop where
  numbered : t.EnumNumbered t' n
  settled : ∀ {l}, l ∈ t.labels n → (t'.kind l).IsSettled ((t.enumOwner n).map t.linkTo)
  enum : ∀ {m}, t'.shape? m = some .enumeration → t.shape? m = some .enumeration
  kind_eq : ∀ {m}, t.Has m → m ∉ t.labels n → t'.kind m = t.kind m
  slots_eq : ∀ {m}, t.Has m → m ≠ n → t'.slots m = t.slots m
  parent_eq : ∀ {m}, t.Has m → t'.parent m = t.parent m

theorem ends_normalizeEnum (ht : w.tree.Coherent) (hn : w.tree.shape? n = some .enumeration) :
    Ends (fun f ↦ ¬f.IsStructural ∧ ¬w.tree.Countable n) (normalizeEnum n) w fun b w' ↦
      Turn w.tree b w'.tree ∧ Relabels w.tree n w'.tree := by
  have hstart : Numbering w.tree ((w.tree.enumOwner n).map w.tree.linkTo) n [] {} w.tree :=
    ⟨.refl ht, ⟨fun _ ↦ rfl, fun _ ↦ rfl⟩, hn, rfl, rfl, fun h ↦ by simp at h, fun h ↦ by simp at h, fun _ ↦ rfl⟩
  refine ends_tree_bind ((hstart.labels rfl ?_).bind fun progress w₁ h₁ ↦ ?_)
  · rw [Tree.labels_eq]
    exact (ht.nodup_children n).filter _
  have hisLabel (c : NodeId) : w₁.tree.isLabel c = w.tree.isLabel c := by
    by_cases hc : c ∈ w.tree.labels n
    · obtain ⟨pre, post, heq⟩ := append_of_mem hc
      have hnumbered := h₁.numbered heq
      rw [(mem_filter.1 hc).2, isLabel_iff]
      generalize w.tree.kind c = kind, w₁.tree.kind c = kind' at hnumbered
      cases hnumbered
      exact ⟨_, _, _, _, _, _, rfl⟩
    · exact isLabel_congr (h₁.kind_eq hc)
  have hlabels := labels_congr (h₁.links.slots n) fun c _ ↦ hisLabel c
  have henum {m : NodeId} (hm : w₁.tree.shape? m = some .enumeration) : w.tree.shape? m = some .enumeration := by
    obtain ⟨data, hdata, hshape⟩ := shape?_eq_some_iff.1 hm
    refine shape?_eq_some_iff.2 ⟨data, (h₁.kind_eq fun hl ↦ ?_).symm.trans hdata, hshape⟩
    obtain ⟨_, _, _, _, _, _, hkind⟩ := isLabel_iff.1 ((hisLabel m).trans (mem_filter.1 hl).2)
    cases hdata.symm.trans hkind
  split
  next hundef =>
    refine ends_pure ⟨h₁.toTurn, ⟨fun _ _ _ ↦ h₁.numbered, ?_⟩, h₁.settled, henum, fun _ ↦ h₁.kind_eq,
      fun _ _ ↦ h₁.links.slots _, fun _ ↦ h₁.links.parent _⟩
    rw [if_pos (h₁.undef ▸ hundef), hlabels]
  next hundef =>
    refine Ends.bind ((ends_addUndef h₁.coherent h₁.shape).mono (fun f ⟨hf, hnot⟩ ↦
      ⟨hf, fun hcount ↦ hnot fun c hc ↦ ?_⟩) fun _ _ ↦ id) ?_
    · rw [h₁.links.slots] at hc
      rw [hisLabel, hcount.only c hc]
    rintro _ w₂ ⟨hturn, u, happended⟩
    have hkind {l : NodeId} (hl : l ∈ w.tree.labels n) : w₂.tree.kind l = w₁.tree.kind l :=
      happended.kind_eq (h₁.has (ht.has_of_held (mem_slots_of_mem_labels hl)))
    refine ends_pure ⟨(h₁.toTurn.trans hturn).report (Bool.or_true _).symm,
      ⟨fun before l after heq ↦ ?_, ?_⟩, fun hl ↦ hkind hl ▸ h₁.settled hl, fun {m} hm ↦ henum ?_,
      fun hm hl ↦ (happended.kind_eq (h₁.has hm)).trans (h₁.kind_eq hl),
      fun hm hne ↦ (happended.slots_eq (h₁.has hm) hne).trans (h₁.links.slots _),
      fun hm ↦ (happended.parent_eq (h₁.has hm)).trans (h₁.links.parent _)⟩
    · rw [hkind (by simp [heq])]
      exact h₁.numbered heq
    · have hnew : w₂.tree.isLabel u = true := isLabel_iff.2 ⟨_, _, _, _, _, _, happended.kind_new⟩
      rw [if_neg (h₁.undef ▸ hundef)]
      refine ⟨u, ?_, fun hu ↦ happended.new (h₁.has hu), happended.kind_new⟩
      rw [Tree.labels_eq, children, happended.slots_self, filterMap_append, filter_append, ← hlabels,
        Tree.labels_eq]
      congr 1
      · exact filter_congr fun c hc ↦
          isLabel_congr (happended.kind_eq (h₁.coherent.has_of_held (mem_children.1 hc)))
      · simp [hnew]
    · obtain ⟨data, hdata, hshape⟩ := shape?_eq_some_iff.1 hm
      refine shape?_eq_some_iff.2 ⟨data, (happended.kind_eq ?_).symm.trans hdata, hshape⟩
      refine happended.has_old (has_of_kind (by simp [hdata])) ?_
      rintro rfl
      cases hdata.symm.trans happended.kind_new

theorem isVisit_normalize : IsVisit fun n ↦ do
    if (← Pass.tree).shape? n == some .enumeration then normalizeEnum n else return false := by
  intro w n ht hwithin
  refine safe_tree_bind.2 ?_
  split
  next hn =>
    exact ((ends_normalizeEnum ht.toCoherent (eq_of_beq hn)).mono (fun _ ↦ And.left) fun _ _ ↦ And.left).safe
  · exact Turn.refl ht.toCoherent

theorem isTurn_normalize : IsTurn (normalize root) := isVisit_normalize.sweep .pre

end Enumeration

end ProtocolIR
