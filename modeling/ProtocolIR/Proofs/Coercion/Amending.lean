import ProtocolIR.Proofs.Coercion.Assembly

/-!
# Amended trees

A tree is *amended* where expressions are put in the place of others, in slots where no types are
looked for. The nodes that there were stay what they are; some of them can get detached, and none of
them comes under another. An amended tree echoes the tree before, each node itself, and copies of
nodes echo their sources.

What is said about types holds in a *region*, which has in it what is attached and what readers of
types come to from there.
-/

namespace ProtocolIR.Tree

open Option NodeKind Bool

variable {t t' : Tree} {g : NodeId → Prop} {r : NodeId → NodeId → Prop}

structure Amended (t t' : Tree) : Prop where
  rooted : t.Rooted
  rooted' : t'.Rooted
  size_le : t.size ≤ t'.size
  kind : ∀ {n}, t.Has n → t'.kind n = t.kind n
  length : ∀ {n}, t.Has n → (t'.slots n).length = (t.slots n).length
  child : ∀ {n i}, t.Has n → t'.child n i = t.child n i ∨
    ¬(t.kind n).ReadsType i ∧ (∀ c, t.child n i = some c → (t.kind c).isExpression = true) ∧
      ∀ c, t'.child n i = some c → (t'.kind c).isExpression = true
  within : ∀ {a n}, t.Has a → t.Has n → t'.Within a n → t.Within a n
  function : ∀ {n f}, t.Has n → t'.findAncestor n isFunction = some f →
    t.findAncestor n isFunction = some f
  around : ∀ {n q}, t.Has n → (t.kind n).isExpression = false →
    (t'.parent n).bind t'.parent = some q → (t'.kind q).isExpression = false →
      (t.parent n).bind t.parent = some q

/-- The region in which a sweep looks for types. -/
structure Region (t : Tree) (g : NodeId → Prop) : Prop where
  new : ∀ {n}, ¬t.Has n → g n
  attached : ∀ {n}, t.Within root n → g n
  child : ∀ {n c}, g n → some c ∈ t.slots n → g c
  parent : ∀ {n p}, g n → t.parent n = some p → g p
  callee : ∀ {n kind link}, g n → t.kind n = .expression (.resolved kind (.function link)) → g link.node
  closed : ∀ {n link}, g n → (t.kind n).link? = some link → t.Has link.node
  legible : ∀ {n}, g n → t.Legible n

theorem has_of_declares {n u : NodeId} (h : t.declaredType n = some u) : t.Has n :=
  has_of_kind fun hroot ↦ by
    unfold declaredType at h
    rw [hroot] at h
    cases h

namespace Amended

variable {t t₁ t₂ t' : Tree} {n m a b : NodeId} {i : Nat}

theorem has (h : Amended t t') (hn : t.Has n) : t'.Has n := Nat.lt_of_lt_of_le hn h.size_le

theorem refl (ht : t.Rooted) : Amended t t where
  rooted := ht
  rooted' := ht
  size_le := Nat.le_refl _
  kind _ := rfl
  length _ := rfl
  child _ := .inl rfl
  within _ _ h := h
  function _ h := h
  around _ _ h _ := h

theorem trans (h : Amended t t₁) (h' : Amended t₁ t₂) : Amended t t₂ where
  rooted := h.rooted
  rooted' := h'.rooted'
  size_le := Nat.le_trans h.size_le h'.size_le
  kind hn := by rw [h'.kind (h.has hn), h.kind hn]
  length hn := by rw [h'.length (h.has hn), h.length hn]
  child {n i} hn := by
    rcases h.child (i := i) hn with heq | ⟨hreads, hold, hnew⟩
    · rcases h'.child (i := i) (h.has hn) with heq' | ⟨hreads, hold, hnew⟩
      · exact .inl (heq'.trans heq)
      · rw [h.kind hn] at hreads
        rw [heq] at hold
        refine .inr ⟨hreads, fun c hc ↦ ?_, hnew⟩
        rw [← h.kind (h.rooted.has_of_child hc)]
        exact hold c hc
    · rcases h'.child (i := i) (h.has hn) with heq' | ⟨-, -, hnew'⟩
      · refine .inr ⟨hreads, hold, fun c hc ↦ ?_⟩
        rw [heq'] at hc
        rw [h'.kind (h.rooted'.has_of_child hc)]
        exact hnew c hc
      · exact .inr ⟨hreads, hold, hnew'⟩
  within ha hn hwithin := h.within ha hn (h'.within (h.has ha) (h.has hn) hwithin)
  function hn hf := h.function hn (h'.function (h.has hn) hf)
  around {n q} hn hkind hq hplain := by
    have hq₁ := h'.around (h.has hn) (by rw [h.kind hn]; exact hkind) hq hplain
    obtain ⟨p, -, hp⟩ := bind_eq_some_iff.1 hq₁
    refine h.around hn hkind hq₁ ?_
    rw [← h'.kind (h.rooted'.has_parent hp)]
    exact hplain

variable (h : Amended t t')

include h

/-- Where types are looked for, nothing has changed. -/
theorem child_eq (hn : t.Has n) (hreads : (t.kind n).ReadsType i) : t'.child n i = t.child n i :=
  (h.child hn).resolve_right fun hnot ↦ hnot.1 hreads

theorem typeData?_eq (hn : t.Has n) : t'.typeData? n = t.typeData? n := by
  unfold typeData?
  rw [h.kind hn]

theorem unqualified_eq (hn : t.Has n) : t'.unqualified n = t.unqualified n := by
  unfold unqualified
  rw [h.kind hn]
  split
  next hkind => exact h.child_eq hn (by rw [hkind]; trivial)
  · rfl
  · rfl

theorem declaredType_eq (hn : t.Has n) : t'.declaredType n = t.declaredType n := by
  unfold declaredType
  rw [h.kind hn]
  split
  next htype =>
    have hreads : (t.kind n).ReadsType 0 := by
      cases hkind : t.kind n with
      | declaration => rfl
      | _ => rw [hkind] at htype; cases htype
    rw [h.child_eq hn hreads]
    exact bind_congr fun c hc ↦ h.unqualified_eq (h.rooted.has_of_child hc)
  · rfl

theorem namesRecorded {data : TypeData} (hdata : t.NamesRecorded data) : t'.NamesRecorded data := by
  obtain ⟨hwildcard, hnone, id, link, u, text, hshape, hu, htext⟩ := hdata
  refine ⟨hwildcard, hnone, id, link, u, text, hshape, ?_, ?_⟩
  · rw [h.declaredType_eq (has_of_declares hu), hu]
  · rw [h.typeData?_eq (h.rooted.has_of_declaredType hu), htext]

theorem legible (ha : t.Legible a) (hkind : t'.kind b = t.kind a) : t'.Legible b :=
  fun data hdata ↦ (ha data (hkind.symm.trans hdata)).imp_right h.namesRecorded

theorem linkTarget {link : Link} (hlink : t.Has link.node) (hm : t'.linkTarget link = some m) :
    t.linkTarget link = some m := by
  have hattached : t'.isAttached link.node = true → t.isAttached link.node = true := fun hattached ↦
    h.rooted.isWithin_iff.2 (h.within h.rooted.has_root hlink (h.rooted'.isWithin_iff.1 hattached))
  unfold Tree.linkTarget at hm ⊢
  have hbound' : link.node.index < t'.size := h.has hlink
  have hbound : link.node.index < t.size := hlink
  rw [if_pos hbound', h.kind hlink] at hm
  rw [if_pos hbound]
  split at hm
  next d hkind =>
    split at hm
    next hboth =>
      rw [and_eq_true_iff] at hboth
      rw [if_pos (and_eq_true_iff.2 ⟨hboth.1, hattached hboth.2⟩)]
      exact hm
    · cases hm
  next i hkind =>
    split at hm
    next hwithin =>
      rw [if_pos (hattached hwithin)]
      exact hm
    · cases hm
  · cases hm

end Amended

/-- A link leads to a declaration or an item that is attached. -/
theorem attached_of_linkTarget {link : Link} {m : NodeId} (h : t.linkTarget link = some m) :
    t.isAttached m = true ∧ (t.kind m).isExpression = false := by
  unfold linkTarget at h
  split at h
  · split at h
    next d hkind =>
      split at h
      next hboth =>
        cases h
        exact ⟨(and_eq_true_iff.1 hboth).2, by rw [hkind]; rfl⟩
      · cases h
    next i hkind =>
      split at h
      next hattached =>
        cases h
        exact ⟨hattached, by rw [hkind]; rfl⟩
      · cases h
    · cases h
  · cases h

/-- Nodes of a region stand for themselves, and copies for their sources. -/
def SelfOrCopy (g : NodeId → Prop) (t : Tree) (r : NodeId → NodeId → Prop) (a b : NodeId) : Prop :=
  g a ∧ t.Has a ∧ a = b ∨ r a b

/-- Copies of nodes of a region. A return statement belongs to the function it belonged to, or to the
copy of it. -/
structure Copied (g : NodeId → Prop) (t t' : Tree) (r : NodeId → NodeId → Prop) : Prop
    extends Replicas t t t' r where
  region : ∀ {a b}, r a b → g a
  has : ∀ {a b}, r a b → t.Has a
  function : ∀ {a b f'}, r a b → t.kind a = .statement .ret →
    t'.findAncestor b isFunction = some f' →
      ∃ f, t.findAncestor a isFunction = some f ∧ SelfOrCopy g t r f f'

theorem copied_nothing (g : NodeId → Prop) (t t' : Tree) : Copied g t t' fun _ _ ↦ False where
  toReplicas := .nothing t t t'
  region h := h.elim
  has h := h.elim
  function h := h.elim

theorem Region.above (h : Region t g) {n a : NodeId} (hn : g n) (hwithin : t.Within a n) : g a := by
  induction hwithin with
  | here => exact hn
  | beneath hp _ ih => exact ih (h.parent hn hp)

theorem Region.findAncestor (h : Region t g) (ht : t.Coherent) {n f : NodeId} {p : NodeKind → Bool}
    (hn : g n) (hf : t.findAncestor n p = some f) : g f ∧ t.Has f := by
  have hmem := List.mem_of_find?_eq_some hf
  refine ⟨?_, ht.has_of_mem_ancestors hmem⟩
  obtain ⟨q, hq, hwithin⟩ := ht.mem_ancestors_iff.1 hmem
  exact h.above (h.parent hn hq) hwithin

theorem Amended.echo (h : Amended t t') (hg : Region t g) (hr : Copied g t t' r) :
    Echo t t' (SelfOrCopy g t r) where
  rooted := h.rooted
  rooted' := h.rooted'
  size_le := h.size_le
  has := by
    rintro a b (⟨-, ha, -⟩ | hab)
    · exact ha
    · exact hr.has hab
  has' := by
    rintro a b (⟨-, ha, rfl⟩ | hab)
    · exact h.has ha
    · exact hr.present hab
  unique := by
    rintro a a' b (⟨-, ha, rfl⟩ | hab) (⟨-, ha', rfl⟩ | hab')
    · rfl
    · exact absurd ha (hr.new hab')
    · exact absurd ha' (hr.new hab)
    · exact hr.unique hab hab'
  kind := by
    rintro a b (⟨-, ha, rfl⟩ | hab)
    · exact h.kind ha
    · exact hr.kind hab
  length := by
    rintro a b (⟨-, ha, rfl⟩ | hab)
    · exact h.length ha
    · exact (hr.slots hab).length_eq.symm
  slot := by
    rintro a b i (⟨hga, ha, rfl⟩ | hab) hreads
    · rw [h.child_eq ha hreads]
      cases hc : t.child a i with
      | none => exact .none
      | some c => exact .some (.inl ⟨hg.child hga (mem_slots_of_child hc), h.rooted.has_of_child hc, rfl⟩)
    · exact Carries.rel_join_of_forall₂ (forall₂_rel_mono .inr (hr.slots hab)) i
  other := by
    rintro a b i c' (⟨hga, ha, rfl⟩ | hab) hc' hplain
    · rcases h.child (i := i) ha with heq | ⟨-, -, hnew⟩
      · rw [heq] at hc'
        exact ⟨c', hc', .inl ⟨hg.child hga (mem_slots_of_child hc'), h.rooted.has_of_child hc', rfl⟩⟩
      · rw [hnew c' hc'] at hplain
        cases hplain
    · obtain ⟨c, hc, hrel⟩ := exists_of_rel_some (Carries.rel_join_of_forall₂ (hr.slots hab) i) hc'
      exact ⟨c, hc, .inr hrel⟩
  other' := by
    rintro a b i c (⟨hga, ha, rfl⟩ | hab) hc hplain
    · rcases h.child (i := i) ha with heq | ⟨-, hold, -⟩
      · exact ⟨c, heq.trans hc, .inl ⟨hg.child hga (mem_slots_of_child hc), h.rooted.has_of_child hc, rfl⟩⟩
      · rw [hold c hc] at hplain
        cases hplain
    · obtain ⟨c', hc', hrel⟩ := exists_of_some_rel (Carries.rel_join_of_forall₂ (hr.slots hab) i) hc
      exact ⟨c', hc', .inr hrel⟩
  target := by
    intro a b link m hab hlink hm
    have hga : g a := hab.elim (·.1) hr.region
    have hm := h.linkTarget (hg.closed hga hlink) hm
    have hwithin := h.rooted.isWithin_iff.1 (attached_of_linkTarget hm).1
    exact ⟨hm, .inl ⟨hg.attached hwithin, hwithin.has h.rooted.has_root, rfl⟩⟩
  around := by
    rintro link m q hm (⟨hgm, hhas, -⟩ | hmm) hq hplain
    · have hkind := (attached_of_linkTarget hm).2
      have hq := h.around hhas (by rw [← h.kind hhas]; exact hkind) hq hplain
      obtain ⟨p, hp, hpq⟩ := bind_eq_some_iff.1 hq
      exact ⟨hq, .inl ⟨hg.parent (hg.parent hgm hp) hpq, h.rooted.has_parent hpq, rfl⟩⟩
    · exact absurd (hr.has hmm) (hr.new hmm)
  callee := by
    intro a b kind link hab hkind
    have hga : g a := hab.elim (·.1) hr.region
    exact .inl ⟨hg.callee hga hkind, hg.closed hga (by rw [hkind]; rfl), rfl⟩
  function := by
    rintro a b f' (⟨hga, ha, rfl⟩ | hab) hkind hf'
    · have hf := h.function ha hf'
      obtain ⟨hgf, hhas⟩ := hg.findAncestor h.rooted.toCoherent hga hf
      exact ⟨f', hf, .inl ⟨hgf, hhas, rfl⟩⟩
    · exact hr.function hab hkind hf'
  legible := by
    rintro a b (⟨hga, -, -⟩ | hab)
    · exact hg.legible hga
    · exact hg.legible (hr.region hab)

theorem Novel.has_of_link? {kind : NodeKind} {link : Link} (h : t.Novel kind)
    (hlink : kind.link? = some link) : t.Has link.node := by
  cases kind with
  | type data =>
    rcases h with ⟨hnone, -⟩ | ⟨-, -, id, link', u, text, hshape, hu, -⟩
    · rw [hlink] at hnone
      cases hnone
    · have hlink' : (type data).link? = some link' := by
        simp only [link?, hshape]
      cases hlink.symm.trans hlink'
      exact has_of_declares hu
  | expression e =>
    cases e with
    | literal | coerced => cases hlink
    | _ => exact h.elim
  | _ => cases hlink

/-- A region stays one, as long as what is put in and what is made anew stays in it. -/
theorem Region.amended (h : Region t g) (ham : Amended t t')
    (hslots : ∀ {p c}, t.Has p → some c ∈ t'.slots p → some c ∈ t.slots p ∨ ¬t.Has c ∧ g p)
    (hinside : ∀ {b c}, ¬t.Has b → some c ∈ t'.slots b → g c)
    (hmade : ∀ {b}, ¬t.Has b → t'.Has b → (∃ a, g a ∧ t'.kind b = t.kind a) ∨ t.Novel (t'.kind b)) :
    Region t' g where
  new hn := h.new fun hhas ↦ hn (ham.has hhas)
  attached {n} hn := by
    by_cases hhas : t.Has n
    · exact h.attached (ham.within ham.rooted.has_root hhas hn)
    · exact h.new hhas
  child {n c} hgn hc := by
    by_cases hhas : t.Has n
    · rcases hslots hhas hc with hc | ⟨hnew, -⟩
      · exact h.child hgn hc
      · exact h.new hnew
    · exact hinside hhas hc
  parent {n p} hgn hp := by
    by_cases hhas : t.Has p
    · rcases hslots hhas (ham.rooted'.held hp) with hn | ⟨-, hgp⟩
      · exact h.parent hgn (ham.rooted.parent_of_held hn)
      · exact hgp
    · exact h.new hhas
  callee {n kind link} hgn hkind := by
    by_cases hhas : t.Has n
    · exact h.callee hgn ((ham.kind hhas).symm.trans hkind)
    · rcases hmade hhas (has_of_kind (by simp [hkind])) with ⟨a, hga, heq⟩ | hnovel
      · exact h.callee hga (heq.symm.trans hkind)
      · rw [hkind] at hnovel
        exact hnovel.elim
  closed {n link} hgn hlink := by
    by_cases hhas : t.Has n
    · rw [ham.kind hhas] at hlink
      exact ham.has (h.closed hgn hlink)
    · by_cases hhas' : t'.Has n
      · rcases hmade hhas hhas' with ⟨a, hga, heq⟩ | hnovel
        · rw [heq] at hlink
          exact ham.has (h.closed hga hlink)
        · exact ham.has (hnovel.has_of_link? hlink)
      · rw [kind_of_not_has hhas'] at hlink
        cases hlink
  legible {n} hgn := by
    by_cases hhas : t.Has n
    · exact ham.legible (h.legible hgn) (ham.kind hhas)
    · intro data hdata
      rcases hmade hhas (has_of_kind (by simp [hdata])) with ⟨a, hga, heq⟩ | hnovel
      · exact ham.legible (h.legible hga) heq data hdata
      · rw [hdata] at hnovel
        exact hnovel.imp (·.2) ham.namesRecorded

end ProtocolIR.Tree
