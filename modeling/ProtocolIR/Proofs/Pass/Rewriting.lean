import ProtocolIR.Proofs.Pass.Building
import ProtocolIR.Proofs.Sweeps

/-!
# What a visit does to a tree

A visit of resolution or of a sweep of coercions does one of a few things. It learns facts about a
node; it puts a piece where an old node was, or into a slot of an expression; or it takes expressions
out of their slots and puts them back inside of a new one. What else is to be known of a visit follows
from this, in the first place that it only learns, and is a turn.
-/

namespace ProtocolIR

open Tree List Option NodeKind

/-- Only what is found is chosen, and only a function is chosen as one. -/
def Choice.Found (t : Tree) : Choice → Prop
  | .builtin _ => True
  | .function d => (t.kind d).isFunction ∧ t.Finds d
  | .field _ d => t.Finds d

/-- Whether a node keeps what it holds, expressions apart. -/
def NodeKind.isFirm : NodeKind → Bool
  | .root | .type _ | .qualified _ | .statement _ | .item _ => true
  | .declaration d => !d.kind.takesValue
  | _ => false

/-- What a visit of `n` may take out of the tree: an expression that is there, or what `n` does not hold
firmly. -/
def Tree.Yields (t : Tree) (n old : NodeId) : Prop :=
  (old = n ∨ ∃ i, t.child n i = some old) ∧ (t.kind old).isExpression = true ∨
    ∃ i, t.child n i = some old ∧ (t.kind n).isFirm = false

/-- An unresolved operator is bound to a choice: its operands go into a new one, beside a type that was
built for its result, and this takes its place. -/
inductive Rebinds (s : Sources) (t : Tree) (n : NodeId) (kind : OperatorKind) (choice : Choice) (t' : Tree) : Prop
  | intro {t₁ t₂ t₃ t₄ : Tree} {result c : NodeId} {location : Option Location} : Crafted s t t₁ [result] →
    Resolution.bindCallee kind choice (t.children n) t₁ = .ok ((), t₂) →
    t₂.removeChildren n 0 (t₂.slots n).length = .ok t₃ →
    t₃.create (.expression (.resolved kind (choice.target t₃))) (some result :: (t.children n).map some)
      location = .ok (c, t₄) →
    t₄.replaceNode n c = .ok t' → Rebinds s t n kind choice t'

/-- What a visit of `n` does to a tree, and whether it reports a change. What it builds comes from some
sources. Where `good` holds, what is replaced has a place, and the new node can be put there. -/
inductive Rewrites (s : Sources) (good : Prop) (t : Tree) (n : NodeId) : Bool → Tree → Prop
  | idle : Rewrites s good t n false t
  | stuck : ¬good → Rewrites s good t n true t
  | learnt {b : Bool} {t₁ : Tree} {m : NodeId} {kind : NodeKind} : Rewrites s good t n b t₁ → t₁.Has m →
    (t₁.kind m).Refines kind → kind ≠ t₁.kind m →
    (∀ link ∈ kind.links, link ∈ (t₁.kind m).links ∨ t₁.FindsLink link) → Edited t₁ (t₁.setKind m kind) →
    Rewrites s good t n true (t₁.setKind m kind)
  | emptied {t₁ t' : Tree} {e : Expression} : Rewrites s good t n true t₁ → t₁.kind n = .expression e →
    t₁.setChild n 0 none = .ok t' → Rewrites s good t n true t'
  | replaced {t₁ t' : Tree} {c old : NodeId} : Crafted s t t₁ [c] → t.Yields n old →
    (good → ∃ p, t.parent old = some p) → (good → Edited t₁ t') → t₁.replaceNode old c = .ok t' →
    Rewrites s good t n true t'
  | typed {t₁ t' : Tree} {c : NodeId} {e : Expression} : t.kind n = .expression e → Crafted s t t₁ [c] →
    t₁.setChild n 0 (some c) = .ok t' → Rewrites s good t n true t'
  | rebound {t' : Tree} {kind : OperatorKind} {choice : Choice} : t.kind n = .expression (.unresolved kind) →
    choice.Found t → (good → ∃ p, t.parent n = some p) → Rebinds s t n kind choice t' →
    Rewrites s good t n true t'
  | wrapped {t₁ t₂ t₃ t' : Tree} {p e target c : NodeId} {i j : Nat} {location : Option Location} :
    t.child n j = some e → (t.kind e).isExpression = true → t.parent e = some p → t.child p i = some e →
    Crafted s t t₁ [target] → t₁.setChild p i none = .ok t₂ →
    t₂.create (.expression .coerced) [some e, some target] location = .ok (c, t₃) →
    t₃.setChild p i (some c) = .ok t' → Rewrites s good t n true t'

theorem inert_of_isExpression {kind : NodeKind} (h : kind.isExpression = true) : kind.Inert := by
  cases kind with
  | expression e => exact inert_expression e
  | _ => cases h

namespace Resolution

variable {n : NodeId} {t : Tree} {id : QualifiedId}

theorem edited_setResolved_name (link : Link) (h : t.kind n = .expression (.name id none)) :
    Edited t (t.setKind n (.expression (.name id (some link)))) := by
  refine .of_setKind_other ?_ (by simp [h]) (by simp [h])
  rw [h]
  exact .name (.of_none _)

/-- Binding the callee fills one gap or none; the links stay. -/
theorem safe_bindCallee (kind : OperatorKind) (choice : Choice) (operands : List NodeId) :
    Safe (bindCallee kind choice operands) t fun _ t' ↦ SameLinks t t' ∧ Edited t t' := by
  have hsame : SameLinks t t ∧ Edited t t := ⟨⟨fun _ ↦ rfl, fun _ ↦ rfl⟩, .refl t⟩
  unfold bindCallee
  split
  next f callee _ =>
    refine safe_bind.2 (safe_get.2 ?_)
    split
    next id hkind =>
      exact safe_update (setResolved_of_name _ hkind)
        ⟨sameLinks_setKind t callee _, edited_setResolved_name _ hkind⟩
    · exact hsame
  · exact hsame

end Resolution

/-! ## Nodes that are moved -/

section Moved

variable {t t₁ t₂ t₃ : Tree} {n c p e : NodeId} {i : Nat} {slots : List (Option NodeId)}

/-- What was taken out of its slots goes into a new node, together with a piece. -/
theorem exists_enclosing {holder : NodeId} {out : List NodeId} (ht : t.Coherent) (hgrowth : Growth t t₁)
    (hpiece : Piece t t₁ c) (hlinks : SameLinks t₁ t₂) (hrefines : t₁.Refines t₂)
    (hreslot : Reslotted t₂ t₃ holder out []) (hkinds : SameKinds t₂ t₃) (hout : ∀ m ∈ out, t.Has m)
    (hslots : ∀ m, some m ∈ slots → m = c ∨ m ∈ out) (hnodup : (slots.filterMap id).Nodup)
    (kind : NodeKind) (location : Option Location) :
    t₃.Coherent ∧ (∀ m, some m ∈ slots → t₃.Has m) ∧
      ∃ t₄, t₃.create kind slots location = .ok (⟨t₃.size⟩, t₄) ∧ t₄.Coherent ∧
        t₄.parent ⟨t₃.size⟩ = none ∧ ∀ p, t.Has p → (∀ m ∈ out, ¬t.Within m p) → ¬t₄.Within ⟨t₃.size⟩ p := by
  have hhas₃ {m : NodeId} (hm : t₁.Has m) : t₃.Has m := (hkinds.has_iff m).2 (hrefines.has hm)
  have ht₃ := hreslot.coherent_of_out (hlinks.coherent (hgrowth.coherent ht))
  have hfree : ∀ m, some m ∈ slots → t₃.parent m = none := fun m hm ↦ by
    by_cases hmem : m ∈ out
    · exact hreslot.parent_of_out hmem
    · obtain rfl := (hslots m hm).resolve_right hmem
      rw [hreslot.parent_of_other not_mem_nil hmem, hlinks.parent, hpiece.free]
  have hhas : ∀ m, some m ∈ slots → t₃.Has m := fun m hm ↦ by
    rcases hslots m hm with rfl | hm
    · exact hhas₃ hpiece.has
    · exact hhas₃ (hgrowth.has (hout m hm))
  obtain ⟨t₄, hcreate⟩ := exists_create kind location hfree
  refine ⟨ht₃, hhas, t₄, hcreate, coherent_create ht₃ hcreate hhas hnodup, parent_create_self hcreate hhas,
    fun p hp habove ↦ ?_⟩
  refine not_within_create ht₃.toLinked hcreate hhas hnodup (hhas₃ (hgrowth.has hp)) fun m hm hwithin ↦ ?_
  obtain ⟨hold, hwithin⟩ := hgrowth.within_of_has ht.toLinked hp (hlinks.within (hreslot.within_of_out hwithin))
  rcases hslots m hm with rfl | hm
  · exact hpiece.new hold
  · exact habove m hm hwithin

/-- `c` has come where `n` was, and the nodes that `t₁` has beyond `t` are as they were. -/
structure Supplants (t t₁ : Tree) (n c : NodeId) (t' : Tree) : Prop where
  place : ∃ p i, t.child p i = some n ∧ t'.child p i = some c
  built : ∀ {m}, ¬t.Has m → t₁.Has m → t'.kind m = t₁.kind m ∧ t'.slots m = t₁.slots m

/-- A node takes the place of one that was emptied before. -/
theorem supplants_of_create {t₄ t₅ : Tree} {kind : NodeKind} {location : Option Location} (hn : t.Has n)
    (hp : t.Has p) (hpn : p ≠ n) (hslots : t₂.slots p = t.slots p) (hkinds : SameKinds t₂ t₃)
    (hslots₃ : ∀ m, m ≠ n → t₃.slots m = t₂.slots m) (hp₃ : t₃.Has p)
    (hcreate : t₃.create kind slots location = .ok (c, t₄)) (hp₄ : t₄.parent n = some p)
    (hreplace : t₄.replaceNode n c = .ok t₅) :
    Supplants t t₂ n c t₅ ∧ t₅.kind c = kind ∧ t₅.slots c = slots := by
  have hold {m : NodeId} (hm : t₂.Has m) : t₃.Has m := (hkinds.has_iff m).2 hm
  obtain ⟨q, i, hq, hi, hset⟩ := replaceNode_eq_ok hreplace
  cases hp₄.symm.trans hq
  have hkinds₅ := sameKinds_setChild hset
  have hne : c ≠ p := by
    rintro rfl
    exact not_has_create hcreate hp₃
  refine ⟨⟨⟨p, i, ?_, ?_⟩, fun {m} hnew hm ↦ ⟨?_, ?_⟩⟩, ?_, ?_⟩
  · rwa [child_congr (slots_create_of_has hcreate hp₃), child_congr (hslots₃ p hpn), child_congr hslots] at hi
  · have hlt := (List.getElem?_eq_some_iff.1 (child_eq_some_iff.1 hi)).1
    rw [child_eq_some_iff, slots_setChild hset (has_of_child_eq hi), Edited.putSlot_of_child hi]
    simp [hlt]
  · rw [hkinds₅.kind_eq, kind_create_of_has hcreate (hold hm), hkinds.kind_eq]
  · have hmp : m ≠ p := fun heq ↦ hnew (heq ▸ hp)
    rw [slots_setChild_of_ne hset hmp, slots_create_of_has hcreate (hold hm),
      hslots₃ m fun heq ↦ hnew (heq ▸ hn)]
  · rw [hkinds₅.kind_eq, kind_create_self hcreate]
  · rw [slots_setChild_of_ne hset hne, slots_create_self hcreate]

/-- The operands leave the unresolved operator and go into a resolved one, which takes its place. -/
theorem exists_rebound {result : NodeId} {kind : OperatorKind} (ht : t.Coherent)
    (hgrows : Grows t t₁) (hresult : Piece t t₁ result) (hp : t.parent n = some p)
    (hkind : t.kind n = .expression (.unresolved kind)) (hlinks : SameLinks t₁ t₂) (hedit : Edited t₁ t₂)
    (hremove : t₂.removeChildren n 0 (t₂.slots n).length = .ok t₃) (target : OperatorTarget)
    (location : Option Location) :
    ∃ t₄ t₅, t₃.create (.expression (.resolved kind target)) (some result :: (t.children n).map some) location =
      .ok (⟨t₃.size⟩, t₄) ∧ t₄.replaceNode n ⟨t₃.size⟩ = .ok t₅ ∧ Turn t true t₅ ∧
        Supplants t t₂ n ⟨t₃.size⟩ t₅ ∧ t₅.kind ⟨t₃.size⟩ = .expression (.resolved kind target) ∧
        t₅.slots ⟨t₃.size⟩ = some result :: (t.children n).map some := by
  have hn := has_of_parent hp
  have hgrowth := hgrows.toGrowth
  have hpn : p ≠ n := by
    rintro rfl
    exact (ht.grounded p).not_within hp .here
  have hrefines := hedit.toRefines
  have hinert : (t₂.kind n).Inert := by
    refine (hedit.kind (hgrowth.has hn)).inert_iff.2 ?_
    rw [hgrowth.kind_eq hn, hkind]
    exact inert_expression _
  have ht₂ := hlinks.coherent (hgrowth.coherent ht)
  have hslots₂ : t₂.slots n = t.slots n := by rw [hlinks.slots, hgrowth.slots_eq hn]
  have hp₂ : t₂.parent n = some p := by rw [hlinks.parent, hgrowth.parent_eq hn, hp]
  have hreslot₃ := reslotted_removeChildren ht₂.toLinked (has_of_parent hp₂) hremove
  rw [take_length, drop_zero, hslots₂] at hreslot₃
  have hkinds₃ := sameKinds_removeChildren hremove
  have hheld : ∀ m ∈ t.children n, t.parent m = some n := fun m hm ↦ ht.parent_of_held (mem_children.1 hm)
  have hnodup : ((some result :: (t.children n).map some).filterMap id).Nodup := by
    have hlist : (some result :: (t.children n).map some).filterMap id = result :: t.children n := by
      simp [filterMap_map]
    rw [hlist]
    exact nodup_cons.2 ⟨fun hmem ↦ hresult.new (has_of_parent (hheld result hmem)), ht.nodup_children n⟩
  obtain ⟨ht₃, hhas, t₄, hcreate, ht₄, hfree, habove⟩ := exists_enclosing ht hgrowth hresult hlinks hrefines
    hreslot₃ hkinds₃ (fun m hm ↦ has_of_parent (hheld m hm)) (by simp) hnodup
    (.expression (.resolved kind target)) location
  have hp₃ := hreslot₃.parent_of_elsewhere hp₂ hpn
  have hp₄ : t₄.parent n = some p := (reslotted_create hcreate hhas hnodup).parent_of_elsewhere hp₃
    fun heq ↦ not_has_create hcreate (heq ▸ ht₃.has_parent hp₃)
  obtain ⟨t₅, hreplace, hkinds₅, hreslot₅⟩ :=
    replaceNode_of_free ht₄.toLinked hp₄ (has_create hcreate) hfree
  have ht₅ : t₅.Coherent := hreslot₅.coherent ht₄ fun c hc ↦ by
    cases mem_singleton.1 hc
    exact habove p (ht.has_parent hp) fun m hm hwithin ↦
      (ht.grounded m).not_within (hheld m hm) (.beneath hp hwithin)
  have hrefines₅ : t.Refines t₅ := (Refines.of_growth hgrowth).trans <| hrefines.trans <|
    (Refines.of_sameKinds hkinds₃).trans <| (Refines.of_create hcreate).trans (.of_sameKinds hkinds₅)
  have hp₁ := ht.has_parent hp
  refine ⟨t₄, t₅, hcreate, hreplace, ⟨Step.of_size_lt ht₅ hrefines₅ ?_, fun hf ↦ ?_⟩,
    supplants_of_create hn hp₁ hpn (by rw [hlinks.slots, hgrowth.slots_eq hp₁]) hkinds₃ hreslot₃.slots_ne
      (ht₃.has_parent hp₃) hcreate hp₄ hreplace⟩
  · have hlt := hresult.size_lt
    have hle := hrefines.size_le
    rw [hkinds₅.size_eq, size_create hcreate, hkinds₃.size_eq]
    omega
  · have ht₁ := (hgrowth.coherent ht).toLinked
    have hf₃ := (Edited.of_removeChildren ht₂.toLinked hremove hinert).faithful ht₂.toLinked
      (hedit.faithful ht₁ (hgrows.faithful ht hf))
    obtain ⟨q, i, hq, hchild, hset⟩ := replaceNode_eq_ok hreplace
    cases hp₄.symm.trans hq
    rw [child_congr (slots_create_of_has hcreate (ht₃.has_parent hp₃))] at hchild
    refine (Edited.of_enclosed ht₃.toLinked hchild ?_ ⟨rfl, fun _ ↦ rfl⟩ (fun _ ↦ rfl)
      (Edited.putSlot_of_child hchild) hcreate (inert_expression _) hset).faithful ht₃.toLinked hf₃
    rwa [hkinds₃.kind_eq]

/-- The expression leaves its slot, goes into a conversion, and that into the slot. -/
theorem exists_wrapped {target : NodeId} (ht : t.Coherent) (hgrows : Grows t t₁) (hpiece : Piece t t₁ target)
    (hchild : t.child p i = some e) (hinert : (t.kind e).Inert) (hset : t₁.setChild p i none = .ok t₂)
    (location : Option Location) :
    ∃ t₃ t₄, t₂.create (.expression .coerced) [some e, some target] location = .ok (⟨t₂.size⟩, t₃) ∧
      t₃.setChild p i (some ⟨t₂.size⟩) = .ok t₄ ∧ Turn t true t₄ := by
  have hgrowth := hgrows.toGrowth
  have hhas := has_of_child_eq hchild
  have hp := ht.parent_of_child hchild
  have hchild₁ : t₁.child p i = some e := by rw [child_congr (hgrowth.slots_eq hhas), hchild]
  have hreslot₂ := reslotted_setChild (hgrowth.coherent ht).toLinked hset (hgrowth.has hhas) (by simp)
  rw [hchild₁] at hreslot₂
  have hkinds₂ := sameKinds_setChild hset
  have hne : e ≠ target := by
    rintro rfl
    exact hpiece.new (has_of_parent hp)
  have hnodup : ([some e, some target].filterMap id).Nodup := by simpa using hne
  obtain ⟨-, -, t₃, hcreate, ht₃, hfree, habove⟩ := exists_enclosing ht hgrowth hpiece
    ⟨fun _ ↦ rfl, fun _ ↦ rfl⟩ (.refl t₁) hreslot₂ hkinds₂ (fun m hm ↦ mem_singleton.1 hm ▸ has_of_parent hp)
    (by simp [or_comm]) hnodup (.expression .coerced) location
  obtain ⟨t₄, hset₄⟩ : ∃ t₄, t₃.setChild p i (some ⟨t₂.size⟩) = .ok t₄ := exists_setChild (by simpa using hfree)
  have hkinds₄ := sameKinds_setChild hset₄
  have hrefines₃ := Refines.of_create hcreate
  have hreslot₄ := reslotted_setChild ht₃.toLinked hset₄
    (hrefines₃.has ((hkinds₂.has_iff p).2 (hgrowth.has hhas))) (by simpa using has_create hcreate)
  have ht₄ : t₄.Coherent := hreslot₄.coherent ht₃ fun c hc ↦ by
    cases mem_singleton.1 hc
    exact habove p hhas fun m hm ↦ by
      cases mem_singleton.1 hm
      exact (ht.grounded e).not_within hp
  refine ⟨t₃, t₄, hcreate, hset₄, hgrows.turn ht (Step.of_size_lt ht₄ ((Refines.of_growth hgrowth).trans <|
    (Refines.of_sameKinds hkinds₂).trans <| hrefines₃.trans (.of_sameKinds hkinds₄)) ?_) fun ht₁ ↦ ?_⟩
  · have hlt := hpiece.size_lt
    rw [hkinds₄.size_eq, size_create hcreate, hkinds₂.size_eq]
    omega
  · refine .of_enclosed ht₁ hchild₁ ?_ hkinds₂ (slots_setChild_of_ne hset) ?_ hcreate
      (inert_expression _) hset₄
    · rwa [hgrowth.kind_eq (has_of_parent hp)]
    · have hlt := (List.getElem?_eq_some_iff.1 (child_eq_some_iff.1 hchild₁)).1
      rw [slots_setChild hset (has_of_child_eq hchild₁), Edited.putSlot_of_child hchild₁]
      unfold putSlot
      rw [if_pos (by simpa using hlt), set_set]

end Moved

/-! ## Visits -/

theorem Tree.sameKinds_replaceNode {old new : NodeId} {t t' : Tree} (h : t.replaceNode old new = .ok t') :
    SameKinds t t' := by
  obtain ⟨p, i, -, -, hset⟩ := replaceNode_eq_ok h
  exact sameKinds_setChild hset

namespace Rewrites

variable {s : Sources} {good : Prop} {t t' : Tree} {n : NodeId} {b : Bool}

/-- Nothing that was known is lost, whatever the tree is. -/
theorem refines (h : Rewrites s good t n b t') : t.Refines t' := by
  induction h with
  | idle | stuck => exact .refl t
  | learnt _ _ hkind _ _ _ ih => exact ih.trans (.of_setKind hkind)
  | emptied _ _ hset ih => exact ih.trans (.of_sameKinds (sameKinds_setChild hset))
  | replaced h _ _ _ hreplace =>
    exact (Refines.of_growth h.growth).trans (.of_sameKinds (sameKinds_replaceNode hreplace))
  | typed _ h hset => exact (Refines.of_growth h.growth).trans (.of_sameKinds (sameKinds_setChild hset))
  | rebound _ _ _ h =>
    obtain ⟨h, hcallee, hremove, hcreate, hreplace⟩ := h
    have hedit := ((Resolution.safe_bindCallee _ _ _).post_of_ok hcallee).2
    exact (Refines.of_growth h.growth).trans <| hedit.toRefines.trans <|
      (Refines.of_sameKinds (sameKinds_removeChildren hremove)).trans <|
      (Refines.of_create hcreate).trans (.of_sameKinds (sameKinds_replaceNode hreplace))
  | wrapped _ _ _ _ h hset hcreate hset' =>
    exact (Refines.of_growth h.growth).trans <| (Refines.of_sameKinds (sameKinds_setChild hset)).trans <|
      (Refines.of_create hcreate).trans (.of_sameKinds (sameKinds_setChild hset'))

theorem turn (h : Rewrites s good t n b t') (hgood : good) (ht : t.Coherent) : Turn t b t' := by
  induction h with
  | idle => exact .refl ht
  | stuck h => exact absurd hgood h
  | learnt _ hhas hkind hne _ hedit ih =>
    exact (ih.trans (.of_edited ih.coherent (.of_setKind ih.coherent hhas hkind hne) hedit)).report
      (Bool.or_true _).symm
  | emptied _ hkind hset ih =>
    have ht₁ := ih.coherent
    have hreslot := reslotted_setChild ht₁.toLinked hset (has_of_kind (by simp [hkind])) (by simp)
    refine ⟨ih.toStep.then_reslot (sameKinds_setChild hset) (hreslot.coherent_of_out ht₁), fun hf ↦ ?_⟩
    refine (Edited.of_setChild ht₁.toLinked hset ?_).faithful ht₁.toLinked (ih.faithful hf)
    rw [hkind]
    exact inert_expression _
  | replaced h _ hp hedit hreplace =>
    obtain ⟨p, hp⟩ := hp hgood
    obtain ⟨_, hreplace', hstep⟩ := exists_replaceWith ht h.growth (h.piece (mem_singleton_self _)) hp
    cases hreplace.symm.trans hreplace'
    exact h.grows.1.turn ht hstep fun _ ↦ hedit hgood
  | typed hkind h hset =>
    have hhas : t.Has n := has_of_kind (by simp [hkind])
    have hstep := step_setChild ht h.growth (h.piece (mem_singleton_self _)) hhas hset
    refine h.grows.1.turn ht hstep fun ht₁ ↦ .of_setChild ht₁ hset ?_
    rw [h.growth.kind_eq hhas, hkind]
    exact inert_expression _
  | rebound hkind _ hp h =>
    obtain ⟨h, hcallee, hremove, hcreate, hreplace⟩ := h
    obtain ⟨p, hp⟩ := hp hgood
    obtain ⟨hlinks, hedit⟩ := (Resolution.safe_bindCallee _ _ _).post_of_ok hcallee
    obtain ⟨_, _, hcreate', hreplace', hturn, -⟩ :=
      exists_rebound ht h.grows.1 (h.piece (mem_singleton_self _)) hp hkind hlinks hedit hremove _ _
    cases hcreate.symm.trans hcreate'
    cases hreplace.symm.trans hreplace'
    exact hturn
  | wrapped _ he _ hchild h hset hcreate hset' =>
    obtain ⟨_, _, hcreate', hset'', hturn⟩ := exists_wrapped ht h.grows.1 (h.piece (mem_singleton_self _)) hchild
      (inert_of_isExpression he) hset _
    cases hcreate.symm.trans hcreate'
    cases hset'.symm.trans hset''
    exact hturn

end Rewrites

section Placing

variable {s : Sources} {good : Prop} {w : Workspace} {t : Tree} {n c old : NodeId} {stream : Stream}
  {message : String}

/-- A piece takes the place of an old node. -/
theorem sure_replaced (h : Crafted s t w.tree [c]) (hold : t.Yields n old)
    (hp : good → t.Coherent ∧ ∃ p, t.parent old = some p)
    (hedit : ∀ t', good → w.tree.replaceNode old c = .ok t' → Edited w.tree t') :
    Sure good (Pass.replaceNode stream old c message) w fun _ w' ↦ Rewrites s good t n true w'.tree := by
  refine (sure_replaceNode fun hgood ↦ ?_).mono (fun _ ↦ id) fun _ w' hreplace ↦
    .replaced h hold (fun hgood ↦ (hp hgood).2) (fun hgood ↦ hedit _ hgood hreplace) hreplace
  obtain ⟨ht, p, hp⟩ := hp hgood
  obtain ⟨t', hreplace, -⟩ := exists_replaceWith ht h.growth (h.piece (mem_singleton_self _)) hp
  exact ⟨t', hreplace⟩

/-- An expression takes the place of another one. -/
theorem sure_replaced_expression {e : Expression} (h : Crafted s t w.tree [c]) (hc : w.tree.kind c = .expression e)
    (hold : old = n ∨ ∃ i, t.child n i = some old) (hexpression : (t.kind old).isExpression = true)
    (hp : good → t.Coherent ∧ ∃ p, t.parent old = some p) :
    Sure good (Pass.replaceNode stream old c message) w fun _ w' ↦ Rewrites s good t n true w'.tree := by
  refine sure_replaced h (.inl ⟨hold, hexpression⟩) hp fun t' hgood hreplace ↦ ?_
  obtain ⟨ht, p, hp⟩ := hp hgood
  refine .of_replaceNode (h.growth.linked ht.toLinked) hreplace ?_ (h.piece (mem_singleton_self _)).has ?_
  · rw [h.growth.kind_eq (has_of_parent hp)]
    exact inert_of_isExpression hexpression
  · rw [hc]
    exact inert_expression _

/-- A piece becomes the type of an expression. -/
theorem sure_typed {e : Expression} (hkind : t.kind n = .expression e) (h : Crafted s t w.tree [c]) :
    Sure good (liftM (Surgery.setChild n 0 (some c)) : Pass Unit) w fun _ w' ↦
      Rewrites s good t n true w'.tree :=
  (sure_update fun _ ↦ exists_setChild (by simpa using (h.piece (mem_singleton_self _)).free)).mono
    (fun _ ↦ id) fun _ _ hset ↦ .typed hkind h hset

end Placing

end ProtocolIR
