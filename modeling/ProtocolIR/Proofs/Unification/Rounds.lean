import Mathlib.Logic.Relation
import ProtocolIR.Proofs.Round.Coherence
import ProtocolIR.Proofs.Scope.CanonicalIds

/-!
# Recorded texts do not go stale

From a tree without texts, the first thing that a round does is to give what is declared its type ID;
from then on the tree is faithful, and every pass keeps it so. So after any number of rounds a
recorded text is the one that the type would have if nothing were recorded, unless an enum is written
by its labels: such an enum may be recorded before it is numbered.
-/

namespace ProtocolIR

open Tree List Option

namespace Tree

/-- A coherent tree with its root node whose texts are allowed. -/
structure Trusted (t : Tree) : Prop extends Rooted t, Faithful t

/-- Where the first tree is trusted, so is the second. -/
def Trusting (t t' : Tree) : Prop := t.Trusted → t'.Trusted

instance : IsPreorder Tree Trusting where
  refl _ h := h
  trans _ _ _ h h' ht := h' (h ht)

/-- A tree as it is before the first round: no text is recorded, no type that is still to be inferred
is a wildcard, and a declaration whose compound type is not qualified is beneath the root. -/
structure Fresh (t : Tree) : Prop extends Rooted t where
  unwritten : ∀ {n data}, t.kind n = .type data → data.unification = none
  plain : t.PlainAuto
  attached : ∀ {d u data}, (t.kind d).isTypeDeclaration = true → t.child d 0 = some u →
    t.kind u = .type data → data.shape.category.isCompound = true → t.Within root d

/-- What a fresh tree asks of one node. -/
def FreshAt (t : Tree) (n : NodeId) : Prop :=
  (∀ data ∈ (t.typeData? n).toList,
      data.unification = none ∧ (data.shape = .auto → data.wildcard = false)) ∧
    ((t.kind n).isTypeDeclaration = true → ∀ u ∈ (t.child n 0).toList, ∀ data ∈ (t.typeData? u).toList,
      data.shape.category.isCompound = true → t.isAttached n = true)

/-- A declaration whose compound type is not qualified and lacks its type ID. -/
def Unstamped (t : Tree) (d : NodeId) : Prop :=
  (t.kind d).isTypeDeclaration = true ∧ ∃ u data, t.child d 0 = some u ∧ t.kind u = .type data ∧
    data.shape.category.isCompound = true ∧ data.typeId = none

variable {t t' : Tree} {d : NodeId}

instance : Decidable (t.FreshAt d) := inferInstanceAs (Decidable (_ ∧ _))

theorem fresh_iff : t.Fresh ↔ t.Rooted ∧ ∀ i < t.size, t.FreshAt ⟨i⟩ := by
  constructor
  · refine fun h ↦ ⟨h.toRooted, fun i _ ↦ ⟨fun data hdata ↦ ?_, fun hd u hu data hdata hcompound ↦ ?_⟩⟩
    · have hkind := typeData?_eq_some_iff.1 (mem_toList.1 hdata)
      exact ⟨h.unwritten hkind, h.plain _ data hkind⟩
    · exact h.isWithin_iff.2 (h.attached hd (mem_toList.1 hu)
        (typeData?_eq_some_iff.1 (mem_toList.1 hdata)) hcompound)
  · rintro ⟨hrooted, h⟩
    have htype {n : NodeId} {data : TypeData} (hkind : t.kind n = .type data) :
        data.unification = none ∧ (data.shape = .auto → data.wildcard = false) :=
      (h n.index (has_of_kind (by simp [hkind]))).1 data
        (mem_toList.2 (typeData?_eq_some_iff.2 hkind))
    refine ⟨hrooted, fun hkind ↦ (htype hkind).1, fun n data hkind ↦ (htype hkind).2, ?_⟩
    intro d u data hd hu hkind hcompound
    exact hrooted.isWithin_iff.1 ((h d.index (has_of_child_eq hu)).2 hd u (mem_toList.2 hu) data
      (mem_toList.2 (typeData?_eq_some_iff.2 hkind)) hcompound)

instance : Decidable t.Fresh := decidable_of_iff _ fresh_iff.symm

/-- No edit takes a type ID away. -/
theorem Edited.unstamped (h : Edited t t') (hd : t'.Unstamped d) : t.Unstamped d := by
  obtain ⟨hdecl, u, data', hu, hkind', hcompound, hnone⟩ := hd
  have hhas : t.Has u := by
    by_contra hnot
    exact (h.fresh hnot hkind').2.2 d hdecl hu
  obtain ⟨data, hkind, hdata⟩ := h.exists_type hhas hkind'
  have hu₀ := h.bare hdecl hu (isType_iff.2 (.inl ⟨data, hkind⟩))
  rw [(h.kind (has_of_child_eq hu₀)).isTypeDeclaration_eq] at hdecl
  rw [hdata.shape.category_eq] at hcompound
  refine ⟨hdecl, u, data, hu₀, hkind, hcompound, ?_⟩
  cases hid : data.typeId with
  | none => rfl
  | some id => cases hnone.symm.trans (hdata.typeId id hid)

/-- A tree that is trusted but for types without IDs of declarations beneath the root. -/
structure Pending (t : Tree) : Prop extends Rooted t where
  written : ∀ {n data x}, t.kind n = .type data → data.unification = some x → t.Written n x
  plain : t.PlainAuto
  within : ∀ {d}, t.Unstamped d → t.Within root d

theorem Contains.typeData?_eq {n u : NodeId} {data : TypeData} (h : t.Contains n u data) :
    t.typeData? u = some data := by
  induction h with
  | itself _ hdata => exact hdata
  | name _ _ _ _ _ _ ih | part _ _ _ _ _ _ ih => exact ih

/-- A tree without enums holds none that is written by its labels. -/
theorem Contains.not_isAnonymousEnum {n u : NodeId} {data : TypeData} (h : t.Contains n u data)
    (ht : ∀ i < t.size, t.shape? ⟨i⟩ ≠ some .enumeration) : ¬data.IsAnonymousEnum := by
  rintro ⟨-, hshape⟩
  have hdata := h.typeData?_eq
  refine ht u.index (has_of_kind (by simp [typeData?_eq_some_iff.1 hdata])) ?_
  rw [shape?, hdata, map_some, hshape]

theorem Trusted.pending (h : t.Trusted) : t.Pending :=
  ⟨h.toRooted, h.written, h.plain, fun ⟨hd, _, _, hu, hkind, hcompound, hnone⟩ ↦
    absurd hnone (h.stamped hd hu hkind hcompound)⟩

theorem Fresh.pending (h : t.Fresh) : t.Pending where
  toRooted := h.toRooted
  written hkind hx := by cases (h.unwritten hkind).symm.trans hx
  plain := h.plain
  within := fun ⟨hd, _, _, hu, hkind, hcompound, _⟩ ↦ h.attached hd hu hkind hcompound

theorem SameNodes.fresh (h : SameNodes t t') (ht : t.Fresh) : t'.Fresh where
  toRooted := h.rooted ht.toRooted
  unwritten {n data} hn := ht.unwritten (by rwa [← h.kind_eq])
  plain n data hn := ht.plain n data (by rwa [← h.kind_eq])
  attached {d u data} hd hu hkind hcompound := by
    rw [h.kind_eq] at hd hkind
    rw [child_congr (h.sameLinks.slots d)] at hu
    have hback : SameLinks t' t := ⟨fun n ↦ (h.sameLinks.slots n).symm, fun n ↦ (h.sameLinks.parent n).symm⟩
    exact hback.within (ht.attached hd hu hkind hcompound)

theorem SameNodes.trusted (h : SameNodes t t') (ht : t.Trusted) : t'.Trusted :=
  ⟨h.rooted ht.toRooted, (Edited.of_sameNodes h).faithful ht.toLinked ht.toFaithful⟩

end Tree

/-! ## Type IDs -/

namespace CanonicalId

variable {w : Workspace}

/-- A canonical ID is not written, and only what is declared gets a type ID. -/
theorem Identifies.edited {t t' : Tree} {b : Bool} (h : Identifies t b t') : Edited t t' := by
  cases h with
  | none => exact refl_of Edited t
  | declaration hkind hnone =>
    refine .of_setKind (.of_setKind ?_ ?_ ?_) ?_
    · rw [hkind]
      exact .declaration ⟨rfl, rfl, hnone ▸ .of_none _, .same _⟩
    · intro data _ hdata
      cases hkind.symm.trans hdata
    · intro p d' value isImplicit owner _ _ _ hd' hlabel
      cases hkind.symm.trans hd'
      exact ⟨_, owner, rfl, rfl, hlabel⟩
    · intro data _ hdata
      cases hkind.symm.trans hdata
  | @type n u data id hdeclared hkind hnone =>
    refine .of_setKind (.of_setKind ?_ ?_ ?_) ?_
    · rw [hkind]
      exact .type ⟨.same _, rfl, .refl _, hnone ▸ .of_none _⟩
    · intro _ _ _ _ hnot
      exact absurd ⟨n, hdeclared⟩ hnot
    · intro p d value isImplicit owner _ _ _ hd
      cases hkind.symm.trans hd
    · intro data₁ data' hdata₁ heq
      cases hkind.symm.trans hdata₁
      cases heq
      rfl

/-- The types that lack their IDs are those of declarations that are visited. -/
theorem ensures_assign (h : w.tree.Pending) : Ensures (assign root) w fun _ w' ↦ w'.tree.Trusted := by
  intro b w' hrun
  have hedit := leads_assign Identifies.edited root w b w' hrun
  have hstep := (isStep_assign w h.toRooted).post_of_ok hrun
  have hidentified := ((ends_assign h.toCoherent).1 b w' hrun).2
  refine ⟨hstep.rooted h.toRooted, fun {m data' x} hkind' hx ↦ ?_, fun hd hu hkind hcompound hnone ↦ ?_, ?_⟩
  · by_cases hm : w.tree.Has m
    · obtain ⟨data, hkind, -⟩ := hedit.exists_type hm hkind'
      rw [hedit.text hkind hkind'] at hx
      exact hedit.written h.toLinked h.plain (h.written hkind hx)
    · cases (hedit.fresh hm hkind').1.symm.trans hx
  · have hunstamped : w'.tree.Unstamped _ := ⟨hd, _, _, hu, hkind, hcompound, hnone⟩
    have hstamp := typeToStamp_eq_some_iff.2
      ⟨declaredType_eq_some_iff.2 ⟨hd, _, hu, unqualified_of_type hkind⟩, _, hkind, hcompound, hnone⟩
    cases (hidentified _ (h.within (hedit.unstamped hunstamped))).2.symm.trans hstamp
  · exact hedit.plainAuto h.plain fun hm hkind' ↦ (hedit.fresh hm hkind').2.1

end CanonicalId

/-! ## Rounds -/

theorem IsTurn.trusting {m : Pass Bool} (h : IsTurn m) (w : Workspace) : Leads Trusting m w := by
  intro b w' hrun ht
  have hturn := (h w ht.toRooted).post_of_ok hrun
  exact ⟨hturn.rooted ht.toRooted, hturn.faithful ht.toFaithful⟩

namespace Round

variable {session : Session} {w : Workspace}

/-- The part of one front end in a round. -/
theorem ensures_step (hplain : PlainLiterals session.conversions) {f : FrontEnd}
    (hscopes : ∀ t, SameNodes t (f.buildScopes t root))
    (hresolve : ∀ w, Leads Trusting (f.resolve session root) w) (ht : w.tree.Fresh ∨ w.tree.Trusted) :
    Ensures (step session root f) w fun _ w' ↦ w'.tree.Trusted := by
  refine Ensures.bind (q := fun _ w' ↦ w'.tree = w.tree) (ensures_debug fun _ ↦ rfl) ?_
  intro _ w₁ hw₁
  refine Ensures.bind (q := fun _ w₂ ↦ w₂.tree.Pending) (ensures_modifyTree ?_) fun _ w₂ hw₂ ↦ ?_
  · rw [hw₁]
    obtain ht | ht := ht
    · exact ((hscopes w.tree).fresh ht).pending
    · exact ((hscopes w.tree).trusted ht).pending
  refine (CanonicalId.ensures_assign hw₂).bind fun _ w₃ ht₃ ↦ ?_
  refine Ensures.bind (q := fun _ w₄ ↦ w₄.tree.Trusted) ((hresolve w₃).mono fun _ _ h ↦ h ht₃) ?_
  intro _ w₄ ht₄
  refine Ensures.bind (q := fun _ w₅ ↦ w₅.tree.Trusted)
    ((Unification.isTurn_unify.trusting w₄).mono fun _ _ h ↦ h ht₄) fun _ w₅ ht₅ ↦ ?_
  exact Ensures.bind (q := fun _ w₆ ↦ w₆.tree.Trusted)
    (((Coercion.isTurn_sweep hplain).trusting w₅).mono fun _ _ h ↦ h ht₅) fun _ _ ht₆ ↦ ensures_pure ht₆

end Round

namespace Compiler

variable (options : Options) {w w' : Workspace} {f : FrontEnd}

theorem trusting_resolve (hf : f ∈ [FrontEnd.units, FrontEnd.base]) (w : Workspace) :
    Leads Trusting (f.resolve (standard options).session root) w := by
  obtain rfl | rfl := eq_of_mem_frontEnds hf
  · exact (Units.Resolution.isTurn_resolve (plainLiterals_standard options)).trusting w
  · exact ((Resolution.isTurn_resolve _).trusting w).bind fun _ w ↦
      (Enumeration.isTurn_normalize.trusting w).bind fun _ _ ↦ leads_pure _

/-- After a round the tree is trusted, if it was before or was fresh. -/
theorem trusted_of_round {b : Bool} (ht : w.tree.Fresh ∨ w.tree.Trusted)
    (h : round options w = .ok (b, w')) : w'.tree.Trusted := by
  suffices hround : Ensures (round options) w fun _ w' ↦ w'.tree.Trusted from hround b w' h
  have hclear := sameNodes_clearScopes w.tree
  refine Ensures.bind (q := fun _ w₁ ↦ w₁.tree.Fresh ∨ w₁.tree.Trusted)
    (ensures_modifyTree (ht.imp hclear.fresh hclear.trusted)) fun _ w₁ ht₁ ↦ ?_
  have hstep {f : FrontEnd} (hf : f ∈ [FrontEnd.units, FrontEnd.base]) (changed : Bool) {w : Workspace}
      (ht : w.tree.Fresh ∨ w.tree.Trusted) :
      Ensures (do return (← Round.step (standard options).session root f) || changed) w
        fun _ w' ↦ w'.tree.Trusted :=
    (Round.ensures_step (plainLiterals_standard options) (fun t ↦ sameNodes_frontEnd hf t root)
      (trusting_resolve options hf) ht).bind fun _ _ hw' ↦ ensures_pure hw'
  rw [frontEnds_standard, foldlM_cons]
  refine (hstep mem_cons_self false ht₁).bind fun changed w₂ ht₂ ↦ ?_
  refine ensures_foldlM (p := fun _ (w : Workspace) ↦ w.tree.Trusted) (fun changed w f hf ht ↦ ?_) ht₂
  exact hstep (mem_cons_of_mem _ hf) changed (.inr ht)

/-- One workspace comes from another by a round of the standard compiler. -/
def Rounds (w w' : Workspace) : Prop := ∃ b, round options w = .ok (b, w')

theorem rounds_of_mem {r : Bool × Workspace} (h : r ∈ (round options w).toOption) :
    Rounds options w r.2 := by
  cases hround : round options w with
  | error _ => rw [hround] at h; cases h
  | ok _ => rw [hround] at h; cases h; exact ⟨r.1, hround⟩

theorem trusted_of_rounds (ht : w.tree.Fresh) (h : Relation.TransGen (Rounds options) w w') :
    w'.tree.Trusted := by
  induction h with
  | single h =>
    obtain ⟨b, h⟩ := h
    exact trusted_of_round options (.inl ht) h
  | tail _ h ih =>
    obtain ⟨b, h⟩ := h
    exact trusted_of_round options (.inr ih) h

/-- After any number of rounds from a fresh tree, a text that is recorded for a type is the one that
the type has when nothing is recorded, if it has one then and holds no enum that is written by its
labels. -/
theorem serialize_forgetTexts_of_rounds {w w' : Workspace} (ht : w.tree.Fresh)
    (h : Relation.ReflTransGen (Rounds options) w w') {n : NodeId} {data : TypeData} {x y : String}
    (hkind : w'.tree.kind n = .type data) (hx : data.unification = some x)
    (hclear : ∀ u data', w'.tree.forgetTexts.Contains n u data' → ¬data'.IsAnonymousEnum)
    (hy : w'.tree.forgetTexts.serialize n = some y) : y = x := by
  obtain rfl | hrounds := Relation.reflTransGen_iff_eq_or_transGen.1 h
  · cases (ht.unwritten hkind).symm.trans hx
  · exact ((trusted_of_rounds options ht hrounds).eq_of_serialize_forgetTexts hkind hx hclear hy).symm

/-- A module with a struct and a variable for a pair of it and a truth value. -/
def pairVariable : Tree := .ofRows [
  (.root, [13]),
  (.shaped (.signed 8), []),
  (.value, [1]),
  (.declares "a" .field .external, [2, 0]),
  (.shaped .struct, [3]),
  (.value .const, [4]),
  (.declares "T" .type .external, [5]),
  (.shaped (.name (.ofText "T") none), []),
  (.value, [7]),
  (.shaped .bool, []),
  (.shaped .tuple, [8, 9]),
  (.place, [10]),
  (.declares "x" .globalVariable .external, [11, 0]),
  (.declares "m" .module .external, [6, 12])]

/-- The text of the pair is recorded in the first round and is the right one after the second. -/
theorem serialize_forgetTexts_of_rounds_pair :
    pairVariable.Fresh ∧ ∃ (w w' : Workspace) (data : TypeData),
      Rounds {} ⟨pairVariable, #[]⟩ w ∧ Rounds {} w w' ∧
      w'.tree.kind ⟨10⟩ = .type data ∧ data.unification = some "tuple(m:struct\x7bname:m::T\x7d,bool)" ∧
      ∃ y, w'.tree.forgetTexts.serialize ⟨10⟩ = some y ∧ y = "tuple(m:struct\x7bname:m::T\x7d,bool)" := by
  have hfresh : pairVariable.Fresh := by decide +kernel
  have hrun : ∃ r ∈ (round {} ⟨pairVariable, #[]⟩).toOption, ∃ r' ∈ (round {} r.2).toOption,
      (r'.2.tree.typeData? ⟨10⟩).bind TypeData.unification =
          some "tuple(m:struct\x7bname:m::T\x7d,bool)" ∧
        (r'.2.tree.forgetTexts.serialize ⟨10⟩).isSome = true ∧
        ∀ i < r'.2.tree.forgetTexts.size, r'.2.tree.forgetTexts.shape? ⟨i⟩ ≠ some .enumeration := by
    decide +kernel
  obtain ⟨⟨b, w⟩, hround, ⟨b', w'⟩, hround', htext, hsome, hshapes⟩ := hrun
  obtain ⟨data, hdata, hx⟩ := bind_eq_some_iff.1 htext
  obtain ⟨y, hy⟩ := isSome_iff_exists.1 hsome
  have hw : Rounds {} ⟨pairVariable, #[]⟩ w := rounds_of_mem {} hround
  have hw' : Rounds {} w w' := rounds_of_mem {} hround'
  have hkind := typeData?_eq_some_iff.1 hdata
  exact ⟨hfresh, w, w', data, hw, hw', hkind, hx, y, hy,
    serialize_forgetTexts_of_rounds {} hfresh (.tail (.single hw) hw') hkind hx
      (fun _ _ h ↦ h.not_isAnonymousEnum hshapes) hy⟩

/-- A variable for an enum whose labels have no values yet, and one for a struct with a member whose
type is to be inferred, though it is a wildcard. -/
def unsettled : Tree := .ofRows [
  (.root, [16]),
  (.declares "A" (.label none false none) .external, []),
  (.declares "B" (.label none false none) .external, []),
  (.shaped .enumeration, [1, 2]),
  (.place, [3]),
  (.declares "x" .globalVariable .external, [4, 0]),
  (.type { shape := .auto, wildcard := true }, []),
  (.place, [6]),
  (.shaped .bool, []),
  (.value .const, [8]),
  (.literal (.bool true), [9]),
  (.expression .literal, [10]),
  (.declares "a" .localVariable, [7, 11]),
  (.shaped .struct, [12]),
  (.place, [13]),
  (.declares "y" .globalVariable .external, [14, 0]),
  (.declares "m" .module .external, [5, 15])]

/-- Both texts are recorded before the labels are numbered and the type is inferred, and are out of
date after the round. -/
theorem stale_texts_of_round : unsettled.Rooted ∧ ∃ w : Workspace, Rounds {} ⟨unsettled, #[]⟩ w ∧
    (w.tree.typeData? ⟨3⟩).bind TypeData.unification = some "enum\x7bA=-1,B=-1\x7d" ∧
    w.tree.forgetTexts.serialize ⟨3⟩ = some "enum\x7bA=0,B=1,Undef=-1\x7d" ∧
    (w.tree.typeData? ⟨13⟩).bind TypeData.unification = some "struct\x7ba:m:auto<*>\x7d" ∧
    w.tree.forgetTexts.serialize ⟨13⟩ = some "struct\x7ba:m:bool\x7d" := by
  have hrun : ∃ r ∈ (round {} ⟨unsettled, #[]⟩).toOption,
      (r.2.tree.typeData? ⟨3⟩).bind TypeData.unification = some "enum\x7bA=-1,B=-1\x7d" ∧
      r.2.tree.forgetTexts.serialize ⟨3⟩ = some "enum\x7bA=0,B=1,Undef=-1\x7d" ∧
      (r.2.tree.typeData? ⟨13⟩).bind TypeData.unification = some "struct\x7ba:m:auto<*>\x7d" ∧
      r.2.tree.forgetTexts.serialize ⟨13⟩ = some "struct\x7ba:m:bool\x7d" := by
    decide +kernel
  obtain ⟨⟨b, w⟩, hround, htexts⟩ := hrun
  exact ⟨by decide +kernel, w, rounds_of_mem {} hround, htexts⟩

end Compiler

end ProtocolIR
