import Mathlib.Data.Finset.Lattice.Fold
import ProtocolIR.Proofs.Learning

/-!
# Recorded texts save work only

The reference text of a type is the one it has where nothing is recorded and no nesting is too deep.
If every recorded text is the reference, then so is every text that is written with the help of
recorded ones, and unification records no other. What it has recorded it does not record again, and
it leaves everything else alone.
-/

namespace ProtocolIR

open Option

namespace Tree

variable {t t' : Tree} {n : NodeId} {x y : String}

/-! ## Levels -/

theorem bind_mono {α β : Type} {o o' : Option α} {f f' : α → Option β} {b : β}
    (ho : ∀ {a}, o = some a → o' = some a) (hf : ∀ {a b}, f a = some b → f' a = some b)
    (h : o.bind f = some b) : o'.bind f' = some b := by
  obtain ⟨a, ha, hb⟩ := bind_eq_some_iff.1 h
  exact bind_eq_some_iff.2 ⟨a, ho ha, hf hb⟩

theorem mapM_mono {α β : Type} {f f' : α → Option β} (hf : ∀ {a b}, f a = some b → f' a = some b)
    {l : List α} {bs : List β} (h : l.mapM f = some bs) : l.mapM f' = some bs := by
  induction l generalizing bs with
  | nil => exact h
  | cons a l ih =>
    rw [List.mapM_cons] at h ⊢
    exact bind_mono hf (bind_mono ih id) h

section

variable {write write' : NodeId → Option String}

variable (h : ∀ {m y}, write m = some y → write' m = some y)

include h

theorem serializeQualifiedWith_mono (hx : serializeQualifiedWith t write n = some x) :
    serializeQualifiedWith t write' n = some x := by
  unfold serializeQualifiedWith at hx ⊢
  split at hx
  · exact h hx
  · exact bind_mono id (bind_mono h id) hx

theorem serializeAround_mono {word : String} {part : Option NodeId}
    (hx : serializeAround t write word part = some x) : serializeAround t write' word part = some x :=
  bind_mono id (bind_mono (serializeQualifiedWith_mono h) id) hx

theorem serializeMember_mono (hx : serializeMember t write n = some x) :
    serializeMember t write' n = some x := by
  unfold serializeMember at hx ⊢
  split at hx
  · exact hx
  split at hx
  · exact hx
  · exact bind_mono id (bind_mono (serializeQualifiedWith_mono h) id) hx

theorem serializeCompound_mono {word : String} {typeId : Option String}
    (hx : serializeCompound t write n word typeId = some x) :
    serializeCompound t write' n word typeId = some x := by
  unfold serializeCompound at hx ⊢
  split at hx
  · exact hx
  split at hx
  · cases hx
  next hdeclared =>
    rw [if_neg hdeclared]
    exact bind_mono (mapM_mono (serializeMember_mono h)) id hx

theorem serializeSignaturePart_mono (hx : serializeSignaturePart t write n = some x) :
    serializeSignaturePart t write' n = some x := by
  unfold serializeSignaturePart at hx ⊢
  split at hx
  · exact bind_mono id (serializeQualifiedWith_mono h) hx
  · exact serializeQualifiedWith_mono h hx

/-- A type is written if its parts are, whatever else can be written. -/
theorem serializeShape_mono {data : TypeData} (hx : serializeShape t write n data = some x) :
    serializeShape t write' n data = some x := by
  obtain ⟨shape, wildcard, unification, typeId⟩ := data
  cases wildcard with
  | true => exact hx
  | false =>
    cases shape with
    | name => exact bind_mono id h hx
    | list | iterator | optional | result | strongRef | weakRef | valueRef | typeOf =>
      exact serializeAround_mono h hx
    | tuple => exact bind_mono (mapM_mono (serializeQualifiedWith_mono h)) id hx
    | enumeration | struct | union | unit => exact serializeCompound_mono h hx
    | function => exact bind_mono (mapM_mono (serializeSignaturePart_mono h)) id hx
    | _ => exact hx

end

theorem serializeWithin_succ {depth : Nat} (h : t.serializeWithin depth n = some x) :
    t.serializeWithin (depth + 1) n = some x := by
  induction depth generalizing n x with
  | zero =>
    refine bind_mono id (bind_mono id fun htext ↦ ?_) h
    rw [htext]
  | succ depth ih =>
    refine bind_mono id (bind_mono id fun {data y} hy ↦ ?_) h
    split at hy
    · exact hy
    · exact serializeShape_mono ih hy

theorem serializeWithin_of_le {depth depth' : Nat} (hle : depth ≤ depth')
    (h : t.serializeWithin depth n = some x) : t.serializeWithin depth' n = some x := by
  induction hle with
  | refl => exact h
  | step _ ih => exact serializeWithin_succ ih

theorem serializeWithin_congr {m : NodeId} (h : t.unqualified m = t.unqualified n) (depth : Nat) :
    t.serializeWithin depth m = t.serializeWithin depth n := by
  cases depth <;> simp only [serializeWithin, h]

/-! ## References -/

/-- The text that a type has where nothing is recorded, however deep it is nested. -/
def Reference (t : Tree) (n : NodeId) (x : String) : Prop :=
  ∃ depth, t.forgetTexts.serializeWithin depth n = some x

/-- Every recorded text is the reference text of its type. -/
def Truthful (t : Tree) : Prop :=
  ∀ {n data x}, t.kind n = .type data → data.unification = some x → t.Reference n x

theorem Reference.unique (hx : t.Reference n x) (hy : t.Reference n y) : x = y := by
  obtain ⟨depth, hx⟩ := hx
  obtain ⟨depth', hy⟩ := hy
  have hx := serializeWithin_of_le (Nat.le_max_left depth depth') hx
  exact Option.some.inj (hx.symm.trans (serializeWithin_of_le (Nat.le_max_right depth depth') hy))

/-- There are finitely many recorded texts, so one depth is enough to write them all anew. -/
theorem Truthful.exists_depth (h : t.Truthful) : ∃ depth, ∀ {n data x}, t.kind n = .type data →
    data.unification = some x → t.forgetTexts.serializeWithin depth n = some x := by
  have hdepth : ∀ i, ∃ depth, ∀ data x, t.kind ⟨i⟩ = .type data → data.unification = some x →
      t.forgetTexts.serializeWithin depth ⟨i⟩ = some x := by
    intro i
    by_cases hrecorded : ∃ data x, t.kind ⟨i⟩ = .type data ∧ data.unification = some x
    · obtain ⟨data, x, hkind, hx⟩ := hrecorded
      obtain ⟨depth, hdepth⟩ := h hkind hx
      refine ⟨depth, fun data' x' hkind' hx' ↦ ?_⟩
      cases hkind.symm.trans hkind'
      cases hx.symm.trans hx'
      exact hdepth
    · exact ⟨0, fun data x hkind hx ↦ absurd ⟨data, x, hkind, hx⟩ hrecorded⟩
  choose depth hdepth using hdepth
  refine ⟨(Finset.range t.size).sup depth, fun {n data x} hkind hx ↦ ?_⟩
  have hn : n.index ∈ Finset.range t.size := Finset.mem_range.2 (has_of_kind (by simp [hkind]))
  exact serializeWithin_of_le (Finset.le_sup hn) (hdepth n.index data x hkind hx)

theorem typeData?_forgetTexts (t : Tree) (n : NodeId) :
    t.forgetTexts.typeData? n = (t.typeData? n).map fun data ↦ { data with unification := none } := by
  unfold typeData?
  rw [kind_forgetTexts]
  cases t.kind n <;> rfl

/-- A recorded text in the place of a level is the text that the level would give. -/
theorem Truthful.reference (h : t.Truthful) (hx : t.serialize n = some x) : t.Reference n x := by
  obtain ⟨depth, hdepth⟩ := h.exists_depth
  have hretold := retold_forgetTexts t
  suffices hwithin : ∀ {k n x}, t.serializeWithin k n = some x →
      t.forgetTexts.serializeWithin (depth + k) n = some x from ⟨_, hwithin hx⟩
  intro k
  have hrecorded {n u data x} (hu : t.unqualified n = some u) (hdata : t.typeData? u = some data)
      (htext : data.unification = some x) : t.forgetTexts.serializeWithin depth n = some x := by
    have hkind := typeData?_eq_some_iff.1 hdata
    rw [← hdepth hkind htext]
    refine serializeWithin_congr ?_ depth
    rw [hretold.unqualified_eq, hu, unqualified_of_type hkind]
  induction k with
  | zero =>
    intro n x hx
    obtain ⟨u, hu, hx⟩ := bind_eq_some_iff.1 hx
    obtain ⟨data, hdata, hx⟩ := bind_eq_some_iff.1 hx
    exact hrecorded hu hdata hx
  | succ k ih =>
    intro n x hx
    obtain ⟨u, hu, hx⟩ := bind_eq_some_iff.1 hx
    obtain ⟨data, hdata, hx⟩ := bind_eq_some_iff.1 hx
    split at hx
    next text htext =>
      cases hx
      exact serializeWithin_of_le (Nat.le_add_right _ _) (hrecorded hu hdata htext)
    · refine bind_eq_some_iff.2 ⟨u, by rw [hretold.unqualified_eq, hu], ?_⟩
      refine bind_eq_some_iff.2 ⟨_, by rw [typeData?_forgetTexts, hdata]; rfl, ?_⟩
      rw [hretold.serializeShape_eq]
      exact serializeShape_mono ih hx

/-! ## Unification -/

/-- The later tree has the recorded texts of the earlier one, and maybe others, and differs in nothing
else. Its texts are references if the earlier ones are. -/
structure Recalls (t t' : Tree) : Prop where
  forgetTexts_eq : t'.forgetTexts = t.forgetTexts
  kept : ∀ {n data x}, t.kind n = .type data → data.unification = some x → t'.kind n = .type data
  truthful : t.Truthful → t'.Truthful

instance : IsPreorder Tree Recalls where
  refl _ := ⟨rfl, fun hkind _ ↦ hkind, id⟩
  trans _ _ _ h h' := ⟨h'.forgetTexts_eq.trans h.forgetTexts_eq, fun hkind hx ↦ h'.kept (h.kept hkind hx) hx,
    h'.truthful ∘ h.truthful⟩

theorem forgetTexts_setKind {kind : NodeKind} (h : kind.forgetText = (t.kind n).forgetText) :
    (t.setKind n kind).forgetTexts = t.forgetTexts := by
  unfold forgetTexts setKind modifyNode
  congr 1
  refine Array.ext (by simp) fun i _ hi ↦ ?_
  rw [Array.size_map] at hi
  simp only [Array.getElem_map, Array.getElem_modify]
  split
  next hn =>
    have hkind : t.kind n = t.nodes[i].kind := by
      unfold Tree.kind node
      rw [hn, Array.getElem?_eq_getElem hi, getD_some]
    rw [h, hkind]
  · rfl

theorem recalls_unifyType (t : Tree) (n : NodeId) : t.Recalls (t.unifyType n).2 := by
  obtain heq | ⟨data, text, hkind, hnone, htext, heq⟩ := unifyType_cases t n
  · rw [heq]
    exact refl_of Recalls t
  rw [heq]
  have hforget : (t.setKind n (.type { data with unification := some text })).forgetTexts = t.forgetTexts :=
    forgetTexts_setKind (by rw [hkind]; rfl)
  refine ⟨hforget, fun {m data' x} hkind' hx ↦ ?_, fun h m data' x hkind' hx ↦ ?_⟩
  · rw [kind_setKind, if_neg ?_, hkind']
    rintro ⟨rfl, -⟩
    cases hkind.symm.trans hkind'
    cases hnone.symm.trans hx
  · show ∃ depth, _
    rw [hforget]
    rw [kind_setKind] at hkind'
    split at hkind'
    next hm =>
      obtain ⟨rfl, -⟩ := hm
      cases hkind'
      cases hx
      exact h.reference htext
    · exact h hkind' hx

end Tree

namespace Unification

open Tree

/-- Recorded texts are transparent: where each is the reference text of its type, only references are
written, and unification keeps it so, keeps what is recorded and changes nothing but records. -/
theorem unify_transparent {w : Workspace} (h : w.tree.Truthful) :
    (∀ n x, w.tree.serialize n = some x → w.tree.Reference n x ∧ ∀ y, w.tree.Reference n y → y = x) ∧
    ∀ start b w', unify start w = .ok (b, w') →
      w'.tree.Truthful ∧ w'.tree.forgetTexts = w.tree.forgetTexts ∧
      (∀ n data x, w.tree.kind n = .type data → data.unification = some x → w'.tree.kind n = .type data) ∧
      ∀ n data x, w'.tree.kind n = .type data → data.unification = some x →
        w'.tree.unifyType n = (false, w'.tree) := by
  refine ⟨fun n x hx ↦ ⟨h.reference hx, fun y hy ↦ hy.unique (h.reference hx)⟩, fun start b w' hrun ↦ ?_⟩
  have hrecalls := leads_unify recalls_unifyType start w b w' hrun
  refine ⟨hrecalls.truthful h, hrecalls.forgetTexts_eq, fun _ _ _ ↦ hrecalls.kept, fun n data x hkind hx ↦ ?_⟩
  unfold unifyType
  simp only [typeData?_eq_some_iff.2 hkind, hx]

/-- A pair of an integer, whose text is recorded, and a truth value. -/
def recordedPair : Tree := .ofRows [
  (.root, []),
  (.shaped (.signed 8) "int<8>", []),
  (.value .const, [1]),
  (.shaped .bool, []),
  (.value, [3]),
  (.shaped .tuple, [2, 4])]

theorem unify_transparent_recordedPair :
    recordedPair.Truthful ∧ recordedPair.Reference ⟨5⟩ "tuple(c:int<8>,m:bool)" ∧
    ∃ b w', unify ⟨5⟩ ⟨recordedPair, #[]⟩ = .ok (b, w') ∧
      (w'.tree.typeData? ⟨5⟩).bind TypeData.unification = some "tuple(c:int<8>,m:bool)" ∧
      w'.tree.forgetTexts = recordedPair.forgetTexts := by
  have htruthful : recordedPair.Truthful := by
    have htexts : ∀ i < recordedPair.size, ∀ data ∈ (recordedPair.typeData? ⟨i⟩).toList,
      ∀ x ∈ data.unification.toList,
        recordedPair.forgetTexts.serializeWithin 1 ⟨i⟩ = some x := by
      decide +kernel
    intro n data x hkind hx
    exact ⟨1, htexts n.index (has_of_kind (by simp [hkind])) data
      (mem_toList.2 (typeData?_eq_some_iff.2 hkind)) x (mem_toList.2 hx)⟩
  have hrun : ∃ r ∈ (unify ⟨5⟩ ⟨recordedPair, #[]⟩).toOption,
      (r.2.tree.typeData? ⟨5⟩).bind TypeData.unification = some "tuple(c:int<8>,m:bool)" := by
    decide +kernel
  obtain ⟨⟨b, w'⟩, hr, htext⟩ := hrun
  obtain ⟨hreference, hunify⟩ := unify_transparent (w := ⟨recordedPair, #[]⟩) htruthful
  refine ⟨htruthful, (hreference _ _ (by decide +kernel)).1, b, w', ?_⟩
  cases hok : unify ⟨5⟩ ⟨recordedPair, #[]⟩ with
  | error _ => rw [hok] at hr; cases hr
  | ok _ => rw [hok] at hr; cases hr; exact ⟨rfl, htext, (hunify _ _ _ hok).2.1⟩

end Unification

end ProtocolIR
