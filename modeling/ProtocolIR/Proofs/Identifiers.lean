import Mathlib.Data.List.Basic
import ProtocolIR.Proofs.Unification.Reading
import ProtocolIR.Tree.Link

/-!
# Identifiers

A path can be written out and read again: only the last of its segments may end with a colon, so
joining them moves no mark. The number at the end of a drawn identifier shows where its stem ends,
so no identifier is drawn twice.
-/

namespace ProtocolIR

open List

/-! ## Paths -/

section

variable {text piece : List Char} {pieces : List (List Char)}

/-- A character joins the first piece unless it begins a mark. -/
theorem cutPath_cons {c : Char} (hmark : c = ':' → text.head? ≠ some ':')
    (h : cutPath text = piece :: pieces) : cutPath (c :: text) = (c :: piece) :: pieces := by
  rw [cutPath, h]
  rintro rest rfl rfl
  exact hmark rfl rfl

/-- A text begins as its first piece does, or with a mark. -/
theorem head?_of_cutPath (h : cutPath text = piece :: pieces) :
    text.head? = piece.head? ∧ (piece = [] → pieces = []) ∨
      piece = [] ∧ text.head? = some ':' := by
  fun_induction cutPath text <;> cases h <;> simp

/-- Cutting gives the nonempty pieces of a text again when only these are joined. -/
theorem cutPath_intercalate {kept : List (List Char)}
    (hkept : (cutPath text).filter (fun piece ↦ !piece.isEmpty) = kept) (hne : kept ≠ []) :
    cutPath ([':', ':'].intercalate kept) = kept := by
  fun_induction cutPath text generalizing kept with
  | case1 => exact absurd hkept.symm hne
  | case2 rest ih => exact ih hkept hne
  | case3 c rest hmark hrest =>
    rw [← hkept]
    simp [cutPath]
  | case4 c rest hmark piece pieces hrest ih =>
    have hmark (hc : c = ':') : rest.head? ≠ some ':' := by
      intro hhead
      obtain ⟨tail, rfl⟩ := head?_eq_some_iff.1 hhead
      exact hmark tail hc rfl
    rw [hrest] at ih
    rw [← hkept, filter_cons_of_pos rfl]
    cases piece with
    | nil =>
      by_cases hpieces : pieces.filter (fun piece ↦ !piece.isEmpty) = []
      · simp [hpieces, cutPath]
      rw [intercalate_cons_of_ne_nil hpieces]
      -- The text goes on with a mark, so `c` is no colon.
      obtain ⟨-, hnil⟩ | ⟨-, hhead⟩ := head?_of_cutPath hrest
      · simp [hnil rfl] at hpieces
      · exact cutPath_cons (fun hc ↦ absurd hhead (hmark hc)) (congrArg ([] :: ·) (ih rfl hpieces))
    | cons d piece =>
      have hjoin := ih rfl (by simp)
      rw [filter_cons_of_pos rfl] at hjoin
      have hhead {text pieces} (h : cutPath text = (d :: piece) :: pieces) : text.head? = some d :=
        ((head?_of_cutPath h).resolve_right (by simp)).1
      have hstep : [':', ':'].intercalate ((c :: d :: piece) :: pieces.filter (!·.isEmpty)) =
          c :: [':', ':'].intercalate ((d :: piece) :: pieces.filter (!·.isEmpty)) := by
        cases pieces.filter (!·.isEmpty) <;> simp
      rw [hstep]
      refine cutPath_cons (fun hc ↦ ?_) hjoin
      rw [hhead hjoin, ← hhead hrest]
      exact hmark hc

end

namespace QualifiedId

theorem pathSegments_intercalate {text : String} (hne : pathSegments text ≠ []) :
    pathSegments ("::".intercalate (pathSegments text)) = pathSegments text := by
  have hcut := @cutPath_intercalate text.toList _ rfl (by simpa [pathSegments] using hne)
  simp [pathSegments, hcut]

theorem segments_of_ofSegments? {segments : List String} {id : QualifiedId}
    (h : ofSegments? segments = some id) : id.segments = segments := by
  obtain ⟨name, hname, rfl⟩ := Option.map_eq_some_iff.1 h
  exact dropLast_append_getLast? name hname

/-- A path is read from its text again; its parts are the first segment and the rest. -/
theorem ofText_text (text : String) (id : QualifiedId) (name : String) :
    ofText (ofText text).text = ofText text ∧
      id.segments = id.first :: id.rest?.elim [] segments ∧
      (id.join name).segments = id.segments ++ [name] := by
  refine ⟨?_, by obtain ⟨_ | _, _⟩ := id <;> rfl, rfl⟩
  cases h : parse? text with
  | none => simp [ofText, h, QualifiedId.text]
  | some path =>
    have hsegments : path.segments = pathSegments text := segments_of_ofSegments? h
    have hne : pathSegments text ≠ [] := by rw [← hsegments]; simp [segments]
    have hagain : parse? path.text = some path := by
      rw [← h, parse?, QualifiedId.text, hsegments, pathSegments_intercalate hne, parse?]
    simp [ofText, h, hagain]

example : ofText "a::b::c" = ⟨["a", "b"], "c"⟩ ∧ ofText "::a::::b:" = ⟨["a"], "b:"⟩ ∧
    ofText "::" = ⟨[], "::"⟩ := by
  decide +kernel

end QualifiedId

/-! ## Drawn identifiers -/

/-- How a text ends in characters of a class shows where it is put together. -/
theorem append_inj_of_getLast? {p : Char → Bool} {u u' v v' : List Char} (hv : ∀ c ∈ v, p c = true)
    (hv' : ∀ c ∈ v', p c = true) (hu : ∀ c ∈ u.getLast?, p c = false) (hu' : ∀ c ∈ u'.getLast?, p c = false)
    (h : u ++ v = u' ++ v') : u = u' ∧ v = v' := by
  have htail {u v : List Char} (hv : ∀ c ∈ v, p c = true) (hu : ∀ c ∈ u.getLast?, p c = false) :
      (u ++ v).reverse.takeWhile p = v.reverse := by
    rw [reverse_append, takeWhile_append_of_pos (by simpa using hv)]
    cases hrev : u.reverse with
    | nil => simp
    | cons c rest =>
      rw [takeWhile_cons_of_neg (by simp [hu c (by rw [← head?_reverse, hrev]; rfl)]), append_nil]
  obtain rfl : v = v' := reverse_injective ((htail hv hu).symm.trans (h ▸ htail hv' hu'))
  exact ⟨append_cancel_right h, rfl⟩

/-- A number at the end of a text is read back if no digit stands before it. -/
theorem append_toString_inj {a b : String} {k k' : Nat} (ha : ∀ c ∈ a.toList.getLast?, c.isDigit = false)
    (hb : ∀ c ∈ b.toList.getLast?, c.isDigit = false) (h : a ++ toString k = b ++ toString k') :
    a = b ∧ k = k' := by
  have htext := congrArg String.toList h
  rw [String.toList_append, String.toList_append] at htext
  obtain ⟨hhead, htail⟩ := append_inj_of_getLast? (fun _ ↦ TypeText.isDigit_of_mem_nat)
    (fun _ ↦ TypeText.isDigit_of_mem_nat) ha hb htext
  exact ⟨String.toList_inj.1 hhead, TypeText.nat_inj htail⟩

namespace Tree

variable {t : Tree} {stem stem' id : String} {k k' : Nat}

/-- The identifiers that a row of draws returns. -/
def drawIds (t : Tree) : List String → List String
  | [] => []
  | stem :: stems => (t.freshId stem).1 :: (t.freshId stem).2.drawIds stems

theorem anonymous_inj
    (h : "__anon_" ++ stem ++ "_" ++ toString k = "__anon_" ++ stem' ++ "_" ++ toString k') :
    stem = stem' ∧ k = k' := by
  have hlast (stem : String) : ∀ c ∈ ("__anon_" ++ stem ++ "_").toList.getLast?, c.isDigit = false := by
    rw [String.toList_append, getLast?_append]
    simp
  simpa using append_toString_inj (hlast stem) (hlast stem') h

/-- A draw is counted for its stem alone. -/
theorem drawnFor_freshId (t : Tree) (stem other : String) :
    (t.freshId stem).2.drawnFor other = t.drawnFor other + if other = stem then 1 else 0 := by
  simp only [freshId, drawnFor, lookup_cons]
  by_cases h : other = stem
  · simp [h]
  have hkept : (t.drawn.filter fun entry ↦ entry.1 != stem).lookup other = t.drawn.lookup other := by
    induction t.drawn <;> grind
  simp [beq_false_of_ne h, h, hkept]

theorem anonymous_of_mem_drawIds {stems : List String} (h : id ∈ t.drawIds stems) :
    ∃ stem k, t.drawnFor stem ≤ k ∧ id = "__anon_" ++ stem ++ "_" ++ toString k := by
  induction stems generalizing t with
  | nil => cases h
  | cons stem stems ih =>
    obtain rfl | h := mem_cons.1 h
    · exact ⟨stem, t.drawnFor stem, Nat.le_refl _, rfl⟩
    obtain ⟨other, k, hk, rfl⟩ := ih h
    rw [drawnFor_freshId] at hk
    exact ⟨other, k, by omega, rfl⟩

theorem nodup_drawIds (t : Tree) (stems : List String) : (t.drawIds stems).Nodup := by
  induction stems generalizing t with
  | nil => exact nodup_nil
  | cons stem stems ih =>
    refine nodup_cons.2 ⟨fun hmem ↦ ?_, ih _⟩
    obtain ⟨other, k, hk, heq⟩ := anonymous_of_mem_drawIds hmem
    obtain ⟨rfl, rfl⟩ := anonymous_inj heq
    rw [drawnFor_freshId, if_pos rfl] at hk
    omega

end Tree

end ProtocolIR
