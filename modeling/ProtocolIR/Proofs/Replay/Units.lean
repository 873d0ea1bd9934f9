import ProtocolIR.FrontEnd.Units
import ProtocolIR.Proofs.Replay.Coercion

/-!
# Quiet resolution inside units is replayed

The unit around a node and the field around it are the same in every padding, so a keyword that
has no type in one has none in another. The conversion of units reads only the two types.
-/

namespace ProtocolIR.Units

open Tree Coercion

variable {b s s' : Tree} {n x y : NodeId}

/-- A unit is converted alike in every padding. -/
theorem convertType_eq (h : Inset b s) (hx : b.Has x) (hy : b.Has y) (style : Style) :
    convertType s x y style = convertType b x y style := by
  unfold convertType
  rw [h.follow_eq hx, h.follow_eq hy]
  apply Option.bind_congr
  intro _ _
  apply Option.bind_congr
  intro u hu
  have hu := h.base.has_of_follow hu
  rw [h.shape?_eq hu]
  apply Option.bind_congr
  intro _ _
  apply Option.bind_congr
  intro v hv
  have hv := h.base.has_of_follow hv
  rw [h.shape?_eq hv, h.elementType_eq hv]
  apply Option.bind_congr
  intro _ _
  apply Option.bind_congr
  intro e he
  rw [h.follow_eq (h.base.has_of_elementType he)]
  apply Option.bind_congr
  intro target htarget
  rw [h.typesEqual_eq hu (h.base.has_of_follow htarget)]

namespace Resolution

theorem isInLoopCondition_eq (h : Inset b s) (hn : b.Has n) :
    isInLoopCondition s n = isInLoopCondition b n := by
  unfold isInLoopCondition
  rw [h.ancestors_eq hn]
  apply any_congr_of_mem
  intro a ha
  have ha := h.rooted.has_of_mem_ancestors ha
  unfold tag?
  rw [h.kind_eq ha]

theorem currentType_eq (h : Inset b s) (hn : b.Has n) : currentType s n = currentType b n := by
  unfold currentType
  rw [h.findAncestor_eq hn, isInLoopCondition_eq h hn]
  apply Option.bind_congr
  intro field hfield
  have hfield : b.Has field := h.rooted.has_of_mem_ancestors (List.mem_of_find?_eq_some hfield)
  rw [h.child_eq hfield]
  apply Option.bind_congr
  intro type htype
  have htype := h.base.has_of_child htype
  rw [h.isResolved_eq htype, h.followedShape_eq htype, h.elementType_eq htype]

theorem has_of_currentType {t : Tree} (ht : t.Linked) {type : NodeId}
    (h : currentType t n = some type) : t.Has type := by
  obtain ⟨field, -, h⟩ := Option.bind_eq_some_iff.1 h
  obtain ⟨declared, hdeclared, h⟩ := Option.bind_eq_some_iff.1 h
  obtain ⟨-, -, h⟩ := Option.bind_eq_some_iff.1 h
  split at h
  · exact ht.has_of_elementType h
  · cases h; exact ht.has_of_child hdeclared

theorem enclosingUnit_eq (h : Inset b s) (hn : b.Has n) : enclosingUnit s n = enclosingUnit b n := by
  unfold enclosingUnit
  rw [h.ancestors_eq hn]
  apply find?_congr_of_mem
  intro a ha
  rw [h.shape?_eq (h.rooted.has_of_mem_ancestors ha)]

theorem keywordType_eq (h : Inset b s) (hn : b.Has n) (word : Keyword) :
    keywordType s n word = keywordType b n word := by
  cases word with
  | self =>
    unfold keywordType
    rw [enclosingUnit_eq h hn]
  | current =>
    unfold keywordType
    rw [currentType_eq h hn]
    refine Option.map_congr fun type htype ↦ ?_
    rw [h.unqualified_eq (has_of_currentType h.base htype)]

theorem staysPut_resolveKeyword (h : Twin b s s') (hn : b.Has n) (word : Keyword) :
    StaysPut (resolveKeyword n word) (resolveKeyword n word) s s' := by
  refine replays_tree_bind ?_
  rw [h.left.child_eq hn, h.right.child_eq hn, keywordType_eq h.left hn, keywordType_eq h.right hn]
  split
  · exact Loud.replays (loud_bind fun _ ↦ reports_true)
  · exact staysPut_false

variable {session : Session} (hbase : b.Linked) (htame : Tame session.conversions)

include hbase htame in
theorem mirrored_resolveNode (n : NodeId) : Sweep.Mirrored b (b.Has n) (resolveNode session n) := by
  refine Sweep.mirrored_tree (fun hn h ↦ by rw [h.kind_eq hn]) fun u ↦ ?_
  split
  next word _ =>
    refine ⟨Sweep.lasting_report _, ?_⟩
    rintro ⟨hn, -⟩ s s' state state' halike
    exact Sweep.mirrors_report (staysPut_resolveKeyword halike.later.toTwin hn word) halike
  · exact (Sweep.mirrored_condition .unitResolver htame n 2).mono And.left
  · rw [Sweep.declaredValue_eq]
    refine (Sweep.mirrored_value .unitResolver hbase htame n _ _ _).mono fun ⟨hn, _⟩ ↦ ⟨hn, ?_⟩
    rintro _ ⟨⟩
    exact hn
  · exact Sweep.mirrored_return

include htame in
theorem stays_resolve (h : Later b s s') : StaysQuiet b (resolve session root) (resolve session root) s s' :=
  stays_walk (fun n ↦ mirrored_resolveNode h.base htame n) h

end Resolution

end ProtocolIR.Units
