import ProtocolIR.Proofs.Coercion.Application
import ProtocolIR.Proofs.Coercion.Fitting
import ProtocolIR.Proofs.Operator.Elements

/-!
# Integer literals made anew

A literal that is accepted for an integer type is made anew with that type, in as many optionals as
are around it. The casts between words that this takes lose nothing, because a value that does not
fit is not accepted.

Inside of optionals a literal whose type is already the wanted one is copied. It then keeps the width
and the signedness that it is stored with, and they are those of its type only if it is a literal of
its own type.
-/

namespace ProtocolIR

open Tree Option List Bool

namespace Tree

/-- `k` optionals around an integer type. -/
inductive Nests (t : Tree) : Nat → NodeId → TypeData → Prop where
  | integer {n u : NodeId} {data : TypeData} {width : Nat} : t.Stands n u data →
    data.shape.width? = some width → Nests t 0 n data
  | optional {k : Nat} {n u m : NodeId} {outer data : TypeData} : t.Stands n u outer →
    outer.shape = .optional → t.child u 0 = some m → Nests t k m data → Nests t (k + 1) n data

/-- Literals that are new in `t'`: `k` optionals around an integer of a type. -/
inductive Wraps (t t' : Tree) (z : Int) (shape : TypeShape) : Nat → NodeId → Prop where
  | integer {n : NodeId} {l : Literal} : ¬t.Has n → t'.kind n = .literal l → l.integer? = some z →
    l.shape? = some shape → Wraps t t' z shape 0 n
  | optional {k : Nat} {n e m : NodeId} : ¬t.Has n → t'.kind n = .literal .optional →
    t'.child n 1 = some e → ¬t.Has e → t'.kind e = .expression .literal → t'.child e 0 = some m →
    Wraps t t' z shape k m → Wraps t t' z shape (k + 1) n

section

variable {t t₁ t₂ : Tree} {n x y s : NodeId} {z : Int} {shape : TypeShape} {k width fuel : Nat}
  {source data : TypeData}

/-- Nothing but an integer type equals an integer type. -/
theorem Nests.eq_of_typesEqual (h : t.Nests k y data) (hwritten : t.AllWritten)
    (hstands : t.Stands x s source) (hsource : source.wildcard = false)
    (hwidth : source.shape.width? = some width) (hdata : data.wildcard = false)
    (hequal : t.typesEqual x y = true) : k = 0 ∧ data.shape = source.shape := by
  cases h with
  | integer hd hwidth' =>
    exact ⟨rfl, shape_eq_of_typesEqual hwritten hstands hsource hwidth hd (.inl (by simp [hwidth']))
      (fun _ ↦ hdata) hequal⟩
  | optional hd htarget =>
    have heq := shape_eq_of_typesEqual hwritten hstands hsource hwidth hd (.inr htarget)
      (fun hne ↦ absurd htarget hne) hequal
    rw [← heq, htarget] at hwidth
    cases hwidth

/-- Edits elsewhere are of no account. -/
theorem Wraps.keep (h : Wraps t t₁ z shape k n)
    (hkeep : ∀ {m}, ¬t.Has m → t₁.Has m → t₂.kind m = t₁.kind m ∧ t₂.slots m = t₁.slots m) :
    Wraps t t₂ z shape k n := by
  induction h with
  | integer hnew hkind hz hshape =>
    have hhas : t₁.Has _ := has_of_kind (by rw [hkind]; simp)
    exact .integer hnew ((hkeep hnew hhas).1.trans hkind) hz hshape
  | optional hnew hkind hchild hnew' hkind' hchild' _ ih =>
    have hsame := hkeep hnew (has_of_kind (by rw [hkind]; simp))
    have hsame' := hkeep hnew' (has_of_kind (by rw [hkind']; simp))
    exact .optional hnew (hsame.1.trans hkind) ((child_congr hsame.2 _).trans hchild) hnew'
      (hsame'.1.trans hkind') ((child_congr hsame'.2 _).trans hchild') ih

theorem exists_shortWithin_of_integer {l : Literal} (hkind : t.kind n = .literal l)
    (hz : l.integer? = some z) (hfuel : 0 < fuel) : ∃ text, t.shortWithin fuel n = .ok text := by
  obtain ⟨fuel, rfl⟩ := Nat.exists_eq_add_of_lt hfuel
  unfold shortWithin writeNode
  rw [hkind]
  cases l with
  | signed | unsigned => exact ⟨_, rfl⟩
  | _ => cases hz

theorem Wraps.exists_shortWithin (h : Wraps t t₁ z shape k n) (hfuel : 2 * k < fuel) :
    ∃ text, t₁.shortWithin fuel n = .ok text := by
  induction h generalizing fuel with
  | integer _ hkind hz => exact exists_shortWithin_of_integer hkind hz hfuel
  | @optional k n e m _ hkind hchild _ hkind' hchild' _ ih =>
    obtain ⟨fuel, rfl⟩ := Nat.exists_eq_add_of_le' (by omega : 2 ≤ fuel)
    obtain ⟨text, htext⟩ := ih (by omega : 2 * k < fuel)
    refine ⟨"optional(" ++ text ++ ")", ?_⟩
    unfold shortWithin writeNode
    rw [hkind]
    unfold writeLiteral
    simp only [hchild, shortWithin_of_literal hkind' hchild', htext]
    rfl

end

/-- The ID of the first label of an enum whose value is an integer. For other integers it is that of
the label for undefined values. -/
def labelOf (t : Tree) (n : NodeId) (z : Int) : String :=
  (((t.labels n).find? fun l ↦ (t.labelValue l).map Int64.toInt == some z).bind fun l ↦
    (t.declaration? l).map Declaration.id).getD undefLabel

end Tree

namespace Coercion

variable {t t₁ : Tree} {style : Style} {z : Int} {k width fuel : Nat} {l src dst s u inner d : NodeId}
  {literal : Literal} {target : TypeShape} {source data : TypeData} {constness : Constness}
  {conversions : List Conversions} {w : Workspace} {stream : Stream} {p e : NodeId} {i : Nat}

/-! ## Values -/

theorem exists_width_of_shape? (h : literal.shape? = some target) :
    ∃ width, target.width? = some width := by
  cases literal with
  | signed _ width | unsigned _ width => cases h; exact ⟨width, rfl⟩
  | _ => cases h

/-! ## Nodes -/

theorem returns_targetType (ht : t.Coherent) (hu : t.unqualified dst = some u) :
    Returns (targetType dst constness) t fun c t' ↦ Growth t t' ∧ Piece t t' c := by
  have hreturns : Returns (targetType dst constness) t fun _ _ ↦ True := by
    refine Returns.get_bind.2 ?_
    rw [hu]
    refine ((returns_typeReference ht (ht.has_of_unqualified hu)).and_safe
      (growing_typeReference u t)).bind fun inner t₁ ⟨_, _, hpiece⟩ ↦ Returns.get_bind.2 ?_
    exact (returns_create _ _ (by simp [hpiece.free])).mono fun _ _ _ ↦ trivial
  exact (hreturns.and_safe (crafts_targetType (s := .any) trivial constness)).mono fun _ _ ⟨_, h⟩ ↦
    ⟨h.growth, h.piece (List.mem_singleton_self _)⟩

/-- A literal outside of optionals is made anew with the wanted type. -/
theorem returns_retypeWithin_of_plain (ht : t.Coherent) (hl : t.literal? l = some literal)
    (hfollow : t.follow dst = some d) (hshape : t.shape? d = some target)
    (hneeds : needsOptional literal target = false) :
    Returns (retypeWithin (fuel + 1) l dst) t fun n t' ↦
      Piece t t' n ∧ t'.kind n = .literal (retypedLiteral t literal (some d) target) := by
  obtain ⟨u, _, hu, -⟩ := unqualified_of_follow hfollow
  unfold retypeWithin
  refine Returns.get_bind.2 ?_
  simp only [hl, hfollow, bind_some, hshape, getD_some, hneeds, false_eq_true, if_false]
  refine (returns_targetType ht hu).bind fun type t₁ ⟨hg, hpiece⟩ ↦ ?_
  exact (returns_create _ _ (by simp [hpiece.free])).mono fun _ _ hcreate ↦
    ⟨piece_create hg (.single hpiece) hcreate, kind_create_self hcreate⟩

/-- An optional goes around what has been made. -/
theorem returns_optionalAround (location : Option Location) (ht : t.Coherent)
    (hu : t.unqualified dst = some u) (hg : Growth t t₁) (hpiece : Piece t t₁ inner)
    (hsize : t.size + 2 * k < t₁.size) (hwraps : Wraps t t₁ z target k inner) :
    Returns (do
      let value ← Surgery.create (.expression .literal) [some inner] location
      let type ← targetType dst .const
      Surgery.create (.literal .optional) [some type, some value] location) t₁
      fun n t' ↦ t.size + 2 * (k + 1) < t'.size ∧ Wraps t t' z target (k + 1) n := by
  refine (returns_create _ _ (by simp [hpiece.free])).bind fun value t₂ hvalue ↦ ?_
  have hg₂ := hg.create (.single hpiece) hvalue
  have hpiece₂ := piece_create hg (.single hpiece) hvalue
  have hdst := has_of_unqualified_eq hu
  rw [← unqualified_congr (hg₂.kind_eq hdst) (hg₂.slots_eq hdst)] at hu
  refine (returns_targetType (hg₂.coherent ht) hu).bind fun type t₃ ⟨hg₃, hpiece₃⟩ ↦ ?_
  have hpieces : Pieces t t₃ [some type, some value] :=
    .pair (hpiece₃.weaken hg₂) (hpiece₂.keep hg₃) fun heq ↦ hpiece₃.new (heq ▸ hpiece₂.has)
  refine (returns_create _ _ fun _ hc ↦ (hpieces.piece hc).free).mono fun n t₄ hliteral ↦ ?_
  have hkind {m : NodeId} (hm : t₂.Has m) : t₄.kind m = t₂.kind m :=
    (kind_create_of_has hliteral (hg₃.has hm)).trans (hg₃.kind_eq hm)
  have hslots {m : NodeId} (hm : t₂.Has m) : t₄.slots m = t₂.slots m :=
    (slots_create_of_has hliteral (hg₃.has hm)).trans (hg₃.slots_eq hm)
  have hle := hg₃.size_le
  have hsize₂ := size_create hvalue
  have hsize₄ := size_create hliteral
  have hnew := piece_create (hg₂.trans hg₃) hpieces hliteral
  refine ⟨by omega, .optional hnew.new (kind_create_self hliteral)
    (by rw [child, slots_create_self hliteral]; rfl) hpiece₂.new
    ((hkind hpiece₂.has).trans (kind_create_self hvalue))
    (by rw [child_congr (hslots hpiece₂.has), child, slots_create_self hvalue]; rfl) (hwraps.keep ?_)⟩
  intro m _ hm
  have hm₂ : t₂.Has m := Nat.lt_of_lt_of_le hm (by omega)
  exact ⟨(hkind hm₂).trans (kind_create_of_has hvalue hm),
    (hslots hm₂).trans (slots_create_of_has hvalue hm)⟩

/-- A literal that is accepted is made anew. The induction is on the optionals to go: at each the
literal has been accepted, within the depth that is left to make it. -/
theorem returns_retypeWithin (hplain : PlainLiterals conversions) (ht : t.Coherent)
    (hwritten : t.AllWritten) (hl : t.literal? l = some literal) (hz : literal.integer? = some z)
    (hsrc : t.child l 0 = some src) (hstands : t.Stands src s source) (hdst : t.Nests k dst data)
    (hown : k = 0 ∨ literal.shape? = some source.shape ∧ source.wildcard = false ∧
      data.wildcard = false)
    (h : coerceLiteralWithin conversions t style l fuel dst = .ok ()) :
    Returns (retypeWithin fuel l dst) t fun n t' ↦
      t.size + 2 * k < t'.size ∧ Wraps t t' z data.shape k n := by
  induction hdst generalizing fuel with
  | @integer dst d data width hd hwidth =>
    obtain ⟨fuel, rfl, hfollow, h⟩ := literalRule_of_stands hplain hl hd (.inl (by simp [hwidth])) h
    have hneeds : needsOptional literal data.shape = false := by
      have hne : data.shape ≠ .optional := fun heq ↦ by rw [heq] at hwidth; cases hwidth
      simp [needsOptional, hne]
    obtain ⟨-, hvalue, hstored⟩ := admits_of_literalRule (some d) hz hwidth h
    exact (returns_retypeWithin_of_plain ht hl hfollow (shape?_eq_some_iff.2 ⟨data, hd.kind_eq, rfl⟩)
      hneeds).mono fun n t' ⟨hnew, hkind⟩ ↦ ⟨hnew.size_lt, .integer hnew.new hkind hvalue hstored⟩
  | @optional k dst d element outer data hd houter helement hinner ih =>
    obtain ⟨hshape, hsource, hdata⟩ := hown.resolve_left (Nat.succ_ne_zero k)
    obtain ⟨fuel, rfl, hfollow, h⟩ := literalRule_of_stands hplain hl hd (.inr houter) h
    obtain ⟨u, _, hu, -⟩ := unqualified_of_follow hfollow
    have htarget : t.shape? d = some .optional := shape?_eq_some_iff.2 ⟨outer, hd.kind_eq, houter⟩
    have hneeds := needsOptional_of_integer hz
    rw [houter] at h
    obtain ⟨_, _, helement', hsrc', h⟩ := exists_element_of_literalRule hneeds h
    cases helement.symm.trans helement'
    cases hsrc.symm.trans hsrc'
    unfold retypeWithin
    refine Returns.get_bind.2 ?_
    simp only [hl, hfollow, bind_some, htarget, getD_some, hneeds, if_true, helement,
      hsrc, any_some]
    split
    next hequal =>
      -- the literal is copied, so what it is stored for counts
      obtain ⟨width, hwidth⟩ := exists_width_of_shape? hshape
      obtain ⟨rfl, heq⟩ := hinner.eq_of_typesEqual hwritten hstands hsource hwidth hdata hequal
      have hkind := literal?_eq_some_iff.1 hl
      refine ((returns_copy ht (has_of_kind (by rw [hkind]; simp))).and_safe (growing_copy l t)).bind ?_
      rintro inner t₁ ⟨⟨r, hcopies, hr⟩, hgrows, hpiece⟩
      exact returns_optionalAround _ ht hu hgrows.toGrowth hpiece hpiece.size_lt
        (.integer hpiece.new ((hcopies.kind hr).trans hkind) hz (heq ▸ hshape))
    next hne =>
      refine ((ih (.inr ⟨hshape, hsource, hdata⟩) (h.resolve_left hne)).and_safe
        (crafts_retypeWithin Sources.targets_any trivial hl fuel trivial)).bind ?_
      rintro inner t₁ ⟨⟨hsize, hwraps⟩, hmade⟩
      exact returns_optionalAround _ ht hu hmade.growth (hmade.piece (List.mem_singleton_self _)) hsize hwraps

/-! ## The slot -/

/-- A piece takes the slot of an old node. -/
theorem exists_replaceNode {c : NodeId} (ht : t.Coherent) (hg : Growth t t₁) (hc : Piece t t₁ c)
    (hchild : t.child p i = some e) :
    ∃ t₂, t₁.replaceNode e c = .ok t₂ ∧ Step t true t₂ ∧ t₂.slots p = (t.slots p).set i (some c) ∧
      t₂.parent e = none ∧ ∀ m, t₂.kind m = t₁.kind m ∧ (m ≠ p → t₂.slots m = t₁.slots m) := by
  have hp := has_of_child_eq hchild
  have hparent : t₁.parent e = some p := by
    rw [hg.parent_eq (ht.has_of_child hchild), ht.parent_of_child hchild]
  obtain ⟨t₂, hreplace, hkinds, hreslot⟩ :=
    replaceNode_of_free (hg.coherent ht).toLinked hparent hc.has hc.free
  obtain ⟨_, j, hq, hchild', hset⟩ := replaceNode_eq_ok hreplace
  cases hparent.symm.trans hq
  obtain rfl := ht.index_unique hchild (by rwa [child_congr (hg.slots_eq hp)] at hchild')
  refine ⟨t₂, hreplace, step_of_placed ht hg hc hp hkinds hreslot, ?_,
    hreslot.parent_of_out (mem_singleton_self e), fun m ↦
      ⟨hkinds.kind_eq m, fun hm ↦ slots_setChild_of_ne hset hm⟩⟩
  rw [slots_setChild hset (hg.has hp), Edited.putSlot_of_child hchild', hg.slots_eq hp]

/-- What was made of a literal takes its slot in a new expression, if both can be reported. -/
theorem returns_retype (stream : Stream) {n : NodeId} (ht : w.tree.Coherent)
    (hchild : w.tree.child p i = some e) (he : w.tree.kind e = .expression .literal)
    (hl : w.tree.child e 0 = some l)
    (hmade : retypeLiteral l dst w.tree = .ok (n, t₁)) (hg : Growth w.tree t₁)
    (hpiece : Piece w.tree t₁ n)
    (htexts : ∀ t₂ : Tree, (∀ m, t₁.Has m → t₂.kind m = t₁.kind m ∧ t₂.slots m = t₁.slots m) →
      t₁.size < t₂.size →
        ∃ text text', t₂.shortWithin t₂.size l = .ok text ∧ t₂.shortWithin t₂.size n = .ok text') :
    Returns (apply stream e dst .retype) w fun e' w' ↦ Step w.tree true w'.tree ∧
      w'.tree.slots p = (w.tree.slots p).set i (some e') ∧ w'.tree.parent e = none ∧
      w'.tree.kind e' = .expression .literal ∧ w'.tree.slots e' = [some n] ∧
      ∀ m, t₁.Has m → w'.tree.kind m = t₁.kind m ∧ (m ≠ p → w'.tree.slots m = t₁.slots m) := by
  obtain ⟨t₂, hcreate⟩ : ∃ t₂, t₁.create (.expression .literal) [some n] (t₁.location e) =
    .ok (⟨t₁.size⟩, t₂) := exists_create _ _ (by simp [hpiece.free])
  have hg₂ := hg.create (.single hpiece) hcreate
  have hnew := piece_create hg (.single hpiece) hcreate
  have hkind : t₂.kind ⟨t₁.size⟩ = .expression .literal := kind_create_self hcreate
  have hslots : t₂.slots ⟨t₁.size⟩ = [some n] := slots_create_self hcreate
  have hkeep (m : NodeId) (hm : t₁.Has m) : t₂.kind m = t₁.kind m ∧ t₂.slots m = t₁.slots m :=
    ⟨kind_create_of_has hcreate hm, slots_create_of_has hcreate hm⟩
  obtain ⟨text, text', hold, hnewText⟩ := htexts t₂ hkeep (size_create hcreate ▸ Nat.lt_succ_self _)
  have hhas := ht.has_of_child hchild
  obtain ⟨line, hline⟩ : ∃ line, t₂.changeLine e (some ⟨t₁.size⟩) "coerced literal" = .ok line :=
    exists_changeLine ((shortWithin_of_literal ((hg₂.kind_eq hhas).trans he)
      ((child_congr (hg₂.slots_eq hhas) 0).trans hl)).trans hold)
      ((shortWithin_of_literal hkind (by rw [child, hslots]; rfl)).trans hnewText)
  obtain ⟨t₃, hreplace, hstep, hset, hparent, hsame⟩ := exists_replaceNode ht hg₂ hnew hchild
  have hplace : Pass.replaceNode stream e ⟨t₁.size⟩ "coerced literal" ⟨t₂, w.log⟩ =
      .ok ((), ⟨t₃, w.log.push (.debug stream line)⟩) := by
    rw [replaceNode_of_ok hreplace, hline]
    rfl
  refine ⟨⟨t₁.size⟩, ⟨t₃, w.log.push (.debug stream line)⟩, ?_, hstep, hset, hparent,
    (hsame _).1.trans hkind, ((hsame _).2 fun heq ↦ ?_).trans hslots, fun m hm ↦
      ⟨(hsame m).1.trans (hkeep m hm).1, fun hmp ↦ ((hsame m).2 hmp).trans (hkeep m hm).2⟩⟩
  · refine Pass.tree_bind.trans ?_
    rw [hl]
    refine (bind_of_ok (edit_of_ok hmade)).trans ?_
    refine Pass.tree_bind.trans ?_
    exact (bind_of_ok (edit_of_ok (x := Surgery.create _ _ _) hcreate)).trans (bind_of_ok hplace)
  · exact hnew.new (heq ▸ has_of_child_eq hchild)

/-- An integer literal that is accepted for an integer type inside of `k` optionals is replaced in
its slot by a new one. That is `k` optionals around the same integer, stored for the wanted type. The
old expression is detached, and no other slot changes. Inside of optionals the literal has to be one
of its own type, and neither this nor the wanted type may be a wildcard. -/
theorem apply_retype (hplain : PlainLiterals conversions) (ht : w.tree.Coherent)
    (hwritten : w.tree.AllWritten) (hchild : w.tree.child p i = some e)
    (he : w.tree.IntegerLiteral e l src z) (hstands : w.tree.Stands src s source)
    (hdst : w.tree.Nests k dst data)
    (hown : k = 0 ∨ (w.tree.literal? l).bind Literal.shape? = some source.shape ∧
      source.wildcard = false ∧ data.wildcard = false)
    (h : coerceLiteral conversions w.tree l dst style = .ok ()) :
    Returns (apply stream e dst .retype) w fun e' w' ↦
      w'.tree.slots p = (w.tree.slots p).set i (some e') ∧ w'.tree.parent e = none ∧
      (∀ m, w.tree.Has m → m ≠ p → w'.tree.slots m = w.tree.slots m) ∧
      w'.tree.kind e' = .expression .literal ∧
      ∃ n, w'.tree.child e' 0 = some n ∧ Wraps w.tree w'.tree z data.shape k n := by
  obtain ⟨literal, hl, hz⟩ := bind_eq_some_iff.1 he.value
  rw [hl, bind_some] at hown
  obtain ⟨n, t₁, hmade, ⟨hsize, hwraps⟩, hcrafted⟩ :=
    (returns_retypeWithin hplain ht hwritten hl hz he.type hstands hdst hown h).and_safe
      (crafts_retypeWithin Sources.targets_any trivial hl _ trivial)
  obtain ⟨hgrows, hpieces⟩ := hcrafted.grows
  have hg := hgrows.toGrowth
  have hretype : retypeLiteral l dst w.tree = .ok (n, t₁) := by
    unfold retypeLiteral
    rw [get_bind]
    exact hmade
  refine (returns_retype stream ht hchild he.kind he.child hretype hg (hpieces.piece (List.mem_singleton_self _))
    fun t₂ hkeep hsize₂ ↦ ?_).mono ?_
  · -- the old literal is a number, and the new one ends within the tree
    have hold := ht.has_of_child he.child
    obtain ⟨text, htext⟩ := exists_shortWithin_of_integer ((hkeep l (hg.has hold)).1.trans
      ((hg.kind_eq hold).trans (literal?_eq_some_iff.1 hl))) hz (by omega : 0 < t₂.size)
    obtain ⟨text', htext'⟩ := (hwraps.keep fun _ ↦ hkeep _).exists_shortWithin (by omega : 2 * k < t₂.size)
    exact ⟨text, text', htext, htext'⟩
  · rintro e' w' ⟨-, hslots, hparent, hkind, hinner, hkeep⟩
    refine ⟨hslots, hparent, fun m hm hmp ↦ ((hkeep m (hg.has hm)).2 hmp).trans (hg.slots_eq hm), hkind, n,
      by rw [child, hinner]; rfl, hwraps.keep fun {m} hm hhas ↦ ?_⟩
    exact (hkeep m hhas).imp_right fun hslots ↦ hslots fun heq ↦ hm (heq ▸ has_of_child_eq hchild)

/-- A literal in the slot of a statement, and an optional. -/
def literalInSlot (literal : Literal) (source target : TypeShape) : Tree := .ofRows [
  (.root, []),
  (.statement .expression, [2]),
  (.expression .literal, [3]),
  (.literal literal, [4]),
  (.value .const, [5]),
  (.shaped source, []),
  (.shaped .optional, [7]),
  (.value, [8]),
  (.shaped target, [])]

/-- The largest signed word, stored without a sign. -/
def largestWord : Tree :=
  literalInSlot (.unsigned 9223372036854775807 64) (.unsigned 64) (.signed 64)

/-- A number that is stored with a sign, although its type has none. -/
def mixedSigns : Tree := literalInSlot (.signed 5 8) (.unsigned 8) (.unsigned 8)

theorem allWritten_of_none (h : ∀ i < t.size, (t.typeData? ⟨i⟩).bind TypeData.unification = none) :
    t.AllWritten := by
  intro n data x hkind hx
  have hnone := h n.index (has_of_kind (by rw [hkind]; simp))
  rw [typeData?_eq_some_iff.2 hkind, bind_some, hx] at hnone
  cases hnone

/-- It becomes a signed word in an optional. -/
theorem apply_retype_largestWord :
    Returns (apply .coercer ⟨2⟩ ⟨6⟩ .retype) ⟨largestWord, #[]⟩ fun e' w' ↦
      w'.tree.slots ⟨1⟩ = [some e'] ∧ w'.tree.parent ⟨2⟩ = none ∧
      ∃ n, w'.tree.child e' 0 = some n ∧
        Wraps largestWord w'.tree 9223372036854775807 (.signed 64) 1 n := by
  have hwanted : largestWord.Nests 1 ⟨6⟩ { shape := .signed 64 } :=
    .optional (.itself rfl rfl (.inr (by decide))) rfl rfl
      (.integer (.itself rfl rfl (.inr (by decide))) rfl)
  have hnumber : largestWord.IntegerLiteral ⟨2⟩ ⟨3⟩ ⟨4⟩ 9223372036854775807 :=
    ⟨rfl, rfl, by decide +kernel, rfl⟩
  refine (apply_retype (w := ⟨largestWord, #[]⟩) (p := ⟨1⟩) (i := 0)
    (fun _ hc ↦ absurd hc not_mem_nil) (coherent_iff.2 ⟨linked_iff.2 (by decide), by decide⟩)
    (allWritten_of_none (by decide)) rfl hnumber (.itself rfl rfl (.inr (by decide))) hwanted
    (.inr ⟨rfl, rfl, rfl⟩)
    (by decide +kernel : coerceLiteral [] largestWord ⟨3⟩ ⟨6⟩ .ofAssignment = .ok ())).mono ?_
  exact fun e' w' ⟨hslots, hparent, _, _, hmade⟩ ↦ ⟨hslots, hparent, hmade⟩

/-- It is accepted for an optional of its type, and is still stored with a sign there. -/
theorem not_wraps_mixedSigns :
    mixedSigns.Coherent ∧ mixedSigns.AllWritten ∧ mixedSigns.child ⟨1⟩ 0 = some ⟨2⟩ ∧
    mixedSigns.IntegerLiteral ⟨2⟩ ⟨3⟩ ⟨4⟩ 5 ∧ mixedSigns.literal? ⟨3⟩ = some (.signed 5 8) ∧
    mixedSigns.Stands ⟨4⟩ ⟨5⟩ { shape := .unsigned 8 } ∧
    mixedSigns.Nests 1 ⟨6⟩ { shape := .unsigned 8 } ∧
    coerceLiteral [] mixedSigns ⟨3⟩ ⟨6⟩ .ofAssignment = .ok () ∧
    Returns (apply .coercer ⟨2⟩ ⟨6⟩ .retype) ⟨mixedSigns, #[]⟩ fun e' w' ↦
      ∀ n, w'.tree.child e' 0 = some n → ¬Wraps mixedSigns w'.tree 5 (.unsigned 8) 1 n := by
  refine ⟨coherent_iff.2 ⟨linked_iff.2 (by decide), by decide⟩, allWritten_of_none (by decide), rfl,
    ⟨rfl, rfl, by decide +kernel, rfl⟩, rfl, .itself rfl rfl (.inr (by decide)),
    .optional (.itself rfl rfl (.inr (by decide))) rfl rfl
      (.integer (.itself rfl rfl (.inr (by decide))) rfl),
    by decide +kernel, ?_⟩
  have hrun : ((apply .coercer ⟨2⟩ ⟨6⟩ .retype ⟨mixedSigns, #[]⟩).toOption.bind fun r ↦
      (((r.2.tree.child r.1 0).bind (r.2.tree.child · 1)).bind (r.2.tree.child · 0)).bind
        r.2.tree.literal?) = some (.signed 5 8) := by decide +kernel
  obtain ⟨⟨e', w'⟩, hok, hinner⟩ := bind_eq_some_iff.1 hrun
  refine ⟨e', w', ?_, fun n hn hwraps ↦ ?_⟩
  · cases happly : apply .coercer ⟨2⟩ ⟨6⟩ .retype ⟨mixedSigns, #[]⟩ with
    | error => rw [happly] at hok; cases hok
    | ok r => rw [happly] at hok; rw [some.inj hok]
  · cases hwraps with
    | optional _ _ hvalue _ _ hm hwraps =>
      cases hwraps with
      | integer _ hkind _ hshape =>
        simp only [hn, hvalue, hm, literal?_eq_some_iff.2 hkind, bind_some,
          some.injEq] at hinner
        rw [hinner] at hshape
        cases hshape

/-! ## Labels of enums -/

theorem labelFor_eq (value : Int64) : labelFor t (some d) value = t.labelOf d value.toInt := by
  unfold labelFor labelOf
  simp only [labels_eq, toList_some, flatMap_singleton, find?_filterMap, find?_filter,
    map_bind]
  congr 3
  funext c
  unfold isLabel labelValue
  cases t.declaration? c with
  | none => rfl
  | some d =>
    rw [any_some, map_some]
    cases d.kind with
    | label value' => cases value' <;> simp [Int64.toInt_inj, beq_eq_decide_eq]
    | _ => rfl

/-- The value that a literal is looked up with. -/
theorem retypedLiteral_enumeration (hz : literal.integer? = some z) :
    retypedLiteral t literal (some d) .enumeration =
      .enumeration (t.labelOf d (if z < 2 ^ 63 then z else -1)) := by
  cases literal with
  | signed value =>
    obtain rfl := some.inj hz
    rw [if_pos value.toInt_lt]
    exact congrArg _ (labelFor_eq value)
  | unsigned value =>
    obtain rfl := some.inj hz
    refine (congrArg _ (labelFor_eq _)).trans ?_
    unfold labelValueOf
    have hiff : value.toNat < Nat.pow 2 63 ↔ (value.toNat : Int) < 2 ^ 63 := by
      rw [Nat.pow_eq]; omega
    by_cases hlt : value.toNat < Nat.pow 2 63
    · rw [if_pos hlt, if_pos (hiff.1 hlt), toInt_toInt64 hlt]
    · rw [if_neg hlt, if_neg (mt hiff.2 hlt)]
      rfl
  | _ => cases hz

/-- An integer literal of an enum type is made anew as the first label with its value. An integer that
no label can have is taken for the value of undefined labels. -/
theorem returns_retypeLiteral_enumeration (ht : t.Coherent) (hl : t.literal? l = some literal)
    (hz : literal.integer? = some z) (hfollow : t.follow dst = some d)
    (henum : t.shape? d = some .enumeration) :
    Returns (retypeLiteral l dst) t fun n t' ↦ ¬t.Has n ∧
      t'.kind n = .literal (.enumeration (t.labelOf d (if z < 2 ^ 63 then z else -1))) := by
  rw [← retypedLiteral_enumeration hz]
  refine Returns.get_bind.2 ((returns_retypeWithin_of_plain ht hl hfollow henum rfl).mono ?_)
  exact fun n t' ⟨hpiece, hkind⟩ ↦ ⟨hpiece.new, hkind⟩

/-- A word and an enum with an explicit label for -1. -/
def wordAndEnum (value : UInt64) : Tree := .ofRows [
  (.root, []),
  (.literal (.unsigned value 64), [2]),
  (.value .const, [3]),
  (.shaped (.unsigned 64), []),
  (.shaped .enumeration, [5, 6, 7]),
  (.declares "A" (.label (some (-1)) false none) .external, []),
  (.declares "B" (.label (some 5) false none) .external, []),
  (.declares "Undef" (.label (some (-1)) true none) .external, [])]

/-- A small word becomes its label. -/
theorem returns_retypeLiteral_five : Returns (retypeLiteral ⟨1⟩ ⟨4⟩) (wordAndEnum 5) fun n t' ↦
    t'.kind n = .literal (.enumeration "B") :=
  have hl : (wordAndEnum 5).literal? ⟨1⟩ = some (.unsigned 5 64) := rfl
  (returns_retypeLiteral_enumeration (coherent_iff.2 ⟨linked_iff.2 (by decide), by decide⟩) hl
    (z := 5) (d := ⟨4⟩) rfl (by decide +kernel) rfl).mono fun n t' ⟨_, hkind⟩ ↦ hkind

/-- No label has the value, and the literal becomes the label for -1. -/
theorem not_undef_of_largeWord : let t := wordAndEnum 9223372036854775808
    coerceLiteral [] t ⟨1⟩ ⟨4⟩ .ofCondition = .ok () ∧ t.labelOf ⟨4⟩ 9223372036854775808 = undefLabel ∧
      ((retypeLiteral ⟨1⟩ ⟨4⟩).run t).toOption.map (fun r ↦ r.2.kind r.1) =
        some (.literal (.enumeration "A")) := by
  decide +kernel

end Coercion

end ProtocolIR
