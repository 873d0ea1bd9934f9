import ProtocolIR.Proofs.Tree.Orders
import ProtocolIR.Proofs.Unification.Copies

/-!
# Copies of subtrees

A node of a coherent tree can be copied, with all that is beneath it. The copy is made of new nodes, and
what a path of slots leads to from the copy is like what it leads to from the source. No old node
changes.
-/

namespace ProtocolIR

open Tree List

theorem Returns.mapM {σ ι β : Type} {build : ι → StateT σ (Except Fault) β} {p : σ → Prop} {l : List ι}
    (hbuild : ∀ i ∈ l, ∀ s, p s → Returns (build i) s fun _ s' ↦ p s') {s : σ} (hs : p s) :
    Returns (l.mapM build) s fun _ s' ↦ p s' := by
  induction l generalizing s with
  | nil => exact ⟨[], s, rfl, hs⟩
  | cons i l ih =>
    rw [mapM_cons]
    refine (hbuild i mem_cons_self s hs).bind fun b s₁ hs₁ ↦ ?_
    refine (ih (fun j hj ↦ hbuild j (mem_cons_of_mem _ hj)) hs₁).bind fun bs s₂ hs₂ ↦ ?_
    exact ⟨b :: bs, s₂, rfl, hs₂⟩

section

variable {s t : Tree} {n : NodeId}

/-- The induction is on the depth to go, which covers the way down from `n` in the tree at the start. -/
theorem returns_copyWithin (hs : s.Coherent) {fuel : Nat} (hn : s.Has n) (hg : Growth s t)
    (hfuel : s.size ≤ fuel + (s.ancestors n).length) :
    Returns (Surgery.copyWithin fuel n) t fun _ t' ↦ Growth s t' := by
  induction fuel generalizing n t with
  | zero =>
    have hlt := hs.length_ancestors_lt hn
    omega
  | succ fuel ih =>
    unfold Surgery.copyWithin
    refine Returns.get_bind.2 (Returns.bind (Returns.and_safe (Returns.mapM (p := Growth s) ?_ hg)
      (safe_mapM_copied (fun slot t ↦ ?_) (t.slots n) t)) ?_)
    · intro slot hslot t₁ hg₁
      rw [hg.slots_eq hn] at hslot
      cases slot with
      | none => exact ⟨none, t₁, rfl, hg₁⟩
      | some c =>
        have hdepth := hs.length_ancestors_child hslot
        obtain ⟨c', t₂, hc, hg₂⟩ := ih (hs.has_of_held hslot) hg₁ (by omega)
        exact ⟨some c', t₂, (congrFun (map_eq_pure_bind _ _) t₁).trans (bind_of_ok hc), hg₂⟩
    · cases slot with
      | none => exact .empty (.nil t)
      | some c => exact safe_map.2 (safe_copyWithin fuel c t)
    · rintro slots t₁ ⟨hg₁, hparts⟩
      have hpieces := hparts.pieces.2
      refine Returns.get_bind.2 ((returns_create _ _ fun c hc ↦ (hpieces.piece hc).free).bind
        fun c t₂ hcreate ↦ ⟨c, _, rfl, ?_⟩)
      have hnew : ¬s.Has c := fun h ↦ not_has_create hcreate (hg₁.has h)
      exact (hg₁.create (hpieces.weaken hg) hcreate).setComments hnew _

theorem returns_copy (ht : t.Coherent) (hn : t.Has n) :
    Returns (Surgery.copy n) t fun c t' ↦ ∃ r, Copies t t t' r ∧ r n c := by
  obtain ⟨c, t', hrun, -⟩ := returns_copyWithin ht hn (.refl t) (Nat.le_add_right t.size _)
  exact ⟨c, t', hrun, ((safe_copy n t).post_of_ok hrun).copies_self ht.toLinked⟩

/-- The node that a path of slots leads to. -/
def Tree.at? (t : Tree) (n : NodeId) : List Nat → Option NodeId
  | [] => some n
  | i :: path => (t.child n i).bind fun c ↦ t.at? c path

/-- Nodes with as many slots that are alike in all that is copied. -/
def Tree.Alike (t t' : Tree) (a b : NodeId) : Prop :=
  Resembles t t' a b ∧ (t'.slots b).length = (t.slots a).length

/-- The copy of a subtree has a node exactly where the subtree has one, and the two are alike. It has no
parent, all of it is new, and the nodes there were are as before. -/
theorem returns_copy_alike (ht : t.Coherent) (hn : t.Has n) :
    Returns (Surgery.copy n) t fun c t' ↦
      (∀ path, Option.Rel (Alike t t') (t.at? n path) (t'.at? c path)) ∧ t'.parent c = none ∧
      (∀ b, t'.Within c b → t'.Has b ∧ ¬t.Has b) ∧ t'.Coherent ∧ t'.scopes = t.scopes ∧
      ∀ m, t.Has m → t'.node m = t.node m := by
  obtain ⟨c, t', hrun, -⟩ := returns_copyWithin ht hn (.refl t) (Nat.le_add_right t.size _)
  have hcopied := (safe_copy n t).post_of_ok hrun
  obtain ⟨hgrowth, hpieces⟩ := hcopied.pieces
  have hpiece := hpieces.piece (mem_singleton_self _)
  obtain ⟨r, hr, hrel, hlike⟩ := hcopied.copies ht.toLinked (.refl t) fun m hm ↦ by
    cases mem_singleton.1 hm
    exact hn
  obtain ⟨⟨hnc⟩, -⟩ := forall₂_cons.1 hrel
  have hpaths : ∀ path a b, r a b → Option.Rel (Alike t t') (t.at? a path) (t'.at? b path) := by
    intro path
    induction path with
    | nil => exact fun a b hab ↦ .some ⟨hlike hab, (hr.slots hab).length_eq.symm⟩
    | cons i path ih =>
      intro a b hab
      have hchild : Option.Rel r (t.child a i) (t'.child b i) :=
        Carries.rel_join_of_forall₂ (hr.slots hab) i
      unfold at?
      generalize t.child a i = x, t'.child b i = y at hchild
      cases hchild with
      | none => exact .none
      | some hcd => exact ih _ _ hcd
  refine ⟨c, t', hrun, fun path ↦ hpaths path n c hnc, hpiece.free, fun b hb ↦ ⟨?_, fun hold ↦ ?_⟩,
    hgrowth.coherent ht, hgrowth.scopes_eq, fun m ↦ hgrowth.node_eq⟩
  · cases hb with
    | here => exact hpiece.has
    | beneath hp _ => exact has_of_parent hp
  · exact hgrowth.not_within ht.toLinked hold hpiece.new hb

end

/-- A condition with neither branch, in a scope of its own. -/
def bareCondition : Tree where
  nodes := #[
    { kind := .root, slots := [some ⟨1⟩] },
    { kind := .statement .conditional, slots := [none, some ⟨2⟩, none], comments := ["to do"], parent := some root,
      scope := some ⟨0⟩ },
    { kind := .expression .literal, slots := [some ⟨3⟩], parent := some ⟨1⟩ },
    { kind := .literal (.bool true), slots := [some ⟨4⟩], parent := some ⟨2⟩ },
    { kind := .type { shape := .bool }, parent := some ⟨3⟩ }]

/-- The condition is copied, and the scope is not. -/
theorem returns_copy_bareCondition : bareCondition.Coherent ∧
    Returns (Surgery.copy ⟨1⟩) bareCondition fun c t' ↦ t'.parent c = none ∧ t'.at? c [0] = none ∧
      (∃ b, t'.at? c [1] = some b ∧ Alike bareCondition t' ⟨2⟩ b) ∧ (t'.data c).scope = none := by
  have ht : bareCondition.Coherent := coherent_iff.2 ⟨linked_iff.2 (by decide), by decide⟩
  refine ⟨ht, (returns_copy_alike ht (by decide)).mono fun c t' ⟨hpaths, hparent, _⟩ ↦ ⟨hparent, ?_, ?_, ?_⟩⟩
  · have hnone : Option.Rel (Alike bareCondition t') none (t'.at? c [0]) := hpaths [0]
    generalize t'.at? c [0] = y at hnone ⊢
    cases hnone
    rfl
  · have hsome : Option.Rel (Alike bareCondition t') (some ⟨2⟩) (t'.at? c [1]) := hpaths [1]
    generalize t'.at? c [1] = y at hsome ⊢
    cases hsome with
    | some h => exact ⟨_, rfl, h⟩
  · have htop : Option.Rel (Alike bareCondition t') (some ⟨1⟩) (some c) := hpaths []
    cases htop with
    | some h => rw [h.1]

end ProtocolIR
