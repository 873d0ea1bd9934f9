import ProtocolIR.Proofs.Padding.Typing
import ProtocolIR.Proofs.Pass.Scopes

/-!
# Scopes of a padded tree

Lookups in a padded tree find what lookups in its base find, and building scopes in both gives a
padded tree over its base again.
-/

namespace ProtocolIR

open List

/-- Scopes do not matter. -/
theorem Tree.Inset.rescoped {b b' s s' : Tree} (h : Inset b s) (hb : SameNodes b b')
    (hs : SameNodes s s') : Inset b' s' where
  rooted := hb.rooted h.rooted
  linked := hs.sameLinks.linked h.linked
  size_le := by
    rw [hb.size_eq, hs.size_eq]
    exact h.size_le
  node_eq {n} hn := calc (s'.node n).silent.unscoped
    _ = (s.node n).silent.unscoped := congrArg Node.silent (hs.node_eq n)
    _ = (b.node n).silent.unscoped := h.node_eq ((hb.has_iff n).1 hn)
    _ = (b'.node n).silent.unscoped := (congrArg Node.silent (hb.node_eq n)).symm
  extra_type {n} hn hn' := by
    rw [hs.kind_eq]
    rw [hb.has_iff] at hn
    exact h.extra_type hn ((hs.has_iff n).1 hn')

namespace Tree.Padded

variable {b s : Tree} {n : NodeId}

/-! ## Lookups -/

section

variable (h : Padded b s)

include h

theorem findModule_eq (id : String) : s.findModule id = b.findModule id := by
  unfold findModule
  simp only [h.children_eq h.rooted.has_root, h.declaration?_eq]

theorem namespaceScope_eq (n : NodeId) : s.namespaceScope n = b.namespaceScope n := by
  have hcompound : ((b.declaredType n).bind fun u ↦
        if (s.shape? u).any fun shape ↦ shape.category.isCompound then b.scopeOf u else none) =
      (b.declaredType n).bind fun u ↦
        if (b.shape? u).any fun shape ↦ shape.category.isCompound then b.scopeOf u else none := by
    refine Option.bind_congr fun u hu ↦ ?_
    rw [h.shape?_eq (h.base.has_of_declaredType hu)]
  have hscope : s.scopeOf = b.scopeOf := funext h.scopeOf_eq
  unfold namespaceScope
  simp only [h.declaration?_eq, h.findModule_eq, h.declaredType_eq, hscope, hcompound]

theorem isExported_eq : s.isExported = b.isExported := by
  funext n
  unfold isExported
  rw [h.declaration?_eq]

theorem lookupSimple_eq : s.lookupSimple = b.lookupSimple := by
  funext number id imports depth
  unfold lookupSimple lookupImports
  simp only [h.scope_eq, h.scopeOf_eq, h.isExported_eq]

theorem lookupSegments_eq (segments : List String) :
    s.lookupSegments segments = b.lookupSegments segments := by
  induction segments with
  | nil => rfl
  | cons first rest ih =>
    funext number imports depth
    cases rest with
    | nil => exact congrFun (congrFun (congrFun (congrFun h.lookupSimple_eq number) first) imports) depth
    | cons second rest =>
      simp only [lookupSegments, h.scope_eq, h.lookupSimple_eq, h.namespaceScope_eq, ih]

theorem lookupAlong_eq (id : QualifiedId) (path : List NodeId) :
    s.lookupAlong id path = b.lookupAlong id path := by
  induction path with
  | nil => rfl
  | cons n rest ih =>
    unfold lookupAlong lookupIn
    simp only [h.scopeOf_eq, h.lookupSegments_eq, ih]

theorem lookup_eq (hn : b.Has n) (id : QualifiedId) : s.lookup n id = b.lookup n id := by
  unfold lookup
  rw [h.ancestors_eq hn, h.lookupAlong_eq]

/-! ## Building -/

end

theorem scopeOf_modifyNode (t : Tree) (n m : NodeId) (number : Option ScopeId) (f : Node → Node)
    (hf : ∀ data, (f data).scope = number) :
    (t.modifyNode n f).scopeOf m = if m = n ∧ t.Has n then number else t.scopeOf m := by
  unfold scopeOf
  rw [node_modifyNode]
  split
  · exact hf _
  · rfl

section

variable (h : Padded b s)

include h

theorem openScope (hn : b.Has n) :
    (s.openScope n).1 = (b.openScope n).1 ∧ Padded (b.openScope n).2 (s.openScope n).2 := by
  have hb := sameNodes_openScope b n
  have hs := sameNodes_openScope s n
  unfold Tree.openScope at hb hs ⊢
  rw [h.scopeOf_eq n] at hs ⊢
  cases hscope : b.scopeOf n with
  | some number => exact ⟨rfl, h⟩
  | none =>
    rw [hscope] at hb hs
    refine ⟨by simp only [h.scopes_eq], h.toInset.rescoped hb hs, ?_, fun m ↦ ?_⟩
    · simp only [scopes_modifyNode, h.scopes_eq]
    · show (Tree.modifyNode _ n _).scopeOf m = (Tree.modifyNode _ n _).scopeOf m
      rw [scopeOf_modifyNode _ _ _ (some ⟨s.scopes.size⟩) _ fun _ ↦ rfl,
        scopeOf_modifyNode _ _ _ (some ⟨b.scopes.size⟩) _ fun _ ↦ rfl, h.scopes_eq]
      have hiff : (m = n ∧ ({ s with scopes := b.scopes.push {} } : Tree).Has n) ↔
          m = n ∧ ({ b with scopes := b.scopes.push {} } : Tree).Has n :=
        and_congr_right fun _ ↦ iff_of_true (h.has hn) hn
      simp only [hiff]
      split
      · rfl
      · exact h.scopeOf_eq m

theorem modifyScope (number : ScopeId) (f : Scope → Scope) :
    Padded (b.modifyScope number f) (s.modifyScope number f) where
  toInset := h.toInset.rescoped (sameNodes_modifyScope b number f) (sameNodes_modifyScope s number f)
  scopes_eq := by unfold Tree.modifyScope; rw [h.scopes_eq]
  scopeOf_eq := h.scopeOf_eq

theorem listInScope (hn : b.Has n) (entries : List (String × NodeId)) :
    Padded (b.listInScope n entries) (s.listInScope n entries) := by
  obtain ⟨hnumber, hopen⟩ := h.openScope hn
  unfold Tree.listInScope
  show Padded (Tree.modifyScope _ (b.openScope n).1 _) (Tree.modifyScope _ (s.openScope n).1 _)
  rw [hnumber]
  exact hopen.modifyScope _ _

theorem entries_eq : s.entries = b.entries := by
  funext ns
  unfold entries
  simp only [h.declaration?_eq]

theorem buildModuleScope (hn : b.Has n) : Padded (b.buildModuleScope n) (s.buildModuleScope n) := by
  have himports : s.importedModules (b.childrenFrom n 0 .declaration) =
      b.importedModules (b.childrenFrom n 0 .declaration) := by
    unfold importedModules
    simp only [h.declaration?_eq, h.findModule_eq]
  unfold Tree.buildModuleScope
  simp only [h.childrenFrom_eq hn, himports, h.entries_eq]
  have hlisted := h.listInScope hn (b.entries (b.childrenFrom n 0 .declaration) ++ b.entries [n])
  have hhas : (b.listInScope n (b.entries (b.childrenFrom n 0 .declaration) ++ b.entries [n])).Has n := by
    unfold Has
    rw [(sameNodes_listInScope b n _).size_eq]
    exact hn
  obtain ⟨hnumber, hopen⟩ := hlisted.openScope hhas
  rw [hnumber]
  exact hopen.modifyScope _ _

theorem buildScope (hn : b.Has n) : Padded (b.buildScope n) (s.buildScope n) := by
  have hlocals : s.blockLocals n = b.blockLocals n := by
    unfold blockLocals
    rw [h.children_eq hn]
    have hfilter : (b.children n).filter (fun c ↦ s.kind c == .statement .declaration) =
        (b.children n).filter fun c ↦ b.kind c == .statement .declaration :=
      filter_congr fun c hc ↦ by rw [h.kind_eq (h.base.has_of_mem_children hc)]
    rw [hfilter]
    refine filterMap_congr fun c hc ↦ ?_
    exact h.child_eq (h.base.has_of_mem_children (mem_filter.1 hc).1) 0
  unfold Tree.buildScope
  rw [h.kind_eq hn, h.entries_eq, h.parameters_eq, hlocals, h.childrenFrom_eq hn]
  split
  · split
    · exact h.buildModuleScope hn
    · exact h.listInScope hn _
    · exact h
  · exact h.listInScope hn _
  · split
    · exact h.listInScope hn _
    · exact h.listInScope hn _
    · exact h.listInScope hn _
    · exact h
  · exact h

end

/-- Building at one node after another. -/
theorem foldl {build : Tree → NodeId → Tree} (hsame : ∀ t n, SameNodes t (build t n))
    (hbuild : ∀ {b s : Tree} {n : NodeId}, Padded b s → b.Has n → Padded (build b n) (build s n))
    (h : Padded b s) {nodes : List NodeId} (hnodes : ∀ n ∈ nodes, b.Has n) :
    Padded (nodes.foldl build b) (nodes.foldl build s) := by
  induction nodes generalizing b s with
  | nil => exact h
  | cons n rest ih =>
    refine ih (hbuild h (hnodes n mem_cons_self)) fun m hm ↦ ?_
    have hhas := hnodes m (mem_cons_of_mem n hm)
    unfold Has at hhas ⊢
    rwa [(hsame b n).size_eq]

variable (h : Padded b s)

include h

theorem listMethod (name : String) (method owner : NodeId) :
    Padded (b.listMethod name method owner) (s.listMethod name method owner) := by
  unfold Tree.listMethod
  rw [h.declaredType_eq]
  cases hu : b.declaredType owner with
  | none => exact h
  | some u =>
    have hhas := h.base.has_of_declaredType hu
    simp only [h.shape?_eq hhas]
    split
    · exact h.listInScope hhas _
    · exact h

theorem listMethods (name : String) (method : NodeId) (owners : List NodeId) :
    Padded (owners.foldl (Tree.listMethod name method) b) (owners.foldl (Tree.listMethod name method) s) := by
  induction owners generalizing b s with
  | nil => exact h
  | cons owner rest ih => exact ih (h.listMethod name method owner)

theorem registerMethod (hn : b.Has n) : Padded (b.registerMethod n) (s.registerMethod n) := by
  unfold Tree.registerMethod
  rw [h.declaration?_eq, h.parent_eq hn]
  split
  · exact h
  split
  next owner name start _ hp =>
    rw [h.lookup_eq (h.base.has_parent hp)]
    exact h.listMethods name n _
  · exact h

theorem itemsWithin_eq {fuel fuel' : Nat} (hn : b.Has n) (hfuel : b.size ≤ fuel) (hfuel' : b.size ≤ fuel') :
    s.itemsWithin fuel n = b.itemsWithin fuel' n := by
  have hstep : ∀ fuel fuel' n, b.Has n →
      (∀ c, some c ∈ b.slots n → s.itemsWithin fuel c = b.itemsWithin fuel' c) →
        s.itemsWithin (fuel + 1) n = b.itemsWithin (fuel' + 1) n := by
    intro fuel fuel' n hn hchildren
    have hcases : (b.childrenFrom n 1 .item).flatMap (s.itemsWithin fuel) =
        (b.childrenFrom n 1 .item).flatMap (b.itemsWithin fuel') := by
      refine flatMap_congr fun c hc ↦ hchildren c ?_
      obtain ⟨slot, hslot, hsome⟩ := mem_filterMap.1 (mem_filter.1 hc).1
      cases hsome
      exact mem_of_mem_drop hslot
    have hchild : (b.child n 0).toList.flatMap (s.itemsWithin fuel) =
        (b.child n 0).toList.flatMap (b.itemsWithin fuel') :=
      flatMap_congr fun c hc ↦ hchildren c (mem_slots_of_child (Option.mem_toList.1 hc))
    unfold itemsWithin
    simp only [h.kind_eq hn, h.childrenFrom_eq hn, h.child_eq hn, hcases, hchild]
  exact h.rooted.eq_of_descent hstep hn hfuel hfuel'

theorem unitEntries_eq (hn : b.Has n) : s.unitEntries n = b.unitEntries n := by
  have hitems : s.unitItems n = b.unitItems n := by
    unfold unitItems
    rw [h.childrenFrom_eq hn]
    exact flatMap_congr fun c hc ↦ h.itemsWithin_eq (h.base.has_of_mem_childrenFrom hc)
      (Nat.le_succ_of_le h.size_le) (Nat.le_succ _)
  unfold unitEntries itemId?
  simp only [h.entries_eq, h.childrenFrom_eq hn, hitems, h.item?_eq]

/-- The trees in which the scopes of the base language are built. -/
theorem buildScopes : Padded (b.buildScopes root) (s.buildScopes root) := by
  have hroot := h.rooted.has_root
  have hnodes : ∀ n ∈ b.subtree root, b.Has n :=
    fun n hn ↦ h.base.has_of_mem_ordered hroot .pre hn
  unfold Tree.buildScopes
  simp only [h.subtree_eq hroot]
  have hbuilt := h.foldl sameNodes_buildScope buildScope hnodes
  refine hbuilt.foldl sameNodes_registerMethod registerMethod fun n hn ↦ ?_
  have hhas := hnodes n hn
  unfold Has at hhas ⊢
  rwa [(SameNodes.foldl sameNodes_buildScope _ b).size_eq]

theorem buildUnitScopes : Padded (b.buildUnitScopes root) (s.buildUnitScopes root) := by
  have hroot := h.rooted.has_root
  have hnodes : ∀ n ∈ b.subtree root, b.Has n :=
    fun n hn ↦ h.base.has_of_mem_ordered hroot .pre hn
  have hunits : s.units root = b.units root := by
    unfold units
    rw [h.subtree_eq hroot]
    exact filter_congr fun n hn ↦ by rw [h.shape?_eq (hnodes n hn)]
  unfold Tree.buildUnitScopes
  rw [hunits]
  refine h.foldl (fun t n ↦ sameNodes_listInScope t n _) ?_ ?_
  · intro b s n h hn
    rw [h.unitEntries_eq hn]
    exact h.listInScope hn _
  · exact fun n hn ↦ hnodes n (mem_filter.1 hn).1

end Tree.Padded

end ProtocolIR
