import ProtocolIR.Proofs.Scope.Contents

/-!
# Lexical scoping

Which declarations an ID stands for can be read off the tree. A node offers what it introduces
under the ID, and a module that introduces nothing under it offers what the modules it imports
introduce and export. The closest node above that offers something decides. A lookup through the
scopes that are built from the root gives just these declarations.
-/

namespace ProtocolIR.Tree

open List Option

variable {t : Tree} {n m : NodeId} {key : String}

/-- The declarations that a node introduces under an ID. -/
def introducedAs (t : Tree) (key : String) (n : NodeId) : List NodeId :=
  (t.introduced n).filter fun m ↦ (t.declaration? m).any fun d ↦ d.id == key

/-- The declarations that a node offers under an ID: those it introduces, or if there are none,
those that the modules it imports introduce and export. What these import is not offered. -/
def offered (t : Tree) (key : String) (n : NodeId) : List NodeId :=
  if t.introducedAs key n = [] then
    (t.moduleImports n).eraseDups.flatMap fun m ↦ (t.introducedAs key m).filter t.isExported
  else t.introducedAs key n

/-- The first of some lists that is not empty. -/
def firstNonempty (lists : List (List NodeId)) : List NodeId :=
  (lists.find? fun list ↦ !list.isEmpty).getD []

/-- The declarations that an ID stands for at a node: those that the closest attached node offers
under it, among the node and those above. -/
def visible (t : Tree) (n : NodeId) (key : String) : List NodeId :=
  firstNonempty (((n :: t.ancestors n).filter t.isAttached).map (t.offered key))

@[simp] theorem firstNonempty_nil : firstNonempty [] = [] := rfl

@[simp] theorem firstNonempty_cons (list : List NodeId) (lists : List (List NodeId)) :
    firstNonempty (list :: lists) = if list = [] then firstNonempty lists else list := by
  cases list <;> simp [firstNonempty]

theorem firstNonempty_eq_nil {lists : List (List NodeId)} :
    firstNonempty lists = [] ↔ ∀ list ∈ lists, list = [] := by
  induction lists with
  | nil => simp
  | cons list lists ih =>
    rw [firstNonempty_cons, forall_mem_cons]
    split
    next hlist => rw [ih]; exact ⟨fun h ↦ ⟨hlist, h⟩, fun h ↦ h.2⟩
    next hlist => exact ⟨fun h ↦ absurd h hlist, fun h ↦ absurd h.1 hlist⟩

/-! ## What a lookup reads -/

/-- What the scope at a node answers for an ID. -/
def answer (t : Tree) (key : String) (n : NodeId) : List NodeId :=
  if (t.scopeAt n).get key = [] then
    (t.scopeAt n).imports.flatMap fun m ↦ ((t.scopeAt m).get key).filter t.isExported
  else (t.scopeAt n).get key

theorem lookupImports_eq (t : Tree) (s : ScopeId) (key : String) :
    t.lookupImports s key =
      (t.scope s).imports.flatMap fun m ↦ ((t.scopeAt m).get key).filter t.isExported := by
  unfold lookupImports scopeAt
  congr 1
  funext m
  cases t.scopeOf m <;> rfl

theorem lookupSimple_eq {s : ScopeId} (h : t.scopeOf n = some s) :
    t.lookupSimple s key true 0 = t.answer key n := by
  have hat : t.scopeAt n = t.scope s := by unfold scopeAt; rw [h]; rfl
  unfold lookupSimple answer
  rw [hat, lookupImports_eq]
  cases (t.scope s).get key <;> rfl

theorem answer_of_scopeOf_none (h : t.scopeOf n = none) : t.answer key n = [] := by
  have hat : t.scopeAt n = {} := by unfold scopeAt; rw [h]; rfl
  unfold answer
  rw [hat]
  rfl

theorem lookupAlong_simple (t : Tree) (key : String) (path : List NodeId) :
    t.lookupAlong (.simple key) path = firstNonempty (path.map (t.answer key)) := by
  induction path with
  | nil => rfl
  | cons n rest ih =>
    rw [map_cons, firstNonempty_cons]
    unfold lookupAlong
    cases hscope : t.scopeOf n with
    | none =>
      rw [answer_of_scopeOf_none hscope, if_pos rfl]
      exact ih
    | some s =>
      have hanswer : t.lookupIn s (.simple key) true 0 = t.answer key n := lookupSimple_eq hscope
      simp only [map_some, hanswer]
      cases t.answer key n with
      | nil => exact ih
      | cons d rest => rfl

/-! ## A node introduces a declaration once -/

theorem Linked.nodup_childrenFrom (ht : t.Linked) (n : NodeId) (start : Nat) (category : NodeCategory) :
    (t.childrenFrom n start category).Nodup := by
  have hsublist : (((t.slots n).drop start).filterMap id).Sublist (t.children n) :=
    (drop_sublist start _).filterMap _
  exact (hsublist.nodup (ht.nodup_children n)).filter _

theorem Linked.nodup_blockLocals (ht : t.Linked) (n : NodeId) : (t.blockLocals n).Nodup := by
  have hparts : ((t.children n).filter fun s ↦ t.kind s == .statement .declaration).Nodup :=
    (ht.nodup_children n).filter _
  refine List.Nodup.filterMap (fun a b c ha hb ↦ ?_) hparts
  exact some.inj ((ht.parent_of_child ha).symm.trans (ht.parent_of_child hb))

theorem Coherent.nodup_introduced (ht : t.Coherent) (n : NodeId) : (t.introduced n).Nodup := by
  unfold introduced
  split
  · split
    · refine nodup_append.2 ⟨ht.nodup_childrenFrom n 0 _, nodup_singleton n, ?_⟩
      rintro c hc d hd rfl
      cases mem_singleton.1 hd
      obtain ⟨slot, hslot, rfl⟩ := mem_filterMap.1 (mem_filter.1 hc).1
      have hparent := ht.parent_of_held (mem_of_mem_drop hslot)
      exact (ht.grounded _).not_within hparent .here
    · unfold parameters
      split
      · exact ht.nodup_childrenFrom _ 1 _
      · exact nodup_nil
    · exact nodup_nil
  · exact ht.nodup_blockLocals n
  · split
    · exact ht.nodup_childrenFrom n 0 _
    · exact ht.nodup_childrenFrom n 0 _
    · exact ht.nodup_childrenFrom n 0 _
    · exact nodup_nil
  · exact nodup_nil

theorem under_entries (t : Tree) (key : String) (ns : List NodeId) :
    Scope.under key (t.entries ns) =
      ns.filter fun m ↦ (t.declaration? m).any fun d ↦ d.id == key := by
  induction ns with
  | nil => rfl
  | cons n ns ih =>
    unfold Scope.under entries at ih ⊢
    cases hd : t.declaration? n with
    | none => simp [hd, ih]
    | some d => by_cases hid : d.id = key <;> simp [hd, hid, ih]

/-- In a scope filled anew, an ID has the declarations that the node introduces under it. -/
theorem Coherent.get_furnish (ht : t.Coherent) (key : String) (n : NodeId) :
    (t.furnish n {}).get key = t.introducedAs key n := by
  have hempty : ({} : Scope).get key = [] := rfl
  have hunder : Scope.under key (t.entries (t.introduced n)) = t.introducedAs key n :=
    under_entries t key _
  have hnodup : (t.introducedAs key n).Nodup := (ht.nodup_introduced n).filter _
  unfold furnish
  rw [Scope.get_addImports, Scope.get_insertAll] <;> rw [hempty, nil_append, hunder]
  exact hnodup

theorem imports_furnish (t : Tree) (n : NodeId) :
    (t.furnish n {}).imports = (t.moduleImports n).eraseDups := by
  have hempty : ({} : Scope).imports = [] := rfl
  unfold furnish
  rw [Scope.imports_addImports, Scope.imports_insertAll, hempty, nil_append]
  simp [List.removeAll]

/-! ## Building and looking up -/

namespace Rooted

variable (ht : t.Rooted)

include ht

/-- What building from the root puts into the scope of a node that is no struct type. -/
theorem scopeAt_buildScopes (hstruct : t.shape? n ≠ some .struct) :
    (t.clearScopes.buildScopes root).scopeAt n = if t.isAttached n then t.furnish n {} else {} := by
  have hsame := sameNodes_clearScopes t
  have hclear : t.clearScopes.Rooted := hsame.rooted ht
  have hnodes : ∀ n ∈ t.clearScopes.subtree root, t.clearScopes.Has n :=
    fun n hn ↦ hclear.has_of_mem_subtree hn
  have hmem : n ∈ t.clearScopes.subtree root ↔ t.isAttached n = true := by
    rw [hclear.mem_subtree_iff, isAttached, ht.isWithin_iff]
    exact ⟨hsame.sameLinks.within, hsame.symm.sameLinks.within⟩
  have hfilled := ((numbered_clearScopes t).foldl_buildScope hnodes).2 n
  have hlisted := listedAtStructs_buildScopes (numbered_clearScopes t) root hnodes
  have hshape : ((t.clearScopes.subtree root).foldl buildScope t.clearScopes).shape? n ≠ some .struct := by
    unfold shape? typeData? at hstruct ⊢
    rwa [(SameNodes.foldl sameNodes_buildScope _ _).kind_eq, hsame.kind_eq]
  rw [hlisted.scopeAt_eq hshape, hfilled, hsame.furnish_eq, scopeAt_clearScopes]
  exact if_congr hmem rfl rfl

theorem attached_of_mem_moduleImports (hm : m ∈ t.moduleImports n) :
    t.isAttached m = true ∧ t.shape? m ≠ some .struct := by
  unfold moduleImports importedModules at hm
  split at hm
  · obtain ⟨c, -, hc⟩ := mem_filterMap.1 hm
    split at hc
    · unfold findModule at hc
      have hheld := ht.parent_of_held (mem_children.1 (mem_of_find?_eq_some hc))
      refine ⟨ht.isWithin_iff.2 (.beneath hheld .here), fun hstruct ↦ ?_⟩
      obtain ⟨data, hdata, -⟩ := map_eq_some_iff.1 hstruct
      have hmodule := find?_some hc
      rw [declaration?, typeData?_eq_some_iff.1 hdata] at hmodule
      cases hmodule
    · cases hc
  · cases hm

theorem answer_buildScopes (hstruct : t.shape? n ≠ some .struct) :
    (t.clearScopes.buildScopes root).answer key n =
      if t.isAttached n then t.offered key n else [] := by
  have hsame := (sameNodes_clearScopes t).trans (sameNodes_buildScopes t.clearScopes root)
  have hexported : (t.clearScopes.buildScopes root).isExported = t.isExported := by
    unfold isExported declaration?
    rw [hsame.kinds_eq]
  unfold answer
  rw [ht.scopeAt_buildScopes hstruct, hexported]
  split
  · rw [ht.get_furnish, imports_furnish, offered]
    congr 1
    refine flatMap_congr fun m hm ↦ ?_
    obtain ⟨hattached, hshape⟩ := ht.attached_of_mem_moduleImports (mem_eraseDups.1 hm)
    rw [ht.scopeAt_buildScopes hshape, if_pos hattached, ht.get_furnish]
  · rfl

end Rooted

theorem firstNonempty_filter {path : List NodeId} {p : NodeId → Bool} {f g : NodeId → List NodeId}
    (h : ∀ m ∈ path, f m = if p m then g m else []) :
    firstNonempty (path.map f) = firstNonempty ((path.filter p).map g) := by
  induction path with
  | nil => rfl
  | cons n rest ih =>
    have hrest := ih fun m hm ↦ h m (mem_cons_of_mem n hm)
    rw [map_cons, firstNonempty_cons, h n mem_cons_self, hrest]
    cases hp : p n <;> simp [hp]

/-- Building the scopes from the root and looking an ID up gives the declarations that the closest
attached node offers, and none if no attached node offers any. Struct types are left out since
their scopes also list the methods declared elsewhere. -/
theorem lookup_buildScopes_eq_visible (ht : t.Rooted)
    (hstruct : ∀ m ∈ n :: t.ancestors n, t.shape? m ≠ some .struct) (key : String) :
    (t.clearScopes.buildScopes root).lookup n (.simple key) = t.visible n key ∧
      (t.visible n key = [] ↔ ∀ m ∈ n :: t.ancestors n, t.isAttached m → t.offered key m = []) := by
  have hsame := (sameNodes_clearScopes t).trans (sameNodes_buildScopes t.clearScopes root)
  constructor
  · unfold lookup visible
    rw [lookupAlong_simple, hsame.retold.ancestors_eq]
    exact firstNonempty_filter fun m hm ↦ ht.answer_buildScopes (hstruct m hm)
  · unfold visible
    rw [firstNonempty_eq_nil, List.forall_mem_map]
    simp only [mem_filter, and_imp]

/-- A module with a function whose local variable hides a parameter, which imports a module with an
exported variable and one that is not. -/
def shadowing : Tree := .ofRows [
  (.root, [15, 22]),
  (.shaped .bool, []),
  (.value, [1]),
  (.declares "x" (.parameter .input), [2, 0]),
  (.shaped .void, []),
  (.value, [4]),
  (.shaped .function, [5, 3]),
  (.value, [6]),
  (.shaped .bool, []),
  (.value, [8]),
  (.declares "x" .localVariable, [9, 0]),
  (.statement .declaration, [10]),
  (.statement .block, [11]),
  (.declares "f" (.function none none), [7, 12]),
  (.declares "b" (.importedModule "b"), []),
  (.declares "a" .module .external, [14, 13]),
  (.shaped .bool, []),
  (.value, [16]),
  (.declares "w" .globalVariable .external, [17, 0]),
  (.shaped .bool, []),
  (.value, [19]),
  (.declares "z" .globalVariable, [20, 0]),
  (.declares "b" .module .external, [18, 21])]

/-- In the block the local variable is seen, outside of it the parameter, and of the imported module
the exported variable only. -/
theorem lookup_buildScopes_shadowing :
    shadowing.Rooted ∧ (∀ m ∈ ⟨11⟩ :: shadowing.ancestors ⟨11⟩, shadowing.shape? m ≠ some .struct) ∧
      (shadowing.clearScopes.buildScopes root).lookup ⟨11⟩ (.simple "x") = [⟨10⟩] ∧
      (shadowing.clearScopes.buildScopes root).lookup ⟨7⟩ (.simple "x") = [⟨3⟩] ∧
      (shadowing.clearScopes.buildScopes root).lookup ⟨11⟩ (.simple "w") = [⟨18⟩] ∧
      (shadowing.clearScopes.buildScopes root).lookup ⟨11⟩ (.simple "z") = [] := by
  have hrooted : shadowing.Rooted := by decide +kernel
  have hblock : ∀ m ∈ ⟨11⟩ :: shadowing.ancestors ⟨11⟩, shadowing.shape? m ≠ some .struct := by
    decide +kernel
  have hsignature : ∀ m ∈ ⟨7⟩ :: shadowing.ancestors ⟨7⟩, shadowing.shape? m ≠ some .struct := by
    decide +kernel
  rw [(lookup_buildScopes_eq_visible hrooted hblock "x").1,
    (lookup_buildScopes_eq_visible hrooted hsignature "x").1,
    (lookup_buildScopes_eq_visible hrooted hblock "w").1,
    (lookup_buildScopes_eq_visible hrooted hblock "z").1]
  exact ⟨hrooted, hblock, by decide +kernel, by decide +kernel, by decide +kernel, by decide +kernel⟩

end ProtocolIR.Tree
