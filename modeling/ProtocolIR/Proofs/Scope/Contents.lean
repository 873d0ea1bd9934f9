import ProtocolIR.Proofs.Round.FixedPoint

/-!
# What scopes list

Scopes live in a table of their own and are reached through numbers. As long as no two nodes share
a number, what is listed at one node is not seen at another, and a scope may be read as something
that belongs to its node. Read so, building scopes lists at each node the declarations that the
node introduces, whatever the order of the visits, and methods are added at struct types only.
-/

namespace ProtocolIR

open List

namespace Scope

variable {scope : Scope} {id key : String} {d : NodeId} {entries : List (String × NodeId)}

/-! ## Scopes by themselves -/

theorem lookup_insertItem (id key : String) (d : NodeId) (items : List (String × List NodeId)) :
    ((insertItem id d items).lookup key).getD [] =
      if key = id then
        if d ∈ (items.lookup id).getD [] then (items.lookup id).getD []
        else (items.lookup id).getD [] ++ [d]
      else (items.lookup key).getD [] := by
  induction items with
  | nil =>
    by_cases hkey : key = id
    · simp [insertItem, hkey]
    · simp [insertItem, lookup_cons, beq_false_of_ne hkey, hkey]
  | cons item items ih =>
    obtain ⟨first, decls⟩ := item
    by_cases hfirst : first = id
    · subst hfirst
      by_cases hkey : key = first
      · subst hkey
        simp [insertItem]
      · simp [insertItem, lookup_cons, beq_false_of_ne hkey, hkey]
    · by_cases hkey : key = first
      · subst hkey
        simp [insertItem, hfirst]
      · simp only [insertItem, if_neg hfirst, lookup_cons, beq_false_of_ne hkey,
          beq_false_of_ne (Ne.symm hfirst)]
        exact ih

theorem get_insert (scope : Scope) (id key : String) (d : NodeId) :
    (scope.insert id d).get key =
      if key = id then if d ∈ scope.get id then scope.get id else scope.get id ++ [d]
      else scope.get key :=
  lookup_insertItem id key d scope.items

@[simp] theorem mem_get_insert {a : NodeId} :
    a ∈ (scope.insert id d).get key ↔ a ∈ scope.get key ∨ key = id ∧ a = d := by
  rw [get_insert]
  split
  next hkey =>
    subst hkey
    split
    next hd =>
      constructor
      · exact .inl
      · rintro (ha | ⟨-, rfl⟩)
        · exact ha
        · exact hd
    · simp
  next hkey => simp [hkey]

theorem insert_of_mem (h : d ∈ scope.get id) : scope.insert id d = scope := by
  have hitems : ∀ items : List (String × List NodeId), d ∈ (items.lookup id).getD [] →
      insertItem id d items = items := by
    intro items
    induction items with
    | nil => simp
    | cons item items ih =>
      obtain ⟨first, decls⟩ := item
      by_cases hfirst : first = id
      · subst hfirst
        simp only [lookup_cons_self, Option.getD_some, insertItem]
        intro hd
        simp [hd]
      · simp only [lookup_cons, beq_false_of_ne (Ne.symm hfirst), insertItem, if_neg hfirst]
        intro hd
        rw [ih hd]
  unfold insert
  rw [hitems scope.items h]

/-- Lists declarations one after the other. -/
def insertAll (scope : Scope) (entries : List (String × NodeId)) : Scope :=
  entries.foldl (fun scope entry ↦ scope.insert entry.1 entry.2) scope

theorem mem_get_insertAll :
    d ∈ (scope.insertAll entries).get key ↔ d ∈ scope.get key ∨ (key, d) ∈ entries := by
  induction entries generalizing scope with
  | nil => simp [insertAll]
  | cons entry entries ih =>
    have hpair : (key, d) = entry ↔ key = entry.1 ∧ d = entry.2 := Prod.ext_iff
    rw [insertAll, foldl_cons, ← insertAll, ih, mem_get_insert, mem_cons, hpair, or_assoc]

theorem insertAll_of_mem (h : ∀ entry ∈ entries, entry.2 ∈ scope.get entry.1) :
    scope.insertAll entries = scope := by
  induction entries with
  | nil => rfl
  | cons entry entries ih =>
    rw [insertAll, foldl_cons, insert_of_mem (h entry mem_cons_self), ← insertAll]
    exact ih fun entry hentry ↦ h entry (mem_cons_of_mem _ hentry)

/-- The declarations that some entries give for an ID. -/
def under (key : String) (entries : List (String × NodeId)) : List NodeId :=
  (entries.filter fun entry ↦ entry.1 == key).map Prod.snd

/-- Distinct declarations are listed in the order in which they come. -/
theorem get_insertAll (h : (scope.get key ++ under key entries).Nodup) :
    (scope.insertAll entries).get key = scope.get key ++ under key entries := by
  induction entries generalizing scope with
  | nil => simp [insertAll, under]
  | cons entry entries ih =>
    obtain ⟨id, d⟩ := entry
    rw [insertAll, foldl_cons, ← insertAll]
    by_cases hid : id = key
    · subst hid
      have hunder : under id ((id, d) :: entries) = d :: under id entries := by simp [under]
      rw [hunder] at h ⊢
      have hnew : d ∉ scope.get id := fun hd ↦
        (nodup_append.1 h).2.2 d hd d mem_cons_self rfl
      have hget : (scope.insert id d).get id = scope.get id ++ [d] := by
        rw [get_insert, if_pos rfl, if_neg hnew]
      rw [ih (by rw [hget, append_assoc]; exact h), hget, append_assoc]
      rfl
    · have hunder : under key ((id, d) :: entries) = under key entries := by
        simp [under, hid]
      have hget : (scope.insert id d).get key = scope.get key := by
        rw [get_insert, if_neg (Ne.symm hid)]
      rw [hunder] at h ⊢
      rw [ih (by rw [hget]; exact h), hget]

@[simp] theorem imports_insertAll (entries : List (String × NodeId)) :
    (scope.insertAll entries).imports = scope.imports := by
  induction entries generalizing scope with
  | nil => rfl
  | cons entry entries ih => rw [insertAll, foldl_cons, ← insertAll, ih]; rfl

theorem items_addImport (scope : Scope) (module : NodeId) :
    (scope.addImport module).items = scope.items := by
  unfold addImport
  split <;> rfl

@[simp] theorem get_addImports (modules : List NodeId) :
    (modules.foldl addImport scope).get key = scope.get key := by
  induction modules generalizing scope with
  | nil => rfl
  | cons module modules ih =>
    rw [foldl_cons, ih]
    unfold get
    rw [items_addImport]

theorem addImports_of_mem {modules : List NodeId} (h : ∀ m ∈ modules, m ∈ scope.imports) :
    modules.foldl addImport scope = scope := by
  induction modules with
  | nil => rfl
  | cons module modules ih =>
    rw [foldl_cons, addImport, if_pos (h module mem_cons_self)]
    exact ih fun m hm ↦ h m (mem_cons_of_mem _ hm)

/-- Modules are added in the order in which they come, each once. -/
theorem imports_addImports (modules : List NodeId) :
    (modules.foldl addImport scope).imports =
      scope.imports ++ (modules.removeAll scope.imports).eraseDups := by
  induction modules generalizing scope with
  | nil => simp
  | cons module modules ih =>
    rw [foldl_cons, ih]
    unfold addImport
    split
    next hm => rw [cons_removeAll]; simp [hm]
    next hm =>
      have hfilter : (modules.removeAll scope.imports).filter (fun m ↦ !m == module) =
          modules.removeAll (scope.imports ++ [module]) := by
        unfold removeAll
        rw [filter_filter]
        refine filter_congr fun m _ ↦ ?_
        by_cases heq : m = module <;> simp [heq]
      rw [cons_removeAll, ← hfilter]
      simp [hm, eraseDups_cons]

end Scope

namespace Tree

variable {t : Tree} {n m : NodeId}

/-! ## Scopes at nodes -/

/-- The scope at a node, empty if there is none. -/
def scopeAt (t : Tree) (n : NodeId) : Scope := ((t.scopeOf n).map t.scope).getD {}

/-- The numbers of scopes are those of the table, and each belongs to one node. -/
structure Numbered (t : Tree) : Prop where
  lt_size : ∀ {n s}, t.scopeOf n = some s → s.index < t.scopes.size
  eq_of_shared : ∀ {n m s}, t.scopeOf n = some s → t.scopeOf m = some s → n = m

/-- Changes the scope at a node, which is made if there is none. -/
def amendScope (t : Tree) (n : NodeId) (f : Scope → Scope) : Tree :=
  (t.openScope n).2.modifyScope (t.openScope n).1 f

theorem listInScope_eq (t : Tree) (n : NodeId) (entries : List (String × NodeId)) :
    t.listInScope n entries = t.amendScope n fun scope ↦ scope.insertAll entries := rfl

theorem scope_modifyScope (t : Tree) (s r : ScopeId) (f : Scope → Scope) :
    (t.modifyScope s f).scope r =
      if r = s ∧ s.index < t.scopes.size then f (t.scope s) else t.scope r := by
  unfold modifyScope scope
  simp only [Array.getElem?_modify]
  by_cases hr : r = s
  · subst hr
    by_cases hlt : r.index < t.scopes.size
    · simp [hlt]
    · simp [hlt]
  · have hindex : s.index ≠ r.index := fun h ↦ hr (by cases r; cases s; cases h; rfl)
    simp [hr, hindex]

namespace Numbered

/-- Opening a scope at a node gives it an empty one if it had none, and leaves the others alone. -/
theorem openScope (ht : t.Numbered) (hn : t.Has n) :
    (t.openScope n).2.Numbered ∧ (t.openScope n).2.scopeOf n = some (t.openScope n).1 ∧
      ∀ m, (t.openScope n).2.scopeAt m = t.scopeAt m := by
  cases hscope : t.scopeOf n with
  | some s =>
    have hopen : t.openScope n = (s, t) := by unfold Tree.openScope; rw [hscope]
    rw [hopen]
    exact ⟨ht, hscope, fun _ ↦ rfl⟩
  | none =>
    have hof : ∀ m, (t.openScope n).2.scopeOf m =
        if m = n then some ⟨t.scopes.size⟩ else t.scopeOf m := by
      intro m
      unfold Tree.openScope
      rw [hscope]
      show ((Tree.modifyNode _ n _).node m).scope = _
      rw [node_modifyNode]
      by_cases hm : m = n
      · subst hm
        rw [if_pos ⟨rfl, hn⟩, if_pos rfl]
      · rw [if_neg fun h ↦ hm h.1, if_neg hm]
        rfl
    have hscopes : (t.openScope n).2.scopes = t.scopes.push {} := by
      unfold Tree.openScope
      rw [hscope]
      rfl
    have hnumber : (t.openScope n).1 = ⟨t.scopes.size⟩ := by
      unfold Tree.openScope
      rw [hscope]
    refine ⟨⟨fun {m s} hm ↦ ?_, fun {a b s} ha hb ↦ ?_⟩, by rw [hof, if_pos rfl, hnumber], fun m ↦ ?_⟩
    · rw [hscopes, Array.size_push]
      rw [hof] at hm
      split at hm
      · cases hm; exact Nat.lt_succ_self _
      · exact Nat.lt_succ_of_lt (ht.lt_size hm)
    · rw [hof] at ha hb
      split at ha <;> split at hb
      next ha' hb' => exact ha'.trans hb'.symm
      · cases ha; exact absurd (ht.lt_size hb) (Nat.lt_irrefl _)
      · cases hb; exact absurd (ht.lt_size ha) (Nat.lt_irrefl _)
      · exact ht.eq_of_shared ha hb
    · unfold scopeAt scope
      rw [hof, hscopes]
      by_cases hm : m = n
      · subst hm
        rw [if_pos rfl, hscope]
        simp
      · rw [if_neg hm]
        cases hs : t.scopeOf m with
        | none => rfl
        | some s =>
          have hlt := ht.lt_size hs
          simp [Array.getElem?_push, Nat.ne_of_lt hlt]

/-- What is changed at one node is not seen at another. -/
theorem amendScope (ht : t.Numbered) (hn : t.Has n) (f : Scope → Scope) :
    (t.amendScope n f).Numbered ∧
      ∀ m, (t.amendScope n f).scopeAt m = if m = n then f (t.scopeAt n) else t.scopeAt m := by
  obtain ⟨hopen, hnumber, hat⟩ := ht.openScope hn
  have hsize : ((t.openScope n).2.modifyScope (t.openScope n).1 f).scopes.size =
      (t.openScope n).2.scopes.size := Array.size_modify
  have hof : ∀ m, (t.amendScope n f).scopeOf m = (t.openScope n).2.scopeOf m := fun _ ↦ rfl
  refine ⟨⟨fun hm ↦ ?_, fun ha hb ↦ hopen.eq_of_shared ha hb⟩, fun m ↦ ?_⟩
  · exact hsize ▸ hopen.lt_size hm
  · rw [← hat m, ← hat n]
    unfold scopeAt
    rw [hof]
    unfold Tree.amendScope
    by_cases hm : m = n
    · subst hm
      rw [if_pos rfl, hnumber]
      simp [scope_modifyScope, hopen.lt_size hnumber]
    · rw [if_neg hm]
      cases hs : (t.openScope n).2.scopeOf m with
      | none => rfl
      | some s =>
        have hne : s ≠ (t.openScope n).1 := by
          rintro rfl
          exact hm (hopen.eq_of_shared hs hnumber)
        simp [scope_modifyScope, hne]

end Numbered

theorem numbered_clearScopes (t : Tree) : t.clearScopes.Numbered := by
  have hnone := scopeOf_clearScopes t
  exact ⟨fun hn ↦ (by rw [hnone] at hn; cases hn), fun hn ↦ (by rw [hnone] at hn; cases hn)⟩

theorem scopeAt_clearScopes (t : Tree) (n : NodeId) : t.clearScopes.scopeAt n = {} := by
  unfold scopeAt
  rw [scopeOf_clearScopes]
  rfl

/-! ## What a node introduces -/

/-- The declarations that a node introduces for what lies beneath it. A module introduces itself
too. -/
def introduced (t : Tree) (n : NodeId) : List NodeId :=
  match t.kind n with
  | .declaration d =>
    match d.kind with
    | .module => t.childrenFrom n 0 .declaration ++ [n]
    | .function .. => t.parameters n
    | _ => []
  | .statement .block => t.blockLocals n
  | .type data =>
    match data.shape with
    | .enumeration | .struct | .union => t.childrenFrom n 0 .declaration
    | _ => []
  | _ => []

/-- The modules that the import declarations of a module name. -/
def moduleImports (t : Tree) (n : NodeId) : List NodeId :=
  if (t.declaration? n).any fun d ↦ d.kind == .module then
    t.importedModules (t.childrenFrom n 0 .declaration)
  else []

/-- A scope with what a node introduces and imports. -/
def furnish (t : Tree) (n : NodeId) (scope : Scope) : Scope :=
  (t.moduleImports n).foldl Scope.addImport (scope.insertAll (t.entries (t.introduced n)))

theorem mem_entries {ns : List NodeId} {id : String} :
    (id, n) ∈ t.entries ns ↔ n ∈ ns ∧ ∃ d, t.declaration? n = some d ∧ d.id = id := by
  unfold entries
  rw [mem_filterMap]
  constructor
  · rintro ⟨a, ha, hentry⟩
    obtain ⟨d, hd, heq⟩ := Option.map_eq_some_iff.1 hentry
    cases heq
    exact ⟨ha, d, hd, rfl⟩
  · rintro ⟨hn, d, hd, rfl⟩
    exact ⟨n, hn, by rw [hd]; rfl⟩

theorem entries_append (t : Tree) (ns ms : List NodeId) :
    t.entries (ns ++ ms) = t.entries ns ++ t.entries ms := filterMap_append

@[simp] theorem furnish_furnish (t : Tree) (n : NodeId) (scope : Scope) :
    t.furnish n (t.furnish n scope) = t.furnish n scope := by
  have hitems : (t.furnish n scope).insertAll (t.entries (t.introduced n)) = t.furnish n scope := by
    apply Scope.insertAll_of_mem
    intro entry hentry
    unfold furnish
    rw [Scope.get_addImports, Scope.mem_get_insertAll]
    exact .inr hentry
  have himports : ∀ m ∈ t.moduleImports n, m ∈ (t.furnish n scope).imports := by
    intro m hm
    unfold furnish
    rw [Scope.imports_addImports, mem_append, mem_eraseDups, removeAll, mem_filter]
    by_cases hold : m ∈ (scope.insertAll (t.entries (t.introduced n))).imports
    · exact .inl hold
    · exact .inr ⟨hm, by simpa using hold⟩
  rw [furnish, hitems, Scope.addImports_of_mem himports]

section

variable {t' : Tree}

variable (h : SameNodes t t')

include h

theorem SameNodes.kinds_eq : t'.kind = t.kind := funext h.kind_eq

theorem SameNodes.slots_eq : t'.slots = t.slots := funext h.sameLinks.slots

theorem SameNodes.retold : Retold t t' := by
  refine ⟨h.size_eq, fun n ↦ ?_, h.slots_eq, funext h.sameLinks.parent⟩
  rw [h.kind_eq]
  cases t.kind n with
  | type data => exact ⟨data.unification, rfl⟩
  | _ => exact ⟨none, rfl⟩

theorem SameNodes.entries_eq : t'.entries = t.entries := by
  unfold entries declaration?
  rw [h.kinds_eq]

theorem SameNodes.introduced_eq : t'.introduced = t.introduced := by
  unfold introduced parameters blockLocals childrenFrom children child unqualified child
  rw [h.kinds_eq, h.slots_eq]

theorem SameNodes.moduleImports_eq : t'.moduleImports = t.moduleImports := by
  unfold moduleImports importedModules findModule children childrenFrom declaration?
  rw [h.kinds_eq, h.slots_eq]

theorem SameNodes.itemsWithin_eq (fuel : Nat) : t'.itemsWithin fuel = t.itemsWithin fuel := by
  induction fuel with
  | zero => rfl
  | succ fuel ih =>
    funext n
    unfold itemsWithin childrenFrom child
    rw [h.kinds_eq, h.slots_eq, ih]

theorem SameNodes.unitEntries_eq : t'.unitEntries = t.unitEntries := by
  unfold unitEntries unitItems itemId? childrenFrom
  rw [h.entries_eq, h.kinds_eq, h.slots_eq, h.size_eq, h.itemsWithin_eq]

theorem SameNodes.furnish_eq : t'.furnish = t.furnish := by
  unfold furnish
  rw [h.entries_eq, h.introduced_eq, h.moduleImports_eq]

end

/-! ## Building at one node after another -/

/-- Building at a node does nothing, lists what the node introduces, or does this and adds the
imports of a module. -/
theorem buildScope_cases (t : Tree) (n : NodeId) :
    (t.buildScope n = t ∧ t.introduced n = [] ∧ t.moduleImports n = []) ∨
      (t.buildScope n = t.listInScope n (t.entries (t.introduced n)) ∧ t.moduleImports n = []) ∨
        t.buildScope n = (t.listInScope n (t.entries (t.introduced n))).amendScope n
          fun scope ↦ (t.moduleImports n).foldl Scope.addImport scope := by
  unfold buildScope introduced moduleImports declaration?
  cases t.kind n with
  | declaration d =>
    obtain ⟨id, linkage, canonicalId, kind⟩ := d
    cases kind with
    | module =>
      refine .inr (.inr ?_)
      simp only [entries_append]
      rfl
    | function owner prototype => exact .inr (.inl ⟨rfl, rfl⟩)
    | _ => exact .inl ⟨rfl, rfl, rfl⟩
  | statement s =>
    cases s with
    | block => exact .inr (.inl ⟨rfl, rfl⟩)
    | _ => exact .inl ⟨rfl, rfl, rfl⟩
  | type data =>
    obtain ⟨shape, _⟩ := data
    cases shape with
    | enumeration | struct | union => exact .inr (.inl ⟨rfl, rfl⟩)
    | _ => exact .inl ⟨rfl, rfl, rfl⟩
  | _ => exact .inl ⟨rfl, rfl, rfl⟩

namespace Numbered

variable {nodes : List NodeId}

/-- Building at a node fills its scope and leaves the others alone. -/
theorem buildScope (ht : t.Numbered) (hn : t.Has n) :
    (t.buildScope n).Numbered ∧
      ∀ m, (t.buildScope n).scopeAt m = if m = n then t.furnish n (t.scopeAt n) else t.scopeAt m := by
  obtain ⟨hlisted, hat⟩ := ht.amendScope hn fun scope ↦ scope.insertAll (t.entries (t.introduced n))
  rw [← listInScope_eq] at hlisted hat
  unfold furnish
  rcases buildScope_cases t n with ⟨heq, hnone, himports⟩ | ⟨heq, himports⟩ | heq
  · rw [heq, himports, hnone]
    refine ⟨ht, fun m ↦ ?_⟩
    split
    next hm => rw [hm]; rfl
    · rfl
  · rw [heq, himports]
    exact ⟨hlisted, hat⟩
  · have hhas := ((sameNodes_listInScope t n (t.entries (t.introduced n))).has_iff n).2 hn
    obtain ⟨hamended, hat'⟩ := hlisted.amendScope hhas fun scope ↦
      (t.moduleImports n).foldl Scope.addImport scope
    rw [heq]
    refine ⟨hamended, fun m ↦ ?_⟩
    rw [hat', hat n, hat m, if_pos rfl]
    split <;> rfl

/-- Visits that fill the scope of the visited node and leave the others alone fill the scopes of
the visited nodes, if to fill a scope twice is to fill it once. -/
theorem foldl (build : Tree → NodeId → Tree) (fill : Tree → NodeId → Scope → Scope)
    (hsame : ∀ t n, SameNodes t (build t n))
    (hfill : ∀ {t t' : Tree}, SameNodes t t' → fill t' = fill t)
    (htwice : ∀ t n scope, fill t n (fill t n scope) = fill t n scope)
    (hbuild : ∀ {t : Tree} {n : NodeId}, t.Numbered → t.Has n → (build t n).Numbered ∧
      ∀ m, (build t n).scopeAt m = if m = n then fill t n (t.scopeAt n) else t.scopeAt m)
    (ht : t.Numbered) (hnodes : ∀ n ∈ nodes, t.Has n) :
    (nodes.foldl build t).Numbered ∧ ∀ m, (nodes.foldl build t).scopeAt m =
      if m ∈ nodes then fill t m (t.scopeAt m) else t.scopeAt m := by
  induction nodes generalizing t with
  | nil => exact ⟨ht, fun m ↦ (if_neg not_mem_nil).symm⟩
  | cons n rest ih =>
    obtain ⟨hnumbered, hat⟩ := hbuild ht (hnodes n mem_cons_self)
    have hrest : ∀ m ∈ rest, (build t n).Has m := fun m hm ↦
      ((hsame t n).has_iff m).2 (hnodes m (mem_cons_of_mem n hm))
    obtain ⟨hfolded, hfold⟩ := ih hnumbered hrest
    refine ⟨hfolded, fun m ↦ ?_⟩
    rw [foldl_cons, hfold, hfill (hsame t n), hat]
    by_cases hm : m = n
    · subst hm
      simp [htwice]
    · simp [hm]

theorem foldl_buildScope (ht : t.Numbered) (hnodes : ∀ n ∈ nodes, t.Has n) :
    (nodes.foldl Tree.buildScope t).Numbered ∧ ∀ m, (nodes.foldl Tree.buildScope t).scopeAt m =
      if m ∈ nodes then t.furnish m (t.scopeAt m) else t.scopeAt m :=
  foldl _ _ sameNodes_buildScope SameNodes.furnish_eq furnish_furnish Numbered.buildScope ht hnodes

theorem foldl_unitEntries (ht : t.Numbered) (hnodes : ∀ n ∈ nodes, t.Has n) :
    (nodes.foldl (fun t unit ↦ t.listInScope unit (t.unitEntries unit)) t).Numbered ∧
      ∀ m, (nodes.foldl (fun t unit ↦ t.listInScope unit (t.unitEntries unit)) t).scopeAt m =
        if m ∈ nodes then (t.scopeAt m).insertAll (t.unitEntries m) else t.scopeAt m := by
  refine foldl _ (fun t n scope ↦ scope.insertAll (t.unitEntries n))
    (fun t n ↦ sameNodes_listInScope t n _) (fun h ↦ by rw [h.unitEntries_eq]) (fun t n scope ↦ ?_)
    (fun ht hn ↦ ht.amendScope hn _) ht hnodes
  exact Scope.insertAll_of_mem fun entry hentry ↦ Scope.mem_get_insertAll.2 (.inr hentry)

end Numbered

/-! ## Methods -/

/-- A function whose ID says which type it belongs to. -/
def IsMethod (t : Tree) (n : NodeId) : Prop :=
  ∃ d, t.declaration? n = some d ∧ d.kind.isFunction = true ∧ (methodId? d.id).isSome = true

theorem IsMethod.isFunction (h : t.IsMethod n) : (t.kind n).isFunction = true := by
  obtain ⟨d, hd, hfunction, -⟩ := h
  unfold NodeKind.isFunction
  rw [show (t.kind n).declaration? = some d from hd]
  exact hfunction

theorem SameNodes.isMethod_iff {t' : Tree} (h : SameNodes t t') : t'.IsMethod n ↔ t.IsMethod n := by
  unfold IsMethod declaration?
  rw [h.kind_eq]

/-- One tree comes from another by listing some declarations at struct types. -/
structure ListedAtStructs (methods : NodeId → Prop) (t t' : Tree) : Prop where
  sameNodes : SameNodes t t'
  numbered : t'.Numbered
  scopeAt_eq : ∀ {m}, t.shape? m ≠ some .struct → t'.scopeAt m = t.scopeAt m
  listed : ∀ {m key d}, d ∈ (t'.scopeAt m).get key → d ∈ (t.scopeAt m).get key ∨ methods d

namespace ListedAtStructs

variable {methods : NodeId → Prop} {t₁ t₂ : Tree}

theorem refl (ht : t.Numbered) : ListedAtStructs methods t t :=
  ⟨.refl t, ht, fun _ ↦ rfl, .inl⟩

theorem trans (h : ListedAtStructs methods t t₁) (h' : ListedAtStructs methods t₁ t₂) :
    ListedAtStructs methods t t₂ where
  sameNodes := h.sameNodes.trans h'.sameNodes
  numbered := h'.numbered
  scopeAt_eq {m} hm := by
    have hm' : t₁.shape? m ≠ some .struct := by
      unfold shape? typeData? at hm ⊢
      rwa [h.sameNodes.kind_eq]
    rw [h'.scopeAt_eq hm', h.scopeAt_eq hm]
  listed hd := by
    rcases h'.listed hd with hd | hd
    · exact h.listed hd
    · exact .inr hd

theorem foldl {ι : Type} {f : Tree → ι → Tree} {l : List ι}
    (hf : ∀ i ∈ l, ∀ t', SameNodes t t' → t'.Numbered → ListedAtStructs methods t' (f t' i))
    (ht : t.Numbered) : ListedAtStructs methods t (l.foldl f t) := by
  induction l generalizing t with
  | nil => exact refl ht
  | cons i l ih =>
    have hi := hf i mem_cons_self t (.refl t) ht
    refine hi.trans (ih (fun j hj t' ht' hnumbered ↦ ?_) hi.numbered)
    exact hf j (mem_cons_of_mem i hj) t' (hi.sameNodes.trans ht') hnumbered

theorem listMethod (ht : t.Numbered) (name : String) {method : NodeId} (hmethod : methods method)
    (owner : NodeId) : ListedAtStructs methods t (t.listMethod name method owner) := by
  unfold Tree.listMethod
  cases t.declaredType owner with
  | none => exact refl ht
  | some u =>
    by_cases hu : t.shape? u = some .struct
    · have hhas : t.Has u := by
        apply has_of_kind
        intro hkind
        unfold shape? typeData? at hu
        rw [hkind] at hu
        cases hu
      obtain ⟨hnumbered, hat⟩ := ht.amendScope hhas fun scope ↦ scope.insertAll [(name, method)]
      simp only [hu, beq_self_eq_true, if_pos]
      refine ⟨sameNodes_listInScope _ _ _, hnumbered, fun {m} hm ↦ ?_, fun {m key d} hd ↦ ?_⟩
      · rw [listInScope_eq, hat, if_neg]
        rintro rfl
        exact hm hu
      · rw [listInScope_eq, hat] at hd
        split at hd
        next hmu =>
          rw [Scope.mem_get_insertAll, mem_singleton] at hd
          rcases hd with hd | hd
          · exact .inl (hmu ▸ hd)
          · cases hd
            exact .inr hmethod
        · exact .inl hd
    · simp only [beq_false_of_ne hu]
      exact refl ht

theorem registerMethod (ht : t.Numbered) (n : NodeId) (hn : t.IsMethod n → methods n) :
    ListedAtStructs methods t (t.registerMethod n) := by
  unfold Tree.registerMethod
  split
  · exact refl ht
  next d hd =>
    obtain ⟨hd, hfunction⟩ := Option.filter_eq_some_iff.1 hd
    split
    next hid _ =>
      have hmethod : methods n := hn ⟨d, hd, hfunction, by rw [hid]; rfl⟩
      exact foldl (fun owner _ t' _ ht' ↦ listMethod ht' _ hmethod owner) ht
    · exact refl ht

end ListedAtStructs

/-- After the scopes of the nodes are filled, building only lists methods at struct types. -/
theorem listedAtStructs_buildScopes (ht : t.Numbered) (start : NodeId)
    (hnodes : ∀ n ∈ t.subtree start, t.Has n) :
    ListedAtStructs (fun d ↦ d ∈ t.subtree start ∧ t.IsMethod d)
      ((t.subtree start).foldl buildScope t) (t.buildScopes start) := by
  have hsame := SameNodes.foldl sameNodes_buildScope (t.subtree start) t
  refine .foldl (fun n hn t' ht' hnumbered ↦ .registerMethod hnumbered n fun hmethod ↦ ⟨hn, ?_⟩)
    (ht.foldl_buildScope hnodes).1
  rwa [(hsame.trans ht').isMethod_iff] at hmethod

/-! ## Building from the root -/

namespace Rooted

variable (ht : t.Rooted) {a : NodeId}

include ht

theorem mem_subtree_iff : n ∈ t.subtree root ↔ t.Within root n := by
  exact ⟨ht.within_of_mem_ordered .pre, fun hn ↦ ht.mem_ordered .pre (hn.has ht.has_root) hn⟩

theorem has_of_mem_subtree (hn : n ∈ t.subtree root) : t.Has n :=
  ht.has_of_mem_ordered ht.has_root .pre hn

/-- Building for units lists the entries of attached units. -/
theorem listed_buildUnitScopes :
    (t.clearScopes.buildUnitScopes root).Numbered ∧ ∀ {m key a},
      a ∈ ((t.clearScopes.buildUnitScopes root).scopeAt m).get key →
        t.Within root m ∧ t.shape? m = some .unit ∧ (key, a) ∈ t.unitEntries m := by
  have hsame := sameNodes_clearScopes t
  have hclear : t.clearScopes.Rooted := hsame.rooted ht
  have hnodes : ∀ n ∈ t.clearScopes.units root, t.clearScopes.Has n := fun n hn ↦
    hclear.has_of_mem_subtree (mem_filter.1 hn).1
  obtain ⟨hnumbered, hat⟩ := (numbered_clearScopes t).foldl_unitEntries hnodes
  refine ⟨hnumbered, fun {m key a} h ↦ ?_⟩
  unfold buildUnitScopes at h
  rw [hat, scopeAt_clearScopes, hsame.unitEntries_eq] at h
  split at h
  next hm =>
    obtain ⟨hm, hunit⟩ := mem_filter.1 hm
    rw [shape?, typeData?, hsame.kind_eq] at hunit
    rcases Scope.mem_get_insertAll.1 h with h | h
    · cases h
    · exact ⟨hsame.sameLinks.within (hclear.mem_subtree_iff.1 hm), beq_iff_eq.1 hunit, h⟩
  · cases h

/-- What is listed at a node after building: what was, what the node introduces, or at a struct type
a method. -/
theorem listed_buildScopes (hnumbered : t.Numbered) {key : String}
    (h : a ∈ ((t.buildScopes root).scopeAt n).get key) :
    a ∈ (t.scopeAt n).get key ∨ (t.Within root n ∧ (key, a) ∈ t.entries (t.introduced n)) ∨
      (t.Within root a ∧ t.shape? n = some .struct ∧ t.IsMethod a) := by
  have hnodes : ∀ n ∈ t.subtree root, t.Has n := fun n hn ↦ ht.has_of_mem_subtree hn
  have hfilled : ∀ {m}, m ∈ (((t.subtree root).foldl buildScope t).scopeAt n).get key →
      m ∈ (t.scopeAt n).get key ∨ (t.Within root n ∧ (key, m) ∈ t.entries (t.introduced n)) := by
    intro m h
    rw [(hnumbered.foldl_buildScope hnodes).2] at h
    split at h
    next hn =>
      rw [furnish, Scope.get_addImports, Scope.mem_get_insertAll] at h
      exact h.imp_right fun h ↦ ⟨ht.mem_subtree_iff.1 hn, h⟩
    · exact .inl h
  have hlisted := listedAtStructs_buildScopes hnumbered root hnodes
  by_cases hstruct : t.shape? n = some .struct
  · rcases hlisted.listed h with h | ⟨hm, hmethod⟩
    · exact (hfilled h).imp_right .inl
    · exact .inr (.inr ⟨ht.mem_subtree_iff.1 hm, hstruct, hmethod⟩)
  · have hshape : ((t.subtree root).foldl buildScope t).shape? n ≠ some .struct := by
      unfold shape? typeData? at hstruct ⊢
      rwa [(SameNodes.foldl sameNodes_buildScope _ _).kind_eq]
    rw [hlisted.scopeAt_eq hshape] at h
    exact (hfilled h).imp_right .inl

/-- What is listed at a node after the scopes of both languages are built: what a unit lists, what
the node introduces, or a method. -/
theorem listed_of_mem_get {key : String}
    (h : a ∈ (((t.clearScopes.buildUnitScopes root).buildScopes root).scopeAt n).get key) :
    (t.Within root n ∧ t.shape? n = some .unit ∧ (key, a) ∈ t.unitEntries n) ∨
      (t.Within root n ∧ (key, a) ∈ t.entries (t.introduced n)) ∨
        (t.Within root a ∧ (t.kind a).isFunction = true) := by
  obtain ⟨hnumbered, hunit⟩ := ht.listed_buildUnitScopes
  have hsame := (sameNodes_clearScopes t).trans (sameNodes_buildUnitScopes t.clearScopes root)
  rcases (hsame.rooted ht).listed_buildScopes hnumbered h with h | ⟨hn, h⟩ | ⟨ha, -, hmethod⟩
  · exact .inl (hunit h)
  · rw [hsame.entries_eq, hsame.introduced_eq] at h
    exact .inr (.inl ⟨hsame.sameLinks.within hn, h⟩)
  · exact .inr (.inr ⟨hsame.sameLinks.within ha, (hsame.isMethod_iff.1 hmethod).isFunction⟩)

end Rooted

end Tree

end ProtocolIR
