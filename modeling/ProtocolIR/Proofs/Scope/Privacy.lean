import ProtocolIR.Proofs.Scope.Lexical
import ProtocolIR.Proofs.Scope.Unique

/-!
# What is seen of another module

A declaration that its module does not export is meant for that module only. A scope that answers a
single ID from the modules it imports keeps to this. A path does not: once its first segments lead
to a module, the rest is answered by the scope of that module, whatever is exported. A method does
not either, since it is listed at the type it belongs to, wherever that is declared. There is no
third way in.
-/

namespace ProtocolIR.Tree

open List Option

variable {t s : Tree} {n m a b d head : NodeId} {key : String} {scope : ScopeId} {imports : Bool}

/-! ## Following a path -/

/-- The declarations that a path comes to if it is followed from a scope segment by segment. Imports
are followed at the first segment at most. -/
inductive Names (t : Tree) : ScopeId → Bool → List String → NodeId → Prop
  | last {scope imports id n} : n ∈ t.lookupSimple scope id imports 0 → Names t scope imports [id] n
  | onward {scope inner imports first rest head n} : head ∈ t.lookupSimple scope first imports 0 →
      t.namespaceScope head = some inner → Names t inner false rest n →
      Names t scope imports (first :: rest) n

/-- The module that a declaration stands for. -/
def moduleMeant (t : Tree) (n : NodeId) : Option NodeId :=
  match (t.declaration? n).map Declaration.kind with
  | some .module => some n
  | some (.importedModule module) => t.findModule module
  | _ => none

/-- From a scope, the first segments of a path come to a module, and the scope of the module answers
the rest. -/
def AnsweredBy (t : Tree) (scope : ScopeId) (imports : Bool) (segments : List String)
    (b d : NodeId) :
    Prop :=
  ∃ first rest head inner, segments = first ++ rest ∧ t.Names scope imports first head ∧
    t.moduleMeant head = some b ∧ t.scopeOf b = some inner ∧ d ∈ t.lookupSegments rest inner false 0

theorem Names.ne_nil {path : List String} (h : t.Names scope imports path n) : path ≠ [] := by
  cases h <;> exact cons_ne_nil _ _

theorem AnsweredBy.not_isSimple {id : QualifiedId}
    (h : t.AnsweredBy scope imports id.segments b d) : id.isSimple = false := by
  obtain ⟨first, rest, head, inner, hsegments, hnames, -, -, hd⟩ := h
  have hfirst := length_pos_iff.2 hnames.ne_nil
  have hrest : 0 < rest.length := by
    cases rest with
    | nil => cases hd
    | cons id rest => exact Nat.succ_pos _
  have hlength := congrArg List.length hsegments
  rw [QualifiedId.length_segments, length_append, QualifiedId.length] at hlength
  unfold QualifiedId.isSimple
  rw [← Bool.not_eq_true, isEmpty_iff_length_eq_zero]
  omega

theorem lookupSimple_false (t : Tree) (scope : ScopeId) (id : String) (depth : Nat) :
    t.lookupSimple scope id false depth = (t.scope scope).get id := by
  unfold lookupSimple
  cases (t.scope scope).get id <;> rfl

/-- The depth is of no account where imports are not followed. -/
theorem lookupSegments_false (t : Tree) (segments : List String) (scope : ScopeId) (depth : Nat) :
    t.lookupSegments segments scope false depth = t.lookupSegments segments scope false 0 := by
  induction segments generalizing scope depth with
  | nil => rfl
  | cons first rest ih =>
    cases rest with
    | nil => exact (lookupSimple_false t scope first depth).trans (lookupSimple_false t scope first 0).symm
    | cons second rest =>
      unfold lookupSegments
      rw [lookupSimple_false, lookupSimple_false]
      simp only [ih _ (depth + 1), ih _ (0 + 1)]

/-- A scope answers a single ID with what it lists, or with what modules export. -/
theorem mem_lookupSimple {id : String} {depth : Nat}
    (h : d ∈ t.lookupSimple scope id imports depth) :
    d ∈ (t.scope scope).get id ∨ t.isExported d = true := by
  unfold lookupSimple at h
  split at h
  · split at h
    · rw [lookupImports_eq] at h
      obtain ⟨m, -, h⟩ := mem_flatMap.1 h
      exact .inr (mem_filter.1 h).2
    · cases h
  · exact .inl h

/-- A scope answers a path with what it lists, with what modules export, or by going on in the scope
that the first segment opens. -/
theorem mem_lookupSegments {first : String} {rest : List String}
    (h : d ∈ t.lookupSegments (first :: rest) scope imports 0) :
    (∃ key, d ∈ (t.scope scope).get key) ∨ t.isExported d = true ∨
      ∃ head inner, head ∈ t.lookupSimple scope first imports 0 ∧ t.namespaceScope head = some inner ∧
        d ∈ t.lookupSegments rest inner false 0 := by
  cases rest with
  | nil =>
    rcases mem_lookupSimple h with h | h
    · exact .inl ⟨first, h⟩
    · exact .inr (.inl h)
  | cons second rest =>
    unfold lookupSegments at h
    split at h
    · obtain ⟨head, hhead, h⟩ := mem_flatMap.1 h
      split at h
      · cases h
      next inner hinner =>
        rw [lookupSegments_false] at h
        exact .inr (.inr ⟨head, inner, hhead, hinner, h⟩)
    · exact .inl ⟨_, h⟩

theorem exists_of_mem_lookup {id : QualifiedId} (h : d ∈ t.lookup n id) :
    ∃ a ∈ n :: t.ancestors n, ∃ scope, t.scopeOf a = some scope ∧
      d ∈ t.lookupSegments id.segments scope true 0 := by
  unfold lookup at h
  generalize n :: t.ancestors n = nodes at h
  induction nodes with
  | nil => cases h
  | cons m rest ih =>
    have hrest : d ∈ t.lookupAlong id rest → ∃ a ∈ m :: rest, ∃ scope, t.scopeOf a = some scope ∧
        d ∈ t.lookupSegments id.segments scope true 0 := by
      intro h
      obtain ⟨a, ha, hscope⟩ := ih h
      exact ⟨a, mem_cons_of_mem m ha, hscope⟩
    unfold lookupAlong at h
    split at h
    · exact hrest h
    · exact hrest h
    next hfound =>
      obtain ⟨scope, hscope, rfl⟩ := map_eq_some_iff.1 hfound
      exact ⟨m, mem_cons_self, scope, hscope, h⟩

/-- A path goes on in the scope of the module that a declaration stands for, or in that of the type
it declares. -/
theorem exists_of_namespaceScope {inner : ScopeId} (h : t.namespaceScope n = some inner) :
    ∃ m, t.scopeOf m = some inner ∧ (t.moduleMeant n = some m ∨ ∃ data, t.kind m = .type data) := by
  unfold namespaceScope at h
  unfold moduleMeant
  split at h
  next hkind => exact ⟨n, h, by rw [hkind]; exact .inl rfl⟩
  next module hkind =>
    obtain ⟨m, hm, hscope⟩ := bind_eq_some_iff.1 h
    exact ⟨m, hscope, by rw [hkind]; exact .inl hm⟩
  · obtain ⟨u, hu, h⟩ := bind_eq_some_iff.1 h
    split at h
    next hshape =>
      obtain ⟨shape, hshape, -⟩ := (any_eq_true _ _).1 hshape
      obtain ⟨data, hkind, -⟩ := shape?_eq_some_iff.1 hshape
      exact ⟨u, h, .inr ⟨data, hkind⟩⟩
    · cases h
  · cases h

/-! ## What scopes list of a module -/

/-- A method that is listed at a struct type. -/
def ListedMethod (t : Tree) (n : NodeId) : Prop :=
  t.IsMethod n ∧ ∃ u key, t.shape? u = some .struct ∧ n ∈ (t.scopeAt u).get key

/-- Scopes list what units list, what their nodes introduce, and methods. -/
def Furnished (s : Tree) : Prop :=
  ∀ {n key a}, a ∈ (s.scopeAt n).get key →
    (key, a) ∈ s.unitEntries n ∨ (key, a) ∈ s.entries (s.introduced n) ∨ s.ListedMethod a

/-- The trees with the scopes of one language, or of both, built from the root. -/
def Built (t s : Tree) : Prop :=
  s = t.clearScopes.buildScopes root ∨ s = (t.clearScopes.buildUnitScopes root).buildScopes root

theorem Built.sameNodes (hs : t.Built s) : SameNodes t s := by
  rcases hs with rfl | rfl
  · exact (sameNodes_clearScopes t).trans (sameNodes_buildScopes _ root)
  · exact ((sameNodes_clearScopes t).trans (sameNodes_buildUnitScopes _ root)).trans
      (sameNodes_buildScopes _ root)

theorem Built.furnished (hs : t.Built s) (ht : t.Rooted) : s.Furnished := by
  intro n key a h
  have hsame := hs.sameNodes
  have hmethod : t.shape? n = some .struct → t.IsMethod a → s.ListedMethod a := by
    intro hstruct hmethod
    refine ⟨hsame.isMethod_iff.2 hmethod, n, key, ?_, h⟩
    rwa [shape?, typeData?, hsame.kind_eq]
  rw [hsame.unitEntries_eq, hsame.entries_eq, hsame.introduced_eq]
  have hclear := sameNodes_clearScopes t
  rcases hs with rfl | rfl
  · rcases (hclear.rooted ht).listed_buildScopes (numbered_clearScopes t) h with
      h | ⟨-, h⟩ | ⟨-, hstruct, h⟩
    · rw [scopeAt_clearScopes] at h
      cases h
    · rw [hclear.entries_eq, hclear.introduced_eq] at h
      exact .inr (.inl h)
    · rw [shape?, typeData?, hclear.kind_eq] at hstruct
      exact .inr (.inr (hmethod hstruct (hclear.isMethod_iff.1 h)))
  · have hunits := hclear.trans (sameNodes_buildUnitScopes t.clearScopes root)
    obtain ⟨hnumbered, hunit⟩ := ht.listed_buildUnitScopes
    rcases (hunits.rooted ht).listed_buildScopes hnumbered h with h | ⟨-, h⟩ | ⟨-, hstruct, h⟩
    · exact .inl (hunit h).2.2
    · rw [hunits.entries_eq, hunits.introduced_eq] at h
      exact .inr (.inl h)
    · rw [shape?, typeData?, hunits.kind_eq] at hstruct
      exact .inr (.inr (hmethod hstruct (hunits.isMethod_iff.1 h)))

/-- A declaration directly in one of the modules under the root. -/
structure DeclaredIn (t : Tree) (b d : NodeId) : Prop where
  top : t.parent b = some root
  isModule : (t.declaration? b).map Declaration.kind = some .module
  parent : t.parent d = some b
  isDeclaration : (t.declaration? d).isSome = true

namespace DeclaredIn

variable (h : t.DeclaredIn b d)

include h

theorem kind_module : ∃ data, t.kind b = .declaration data := by
  obtain ⟨data, hdata, -⟩ := map_eq_some_iff.1 h.isModule
  exact ⟨data, declaration?_eq_some_iff.1 hdata⟩

/-- What a node introduces is one of its children, the node itself, a parameter or a local variable,
so a declaration of a module is introduced by that module, or by itself. -/
theorem eq_of_introduced (ht : t.Rooted) (hd : d ∈ t.introduced n) : n = b ∨ n = d := by
  have hchild : ∀ {p start}, d ∈ t.childrenFrom p start .declaration → p = b := by
    intro p start hd
    exact some.inj ((ht.parent_of_held (mem_slots_of_mem_childrenFrom hd)).symm.trans h.parent)
  obtain ⟨data, hmodule⟩ := h.kind_module
  unfold introduced at hd
  split at hd
  · split at hd
    · rcases mem_append.1 hd with hd | hd
      · exact .inl (hchild hd)
      · exact .inr (mem_singleton.1 hd).symm
    · unfold parameters at hd
      split at hd
      next f hf =>
        cases hchild hd
        obtain ⟨q, -, hf⟩ := bind_eq_some_iff.1 hf
        obtain ⟨_, hkind, rfl⟩ | ⟨_, hkind, hf⟩ := unqualified_cases hf
        · rw [hmodule] at hkind
          cases hkind
        · cases (ht.parent_of_child hf).symm.trans h.top
          rw [ht.kind_root] at hkind
          cases hkind
      · cases hd
    · cases hd
  · obtain ⟨statement, hstatement, hd⟩ := mem_filterMap.1 hd
    cases (ht.parent_of_child hd).symm.trans h.parent
    have hkind := eq_of_beq (mem_filter.1 hstatement).2
    rw [hmodule] at hkind
    cases hkind
  · split at hd
    · exact .inl (hchild hd)
    · exact .inl (hchild hd)
    · exact .inl (hchild hd)
    · cases hd
  · cases hd

theorem place_of_listed (ht : t.Rooted) (hs : t.Furnished) (hd : d ∈ (t.scopeAt n).get key) :
    n = b ∨ n = d ∨ t.ListedMethod d := by
  rcases hs hd with hd | hd | hd
  · rcases mem_unitEntries hd with hd | ⟨-, hid⟩
    · exact .inl (some.inj ((ht.parent_of_held (mem_slots_of_mem_childrenFrom hd)).symm.trans h.parent))
    · obtain ⟨data, hdata⟩ := isSome_iff_exists.1 h.isDeclaration
      unfold itemId? at hid
      rw [declaration?_eq_some_iff.1 hdata] at hid
      cases hid
  · exact (h.eq_of_introduced ht (mem_entries.1 hd).1).imp_right .inl
  · exact .inr (.inr hd)

/-- The module that a declaration stands for lies directly under the root, if it is another. -/
theorem eq_of_moduleMeant (ht : t.Rooted) (hd : t.moduleMeant head = some d) : head = d := by
  unfold moduleMeant at hd
  split at hd
  · exact some.inj hd
  · have hparent := ht.parent_of_held (mem_children.1 (mem_of_find?_eq_some hd))
    cases hparent.symm.trans h.parent
    exact absurd .here ((ht.grounded root).not_within h.top)
  · cases hd

/-- A scope that answers a path with a declaration of a module which is neither exported nor a method
is that of the module or of the declaration, or hands the rest of the path to that of the module. -/
theorem answeredBy (ht : t.Rooted) (hs : t.Furnished) (hexported : t.isExported d = false)
    (hmethod : ¬t.ListedMethod d) {segments : List String}
    (hscope : t.scopeOf n = some scope) (hd : d ∈ t.lookupSegments segments scope imports 0) :
    n = b ∨ n = d ∨ t.AnsweredBy scope imports segments b d := by
  have hlisted : ∀ {m scope key}, t.scopeOf m = some scope → d ∈ (t.scope scope).get key →
      m = b ∨ m = d := by
    intro m scope key hscope hd
    have hat : t.scopeAt m = t.scope scope := by
      unfold scopeAt
      rw [hscope]
      rfl
    rw [← hat] at hd
    rcases h.place_of_listed ht hs hd with hm | hm | hd
    · exact .inl hm
    · exact .inr hm
    · exact absurd hd hmethod
  induction segments generalizing n scope imports with
  | nil => cases hd
  | cons first rest ih =>
    rcases mem_lookupSegments hd with ⟨key, hd⟩ | hd | ⟨head, inner, hhead, hinner, hd⟩
    · exact (hlisted hscope hd).imp_right .inl
    · rw [hexported] at hd
      cases hd
    · obtain ⟨m, hm, hmeant⟩ := exists_of_namespaceScope hinner
      have hdeclared : (∃ data, t.kind m = .declaration data) → t.moduleMeant head = some m := by
        rintro ⟨data, hkind⟩
        refine hmeant.resolve_right fun ⟨_, htype⟩ ↦ ?_
        rw [hkind] at htype
        cases htype
      rcases ih hm hd with rfl | rfl | ⟨pre, post, target, last, rfl, hnames, hlast⟩
      · -- The first segment leads to the module.
        have hmodule := hdeclared h.kind_module
        exact .inr (.inr ⟨[first], rest, head, inner, rfl, .last hhead, hmodule, hm, hd⟩)
      · -- The declaration is itself a module, and the path came to it by its first segment.
        obtain ⟨data, hdata⟩ := isSome_iff_exists.1 h.isDeclaration
        cases h.eq_of_moduleMeant ht (hdeclared ⟨data, declaration?_eq_some_iff.1 hdata⟩)
        rcases mem_lookupSimple hhead with hhead | hhead
        · exact (hlisted hscope hhead).imp_right .inl
        · rw [hexported] at hhead
          cases hhead
      · exact .inr (.inr ⟨first :: pre, post, target, last, rfl, .onward hhead hinner hnames, hlast⟩)

end DeclaredIn

/-! ## What a lookup gives of another module -/

theorem DeclaredIn.sameNodes (h : t.DeclaredIn b d) (hsame : SameNodes t s) : s.DeclaredIn b d where
  top := (hsame.sameLinks.parent b).trans h.top
  isModule := by
    have hmodule := h.isModule
    unfold declaration? at hmodule ⊢
    rwa [hsame.kind_eq]
  parent := (hsame.sameLinks.parent d).trans h.parent
  isDeclaration := by
    have hdeclaration := h.isDeclaration
    unfold declaration? at hdeclaration ⊢
    rwa [hsame.kind_eq]

/-- From outside a module under the root, a lookup finds a declaration of the module only if it is
exported, if it is a method listed at a struct type, or if the first segments of a path lead to the
module from a scope above and the scope of the module answers the rest. With a single segment there
is no rest. -/
theorem exported_of_mem_lookup (ht : t.Rooted) (hs : t.Built s) {id : QualifiedId}
    (hd : d ∈ s.lookup n id) (hdeclared : t.DeclaredIn b d) (hn : ¬t.Within b n) :
    t.isExported d = true ∨ s.ListedMethod d ∨
      (id.isSimple = false ∧ ∃ a ∈ n :: t.ancestors n, ∃ scope, s.scopeOf a = some scope ∧
        s.AnsweredBy scope true id.segments b d) := by
  have hsame := hs.sameNodes
  have hrooted := hsame.rooted ht
  by_cases hexported : t.isExported d = true
  · exact .inl hexported
  by_cases hmethod : s.ListedMethod d
  · exact .inr (.inl hmethod)
  obtain ⟨a, ha, scope, hscope, hd⟩ := exists_of_mem_lookup hd
  rw [hsame.retold.ancestors_eq] at ha
  have hwithin : t.Within a n := by
    rcases mem_cons.1 ha with rfl | ha
    · exact .here
    · obtain ⟨p, hp, hwithin⟩ := ht.mem_ancestors_iff.1 ha
      exact .beneath hp hwithin
  have hexported' : s.isExported d = false := by
    unfold isExported declaration? at hexported ⊢
    rwa [hsame.kind_eq, ← Bool.not_eq_true]
  have hanswered := (hdeclared.sameNodes hsame).answeredBy hrooted (hs.furnished ht) hexported'
    hmethod hscope hd
  rcases hanswered with rfl | rfl | hanswered
  · exact absurd hwithin hn
  · exact absurd (Within.trans (.beneath hdeclared.parent .here) hwithin) hn
  · exact .inr (.inr ⟨hanswered.not_isSimple, a, ha, scope, hscope, hanswered⟩)

/-- A module with a struct type which imports another. That one has a variable and a method of the
type, and exports neither. -/
def neighbours : Tree := .ofRows [
  (.root, [5, 15]),
  (.shaped .struct, []),
  (.value, [1]),
  (.declares "S" .type .external, [2]),
  (.declares "b" (.importedModule "b"), []),
  (.declares "a" .module .external, [4, 3]),
  (.shaped .bool, []),
  (.value, [6]),
  (.declares "x" .globalVariable, [7, 0]),
  (.shaped .void, []),
  (.value, [9]),
  (.shaped .function, [10]),
  (.value, [11]),
  (.declares "S::m" (.function none none), [12, 0]),
  (.declares "a" (.importedModule "a"), []),
  (.declares "b" .module .external, [14, 8, 13])]

theorem declaredIn_neighbours : neighbours.DeclaredIn ⟨15⟩ ⟨8⟩ ∧ neighbours.DeclaredIn ⟨15⟩ ⟨13⟩ :=
  ⟨⟨rfl, rfl, rfl, rfl⟩, ⟨rfl, rfl, rfl, rfl⟩⟩

/-- From the first module, the variable of the second is found by a path but not by its ID, and the
method through its type. -/
theorem not_exported_neighbours :
    neighbours.Rooted ∧ neighbours.Within ⟨5⟩ ⟨3⟩ ∧ ¬neighbours.Within ⟨15⟩ ⟨3⟩ ∧
      neighbours.DeclaredIn ⟨15⟩ ⟨8⟩ ∧ neighbours.DeclaredIn ⟨15⟩ ⟨13⟩ ∧
      (neighbours.clearScopes.buildScopes root).lookup ⟨3⟩ (.simple "x") = [] ∧
      (neighbours.clearScopes.buildScopes root).lookup ⟨3⟩ ⟨["b"], "x"⟩ = [⟨8⟩] ∧
      (neighbours.clearScopes.buildScopes root).lookup ⟨3⟩ ⟨["S"], "m"⟩ = [⟨13⟩] ∧
      neighbours.isExported ⟨8⟩ = false ∧ neighbours.isExported ⟨13⟩ = false := by
  have hrooted : neighbours.Rooted := by decide +kernel
  obtain ⟨hvariable, hmethod⟩ := declaredIn_neighbours
  refine ⟨hrooted, hrooted.isWithin_iff.1 (by decide +kernel), fun h ↦ ?_, hvariable, hmethod,
    by decide +kernel, by decide +kernel, by decide +kernel, by decide +kernel, by decide +kernel⟩
  exact absurd (hrooted.isWithin_iff.2 h) (by decide +kernel)

/-- The variable is found since the scope of its module answers the rest of the path. -/
theorem exported_of_mem_lookup_neighbours :
    ⟨8⟩ ∈ (neighbours.clearScopes.buildScopes root).lookup ⟨3⟩ ⟨["b"], "x"⟩ ∧
      ∃ a ∈ ⟨3⟩ :: neighbours.ancestors ⟨3⟩, ∃ scope,
        (neighbours.clearScopes.buildScopes root).scopeOf a = some scope ∧
        (neighbours.clearScopes.buildScopes root).AnsweredBy scope true ["b", "x"] ⟨15⟩ ⟨8⟩ := by
  have hrooted : neighbours.Rooted := by decide +kernel
  have hfound : ⟨8⟩ ∈ (neighbours.clearScopes.buildScopes root).lookup ⟨3⟩ ⟨["b"], "x"⟩ := by
    decide +kernel
  have houtside : ¬neighbours.Within ⟨15⟩ ⟨3⟩ := fun h ↦
    absurd (hrooted.isWithin_iff.2 h) (by decide +kernel)
  have hbuilt : neighbours.Built (neighbours.clearScopes.buildScopes root) := .inl rfl
  rcases exported_of_mem_lookup hrooted hbuilt hfound declaredIn_neighbours.1 houtside with
    hexported | ⟨hmethod, -⟩ | ⟨-, hanswered⟩
  · exact absurd hexported (by decide +kernel)
  · have hfunction := (hbuilt.sameNodes.isMethod_iff.1 hmethod).isFunction
    cases hfunction
  · exact ⟨hfound, hanswered⟩

end ProtocolIR.Tree
