import ProtocolIR.Proofs.Compile.Findings
import ProtocolIR.Proofs.Scope.Contents

/-!
# IDs that are declared twice

The checks before resolution go through the members of modules, blocks, compound types and
signatures and through the items of units, and report an ID that occurs a second time. Scopes are
filled by other code, which lists three things that no check looks at: a module in its own scope,
the parameters of a unit next to its items, and what stands for parameters where the type of a
function is not a signature. Whatever else is listed twice under an ID is a function or an import.
-/

namespace ProtocolIR

open List Option

/-! ## Reports -/

namespace Tree

variable {t : Tree} {n : NodeId}

theorem findings_addErrors (t : Tree) (errors : List (NodeId × String)) (phase : Phase) (n : NodeId) :
    (t.node n).findings.length ≤ ((t.addErrors errors phase).node n).findings.length := by
  induction errors generalizing t with
  | nil => exact Nat.le_refl _
  | cons error errors ih =>
    refine Nat.le_trans ?_ (ih (t.addError error.1 error.2 phase))
    unfold addError addFinding
    rw [node_modifyNode]
    split
    next hn => rw [hn.1]; simp
    · exact Nat.le_refl _

/-- A tree is not the same once an error is attached to one of its nodes. -/
theorem addErrors_ne_self {errors : List (NodeId × String)} {message : String} (phase : Phase)
    (hn : t.Has n) (h : (n, message) ∈ errors) : t.addErrors errors phase ≠ t := by
  have hlt : (t.node n).findings.length < ((t.addErrors errors phase).node n).findings.length := by
    induction errors generalizing t with
    | nil => cases h
    | cons error errors ih =>
      have hlater := findings_addErrors (t.addError error.1 error.2 phase) errors phase n
      have hfirst := annotated_addError t error.1 error.2 phase
      rcases mem_cons.1 h with rfl | h
      · refine Nat.lt_of_lt_of_le ?_ hlater
        unfold addError addFinding
        rw [node_modifyNode, if_pos ⟨rfl, hn⟩]
        simp
      · refine Nat.lt_of_le_of_lt ?_ (ih ((hfirst.has_iff n).2 hn) h)
        exact findings_addErrors t [error] phase n
  intro heq
  rw [heq] at hlt
  exact Nat.lt_irrefl _ hlt

end Tree

namespace Validation

variable {entries : List (NodeId × String)} {seen : List String}

theorem mem_of_mem_repeatedIds {error : NodeId × String} (h : error ∈ repeatedIds seen entries) :
    error.1 ∈ entries.map Prod.fst := by
  induction entries generalizing seen with
  | nil => cases h
  | cons entry entries ih =>
    obtain ⟨n, id⟩ := entry
    rw [map_cons]
    unfold repeatedIds at h
    split at h
    · rcases mem_cons.1 h with rfl | h
      · exact mem_cons_self
      · exact mem_cons_of_mem _ (ih h)
    · exact mem_cons_of_mem _ (ih h)

/-- Nothing is reported if and only if no ID is repeated. -/
theorem repeatedIds_eq_nil_iff :
    repeatedIds seen entries = [] ↔
      (entries.map Prod.snd).Nodup ∧ ∀ id ∈ entries.map Prod.snd, id ∉ seen := by
  induction entries generalizing seen with
  | nil => simp [repeatedIds]
  | cons entry entries ih =>
    obtain ⟨n, id⟩ := entry
    unfold repeatedIds
    split
    next hid => simp [hid]
    next hid =>
      rw [ih, map_cons, nodup_cons, forall_mem_cons]
      constructor
      · rintro ⟨hnodup, hfresh⟩
        refine ⟨⟨fun hmem ↦ hfresh id hmem mem_cons_self, hnodup⟩, hid, fun other hmem hseen ↦ ?_⟩
        exact hfresh other hmem (mem_cons_of_mem _ hseen)
      · rintro ⟨⟨hmem, hnodup⟩, -, hfresh⟩
        refine ⟨hnodup, fun other hother ↦ ?_⟩
        rw [mem_cons, not_or]
        exact ⟨fun heq ↦ hmem (heq ▸ hother), hfresh other hother⟩

/-- If repeated IDs would be reported and nothing is, two nodes with one ID are the same. -/
theorem eq_of_unchanged {t : Tree} {errors : Errors} {phase : Phase}
    (h : t.addErrors errors phase = t) (hentries : ∀ entry ∈ entries, t.Has entry.1)
    (hreported : ∀ error ∈ repeatedIds [] entries, error ∈ errors) {a b : NodeId} {id : String}
    (ha : (a, id) ∈ entries) (hb : (b, id) ∈ entries) : a = b := by
  have hnone : repeatedIds [] entries = [] := by
    rw [eq_nil_iff_forall_not_mem]
    intro error herror
    obtain ⟨entry, hentry, hn⟩ := List.mem_map.1 (mem_of_mem_repeatedIds herror)
    have hhas : t.Has error.1 := hn ▸ hentries entry hentry
    exact t.addErrors_ne_self phase hhas (hreported error herror) h
  have hinj := inj_on_of_nodup_map (repeatedIds_eq_nil_iff.1 hnone).1 ha hb rfl
  exact congrArg Prod.fst hinj

end Validation

namespace Tree

variable {t : Tree} {n a b f : NodeId} {key : String}

/-- Whether a node is one of the declarations that may share their ID. -/
def mayRepeat (t : Tree) (n : NodeId) : Bool :=
  (t.declaration? n).any fun d ↦ d.kind.isFunction || d.kind.isImport

/-- What is listed at a node and looked at by no check: the node itself, the parameters of a unit,
and the parameters of a function whose type is none of those whose members are checked. -/
def Unchecked (t : Tree) (n a : NodeId) : Prop :=
  a = n ∨ (t.shape? n = some .unit ∧ a ∈ t.childrenFrom n 0 .declaration) ∨
    ((t.kind n).isFunction = true ∧ ∃ f, (t.child n 0).bind t.unqualified = some f ∧
      t.shape? f ∉ [some .function, some .enumeration, some .struct, some .union])

/-- Declarations whose duplicates are reported at an attached node have IDs of their own. -/
theorem eq_of_duplicates (ht : t.Rooted) (hbase : Validation.validatePre t root = t) {ns : List NodeId}
    (hn : t.Within root n)
    (hreported : ∀ error ∈ Validation.duplicates t ns, error ∈ Validation.preErrors t n)
    (ha : (key, a) ∈ t.entries ns) (hb : (key, b) ∈ t.entries ns)
    (ha' : t.mayRepeat a = false) (hb' : t.mayRepeat b = false) : a = b := by
  have hlisted : ∀ {c}, (key, c) ∈ t.entries ns → t.mayRepeat c = false →
      (c, key) ∈ ns.filterMap fun n ↦ ((t.declaration? n).filter fun d ↦
        !(d.kind.isFunction || d.kind.isImport)).map fun d ↦ (n, d.id) := by
    intro c hc hc'
    obtain ⟨hmem, d, hd, rfl⟩ := mem_entries.1 hc
    refine mem_filterMap.2 ⟨c, hmem, ?_⟩
    unfold mayRepeat at hc'
    rw [hd] at hc' ⊢
    simp only [any_some] at hc'
    simp [Option.filter, hc']
  refine Validation.eq_of_unchanged hbase ?_ (fun error herror ↦ ?_) (hlisted ha ha') (hlisted hb hb')
  · intro entry hentry
    obtain ⟨c, -, hc⟩ := mem_filterMap.1 hentry
    obtain ⟨d, hd, rfl⟩ := map_eq_some_iff.1 hc
    exact has_of_declaration (filter_eq_some_iff.1 hd).1
  · exact mem_flatMap.2 ⟨n, ht.mem_subtree_iff.2 hn, hreported error herror⟩

/-- Items of an attached unit have IDs of their own. -/
theorem eq_of_unitItems (ht : t.Rooted) (hunits : Units.Validation.validatePre t root = t)
    (hn : t.Within root n) (hunit : t.shape? n = some .unit)
    (ha : a ∈ t.unitItems n ∧ t.itemId? a = some key) (hb : b ∈ t.unitItems n ∧ t.itemId? b = some key) :
    a = b := by
  have hlisted : ∀ {c}, c ∈ t.unitItems n ∧ t.itemId? c = some key →
      (c, key) ∈ (t.unitItems n).filterMap fun n ↦ (t.itemId? n).map fun id ↦ (n, id) := by
    rintro c ⟨hmem, hid⟩
    exact mem_filterMap.2 ⟨c, hmem, by rw [hid]; rfl⟩
  refine Validation.eq_of_unchanged hunits ?_ (fun error herror ↦ ?_) (hlisted ha) (hlisted hb)
  · intro entry hentry
    obtain ⟨c, -, hc⟩ := mem_filterMap.1 hentry
    obtain ⟨id, hid, rfl⟩ := map_eq_some_iff.1 hc
    apply has_of_kind
    intro hkind
    rw [itemId?, hkind] at hid
    cases hid
  · have hmem : n ∈ t.units root := mem_filter.2 ⟨ht.mem_subtree_iff.2 hn, beq_iff_eq.2 hunit⟩
    exact mem_flatMap.2 ⟨n, hmem, mem_append_left _ herror⟩

/-- What a unit lists under an ID is one of its parameters or one of its items. -/
theorem mem_unitEntries (h : (key, a) ∈ t.unitEntries n) :
    a ∈ t.childrenFrom n 0 .declaration ∨ a ∈ t.unitItems n ∧ t.itemId? a = some key := by
  rcases mem_append.1 h with h | h
  · exact .inl (mem_entries.1 h).1
  · obtain ⟨c, hc, hentry⟩ := mem_filterMap.1 h
    obtain ⟨id, hid, heq⟩ := map_eq_some_iff.1 hentry
    cases heq
    exact .inr ⟨hc, hid⟩

theorem introduced_of_unit (h : t.shape? n = some .unit) : t.introduced n = [] := by
  obtain ⟨data, hdata, hshape⟩ := map_eq_some_iff.1 h
  unfold introduced
  rw [typeData?_eq_some_iff.1 hdata]
  simp only [hshape]

theorem within_unqualified (ht : t.Rooted) (hn : t.Within root n)
    (hf : (t.child n 0).bind t.unqualified = some f) : t.Within root f := by
  obtain ⟨q, hq, hf⟩ := bind_eq_some_iff.1 hf
  have hwithin : t.Within root q := .beneath (ht.parent_of_child hq) hn
  obtain ⟨_, -, rfl⟩ | ⟨_, -, hf⟩ := unqualified_cases hf
  · exact hwithin
  · exact .beneath (ht.parent_of_child hf) hwithin

/-- Parameters have IDs of their own where the members of the type of the function are checked. -/
theorem eq_of_parameters (ht : t.Rooted) (hbase : Validation.validatePre t root = t)
    (hn : t.Within root n) (hf : (t.child n 0).bind t.unqualified = some f)
    (hshape : t.shape? f ∈ [some .function, some .enumeration, some .struct, some .union])
    (ha : (key, a) ∈ t.entries (t.parameters n)) (hb : (key, b) ∈ t.entries (t.parameters n))
    (ha' : t.mayRepeat a = false) (hb' : t.mayRepeat b = false) : a = b := by
  have hparameters : t.parameters n = t.childrenFrom f 1 .declaration := by
    unfold parameters
    rw [hf]
  rw [hparameters] at ha hb
  have hwithin := within_unqualified ht hn hf
  have hall : ∀ {c}, (key, c) ∈ t.entries (t.childrenFrom f 1 .declaration) →
      (key, c) ∈ t.entries (t.childrenFrom f 0 .declaration) := by
    intro c hc
    obtain ⟨hmem, hd⟩ := mem_entries.1 hc
    refine mem_entries.2 ⟨?_, hd⟩
    have hsublist : (((t.slots f).drop 1).filterMap id).Sublist (((t.slots f).drop 0).filterMap id) :=
      (drop_sublist_drop_left _ (Nat.zero_le 1)).filterMap _
    exact (hsublist.filter _).subset hmem
  -- The members of a signature start after its result type, those of a compound type at once.
  have hmembers : ∀ {shape start}, t.shape? f = some shape →
      (∀ data : TypeData, t.kind f = .type data → data.shape = shape →
        Validation.preErrors t f = Validation.duplicates t (t.childrenFrom f start .declaration)) →
      (key, a) ∈ t.entries (t.childrenFrom f start .declaration) →
      (key, b) ∈ t.entries (t.childrenFrom f start .declaration) → a = b := by
    intro shape start hshape herrors ha hb
    obtain ⟨data, hdata, hshape⟩ := map_eq_some_iff.1 hshape
    have hreported := herrors data (typeData?_eq_some_iff.1 hdata) hshape
    exact eq_of_duplicates ht hbase hwithin (fun _ herror ↦ hreported ▸ herror) ha hb ha' hb'
  simp only [mem_cons, not_mem_nil, or_false] at hshape
  rcases hshape with hshape | hshape | hshape | hshape
  · exact hmembers hshape (fun data hkind hshape ↦ by simp only [Validation.preErrors, hkind, hshape]) ha hb
  all_goals
    refine hmembers hshape (fun data hkind hshape ↦ ?_) (hall ha) (hall hb)
    simp only [Validation.preErrors, hkind, hshape]

/-- What a node introduces under one ID and may not repeat it is one declaration, unless it is not
checked. -/
theorem eq_of_introduced (ht : t.Rooted) (hbase : Validation.validatePre t root = t)
    (hn : t.Within root n) (ha : (key, a) ∈ t.entries (t.introduced n))
    (hb : (key, b) ∈ t.entries (t.introduced n)) (ha' : t.mayRepeat a = false)
    (hb' : t.mayRepeat b = false) : a = b ∨ t.Unchecked n a ∨ t.Unchecked n b := by
  have hmembers : ∀ ns, t.introduced n = ns → Validation.preErrors t n = Validation.duplicates t ns →
      a = b := by
    rintro ns rfl hreported
    exact eq_of_duplicates ht hbase hn (fun _ herror ↦ hreported ▸ herror) ha hb ha' hb'
  have hnothing : t.introduced n = [] → a = b := by
    intro hnone
    rw [hnone] at ha
    cases ha
  cases hkind : t.kind n with
  | declaration d =>
    cases hd : d.kind with
    | module =>
      have hintroduced : t.introduced n = t.childrenFrom n 0 .declaration ++ [n] := by
        simp only [introduced, hkind, hd]
      have hcases : ∀ {c}, (key, c) ∈ t.entries (t.introduced n) →
          (key, c) ∈ t.entries (t.childrenFrom n 0 .declaration) ∨ c = n := by
        intro c hc
        rw [hintroduced, entries_append, mem_append] at hc
        exact hc.imp_right fun hc ↦ mem_singleton.1 (mem_entries.1 hc).1
      rcases hcases ha with ha | rfl
      · rcases hcases hb with hb | rfl
        · refine .inl (eq_of_duplicates ht hbase hn (fun error herror ↦ ?_) ha hb ha' hb')
          simp only [Validation.preErrors, hkind, hd]
          exact mem_append_right _ herror
        · exact .inr (.inr (.inl rfl))
      · exact .inr (.inl (.inl rfl))
    | function owner prototype =>
      have hintroduced : t.introduced n = t.parameters n := by simp only [introduced, hkind, hd]
      rw [hintroduced] at ha hb
      cases hf : (t.child n 0).bind t.unqualified with
      | none =>
        unfold parameters at ha
        rw [hf] at ha
        cases ha
      | some f =>
        by_cases hshape : t.shape? f ∈ [some .function, some .enumeration, some .struct, some .union]
        · exact .inl (eq_of_parameters ht hbase hn hf hshape ha hb ha' hb')
        · refine .inr (.inl (.inr (.inr ⟨?_, f, hf, hshape⟩)))
          simp [NodeKind.isFunction, NodeKind.declaration?, hkind, hd, DeclarationKind.isFunction]
    | _ => exact .inl (hnothing (by simp only [introduced, hkind, hd]))
  | statement s =>
    cases s with
    | block =>
      refine .inl (hmembers (t.blockLocals n) ?_ ?_)
      · simp only [introduced, hkind]
      · simp only [Validation.preErrors, hkind]
    | _ => exact .inl (hnothing (by simp only [introduced, hkind]))
  | type data =>
    cases hshape : data.shape with
    | enumeration | struct | union =>
      refine .inl (hmembers (t.childrenFrom n 0 .declaration) ?_ ?_)
      · simp only [introduced, hkind, hshape]
      · simp only [Validation.preErrors, hkind, hshape]
    | _ => exact .inl (hnothing (by simp only [introduced, hkind, hshape]))
  | _ => exact .inl (hnothing (by simp only [introduced, hkind]))

/-- In a tree that passes the checks before resolution unchanged, what the scopes of both languages
list under one ID at one node is one declaration or item, but for functions, imports and what is
not checked. -/
theorem eq_of_listed (ht : t.Rooted) (hunits : Units.Validation.validatePre t root = t)
    (hbase : Validation.validatePre t root = t)
    (ha : a ∈ (((t.clearScopes.buildUnitScopes root).buildScopes root).scopeAt n).get key)
    (hb : b ∈ (((t.clearScopes.buildUnitScopes root).buildScopes root).scopeAt n).get key)
    (ha' : t.mayRepeat a = false) (hb' : t.mayRepeat b = false) :
    a = b ∨ t.Unchecked n a ∨ t.Unchecked n b := by
  have hfunction : ∀ {c}, t.mayRepeat c = false → (t.kind c).isFunction ≠ true := by
    intro c hc hfunction
    obtain ⟨d, hd, hkind⟩ := (Option.any_eq_true _ _).1 hfunction
    simp [mayRepeat, declaration?, hd, hkind] at hc
  rcases ht.listed_of_mem_get ha with ⟨hn, hunit, ha⟩ | ⟨hn, ha⟩ | ⟨-, ha⟩
  · rcases ht.listed_of_mem_get hb with ⟨-, -, hb⟩ | ⟨-, hb⟩ | ⟨-, hb⟩
    · rcases mem_unitEntries ha with ha | ha
      · exact .inr (.inl (.inr (.inl ⟨hunit, ha⟩)))
      · rcases mem_unitEntries hb with hb | hb
        · exact .inr (.inr (.inr (.inl ⟨hunit, hb⟩)))
        · exact .inl (eq_of_unitItems ht hunits hn hunit ha hb)
    · rw [introduced_of_unit hunit] at hb
      cases hb
    · exact absurd hb (hfunction hb')
  · rcases ht.listed_of_mem_get hb with ⟨-, hunit, -⟩ | ⟨-, hb⟩ | ⟨-, hb⟩
    · rw [introduced_of_unit hunit] at ha
      cases ha
    · exact eq_of_introduced ht hbase hn ha hb ha' hb'
    · exact absurd hb (hfunction hb')
  · exact absurd ha (hfunction ha')

/-- A module with a variable of its own name and a unit with two parameters of one name. -/
def repeatedNames : Tree := .ofRows [
  (.root, [13]),
  (.shaped .bool, []),
  (.value, [1]),
  (.declares "m" .globalVariable, [2, 0]),
  (.shaped .bool, []),
  (.value, [4]),
  (.declares "x" (.parameter .input), [5, 0]),
  (.shaped .string, []),
  (.value, [7]),
  (.declares "x" (.parameter .input), [8, 0]),
  (.shaped .unit, [6, 9]),
  (.value, [10]),
  (.declares "U" .type, [11]),
  (.declares "m" .module .external, [3, 12])]

theorem validatePre_repeatedNames :
    Units.Validation.validatePre repeatedNames root = repeatedNames ∧
      Validation.validatePre repeatedNames root = repeatedNames := by
  have hunits : (repeatedNames.units root).flatMap (Units.Validation.unitPreErrors repeatedNames) = [] := by
    decide +kernel
  have hbase : (repeatedNames.subtree root).flatMap (Validation.preErrors repeatedNames) = [] := by
    decide +kernel
  unfold Units.Validation.validatePre Validation.validatePre
  rw [hunits, hbase]
  exact ⟨rfl, rfl⟩

/-- The tree with the scopes of both languages. -/
def repeatedScopes : Tree := (repeatedNames.clearScopes.buildUnitScopes root).buildScopes root

/-- The tree passes the checks, and the scope of the module lists the variable and the module, that
of the unit both parameters. -/
theorem listed_twice_repeatedNames :
    repeatedNames.Rooted ∧ Units.Validation.validatePre repeatedNames root = repeatedNames ∧
      Validation.validatePre repeatedNames root = repeatedNames ∧
      (repeatedScopes.scopeAt ⟨13⟩).get "m" = [⟨3⟩, ⟨13⟩] ∧
      (repeatedScopes.scopeAt ⟨10⟩).get "x" = [⟨6⟩, ⟨9⟩] ∧
      ∀ n ∈ [(⟨3⟩ : NodeId), ⟨13⟩, ⟨6⟩, ⟨9⟩], repeatedNames.mayRepeat n = false := by
  refine ⟨by decide +kernel, validatePre_repeatedNames.1, validatePre_repeatedNames.2, ?_⟩
  decide +kernel

/-- All that is checked of what the module lists under `U` is the unit. Of the variable and the module,
one is not checked. -/
theorem eq_of_listed_repeatedNames :
    (⟨12⟩ ∈ (repeatedScopes.scopeAt ⟨13⟩).get "U" ∧ ∀ a ∈ (repeatedScopes.scopeAt ⟨13⟩).get "U",
      repeatedNames.mayRepeat a = false → ¬repeatedNames.Unchecked ⟨13⟩ a → a = ⟨12⟩) ∧
    ⟨3⟩ ∈ (repeatedScopes.scopeAt ⟨13⟩).get "m" ∧ ⟨13⟩ ∈ (repeatedScopes.scopeAt ⟨13⟩).get "m" ∧
      ((⟨3⟩ : NodeId) = ⟨13⟩ ∨ repeatedNames.Unchecked ⟨13⟩ ⟨3⟩ ∨ repeatedNames.Unchecked ⟨13⟩ ⟨13⟩) := by
  have hrooted : repeatedNames.Rooted := by decide +kernel
  obtain ⟨hunits, hbase⟩ := validatePre_repeatedNames
  have hunit : ⟨12⟩ ∈ (repeatedScopes.scopeAt ⟨13⟩).get "U" := by decide +kernel
  have hchecked : ¬repeatedNames.Unchecked ⟨13⟩ ⟨12⟩ := by
    rintro (h | ⟨h, -⟩ | ⟨h, -⟩) <;> cases h
  have hvariable : ⟨3⟩ ∈ (repeatedScopes.scopeAt ⟨13⟩).get "m" := by decide +kernel
  have hmodule : ⟨13⟩ ∈ (repeatedScopes.scopeAt ⟨13⟩).get "m" := by decide +kernel
  refine ⟨⟨hunit, fun a ha ha' hne ↦ ?_⟩, hvariable, hmodule,
    eq_of_listed hrooted hunits hbase hvariable hmodule (by decide +kernel) (by decide +kernel)⟩
  exact (eq_of_listed hrooted hunits hbase ha hunit ha' (by decide +kernel)).resolve_right
    fun h ↦ h.elim hne hchecked

end Tree

end ProtocolIR
