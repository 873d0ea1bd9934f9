import ProtocolIR.Proofs.Pass.Rewriting

/-!
# What resolution does to a tree

Names and operators are bound to what lookups find, and types are made from those that are read off
values, declarations and the method around a node. Each rewriting rule puts a piece where an old node
was or fills a gap in a node. The rule for operators is the only one that moves old nodes: the operands
are taken out of the unresolved operator and given to the resolved one before that takes its place.
-/

namespace ProtocolIR

open Tree List Option NodeKind

/-! ## What an operator can stand for -/

namespace Selection

variable {t : Tree} {session : Session} {c : Candidate} {operands : List NodeId}
  {cs : List Candidate} {kind : OperatorKind} {n : NodeId}

theorem mem_of_best (h : c ∈ best cs) : c ∈ cs :=
  mem_of_mem_filter (mem_of_mem_filter (mem_of_mem_filter h))

theorem mem_of_pick (h : pick cs = .selected c) : c ∈ cs := by
  apply mem_of_best
  unfold pick at h
  split at h
  · cases h
  next hbest =>
    cases h
    rw [hbest]
    exact mem_singleton_self c
  · cases h

theorem found_builtin (h : c ∈ builtinCandidates t session kind operands) : c.choice.Found t := by
  obtain ⟨op, -, hop⟩ := mem_filterMap.1 h
  obtain ⟨-, -, hcosts⟩ := bind_eq_some_iff.1 hop
  obtain ⟨costs, -, hc⟩ := bind_eq_some_iff.1 hcosts
  cases hc
  trivial

theorem found_candidates {declarations arguments : List NodeId}
    (h : functionCandidates t session declarations arguments = .ok cs) (hc : c ∈ cs)
    (hfinds : ∀ d ∈ declarations, t.Finds d) : c.choice.Found t := by
  obtain ⟨rs, hrs, h⟩ := exists_of_bind_eq_ok h
  cases h
  obtain ⟨r, hr, hsome⟩ := mem_filterMap.1 hc
  obtain ⟨f, hf, hmatch⟩ := mem_of_mapM_ok hrs hr
  cases hsome
  unfold matchFunction at hmatch
  split at hmatch
  · cases hmatch
  obtain ⟨description, -, hmatch⟩ := exists_of_bind_eq_ok hmatch
  cases hmatch
  exact ⟨(mem_filter.1 (mem_filter.1 hf).1).2, hfinds f (mem_of_mem_filter (mem_of_mem_filter hf))⟩

theorem found_selectBuiltin (h : selectBuiltin t session kind operands = .selected c) :
    c.choice.Found t := by
  unfold selectBuiltin at h
  split at h
  · exact found_builtin (mem_of_pick h)
  · cases h

theorem found_selectCall (h : selectCall t session n operands = .ok (.selected c)) :
    c.choice.Found t := by
  unfold selectCall at h
  split at h
  · cases h
  split at h
  · dsimp only at h
    split at h
    · cases h
    split at h
    · cases h
    obtain ⟨cs, hcs, hpick⟩ := exists_of_bind_eq_ok h
    exact found_candidates hcs (mem_of_pick (Except.ok.inj hpick)) fun _ hd ↦ .inl ⟨_, _, hd⟩
  · cases h

theorem found_selectMemberCall (h : selectMemberCall t session operands = .ok (.selected c)) :
    c.choice.Found t := by
  unfold selectMemberCall at h
  split at h
  · split at h
    · cases h
    split at h
    · obtain ⟨cs, hcs, hpick⟩ := exists_of_bind_eq_ok h
      rcases mem_append.1 (mem_of_pick (Except.ok.inj hpick)) with hc | hc
      · exact found_builtin hc
      · refine found_candidates hcs hc fun d hd ↦ ?_
        obtain ⟨type, -, hd⟩ := mem_flatMap.1 hd
        exact .inr ⟨type, _, hd⟩
    · cases h
  · cases h

theorem found_selectMember (h : selectMember t session operands = .ok (.selected c)) :
    c.choice.Found t := by
  unfold selectMember at h
  split at h
  · split at h
    · cases h
    split at h
    · split at h
      · cases h
      next op field hfield =>
        obtain ⟨text, -, hc⟩ := exists_of_bind_eq_ok h
        cases hc
        obtain ⟨shape, -, hfield⟩ := bind_eq_some_iff.1 hfield
        obtain ⟨space, -, hfield⟩ := bind_eq_some_iff.1 hfield
        obtain ⟨op', -, hfield⟩ := bind_eq_some_iff.1 hfield
        obtain ⟨d, hd, hfield⟩ := bind_eq_some_iff.1 hfield
        cases hfield
        exact .inr ⟨_, _, mem_of_find?_eq_some hd⟩
    · cases h
  · cases h

theorem found_select (h : t.select session n = .ok (.selected c)) : c.choice.Found t := by
  unfold Tree.select at h
  split at h
  · split at h
    · cases h
    split at h
    · exact found_selectCall h
    · exact found_selectMemberCall h
    · exact found_selectMember h
    · exact found_selectBuiltin (Except.ok.inj h)
  · cases h

end Selection

/-- A node beneath the root of a coherent tree. -/
def Tree.Hangs (t : Tree) (n : NodeId) : Prop := t.Rooted ∧ t.Within root n

theorem Tree.Hangs.exists_parent {t : Tree} {n : NodeId} {e : Expression} (h : t.Hangs n)
    (hkind : t.kind n = .expression e) : t.Coherent ∧ ∃ p, t.parent n = some p :=
  ⟨h.1.toCoherent, h.1.exists_parent h.2 (by rw [hkind]; simp)⟩

namespace Resolution

/-- What is taken for a type when a node is resolved. -/
structure Reads (s : Sources) (session : Session) (t : Tree) (n : NodeId) : Prop where
  value : ∀ {i e type u}, t.child n i = some e → t.expressionType e = some type →
    t.unqualified type = some u ∨ t.elementType type = some u → s.type u
  self : ∀ {u}, selfType t n = some u → s.type u
  field : ∀ {d u}, t.Finds d → t.declarationType d = some u → s.type u
  result : ∀ {d type u}, t.Finds d → t.resultType d = some type → t.unqualified type = some u → s.type u
  shape : ∀ {id op shape}, session.registry.get? id = some op → op.result = .type shape → s.shape shape

variable {s : Sources} {session : Session} {good : Prop} {w : Workspace} {t : Tree} {n d : NodeId}
  {id : QualifiedId} {kind : OperatorKind} {b : Bool}

theorem Reads.any : Reads .any session t n :=
  ⟨fun _ _ _ ↦ trivial, fun _ ↦ trivial, fun _ _ ↦ trivial, fun _ _ _ ↦ trivial, fun _ _ ↦ trivial⟩

/-! ## Names -/

theorem rewrites_name {link : Link} (hkind : t.kind n = .expression (.name id none)) (hlink : t.FindsLink link) :
    Rewrites s good t n true (t.setKind n (.expression (.name id (some link)))) := by
  refine .learnt .idle (has_of_kind (by rw [hkind]; simp)) ?_ (by rw [hkind]; simp) (fun link' hlink' ↦ .inr ?_)
    (edited_setResolved_name link hkind)
  · rw [hkind]
    exact .name (.of_none _)
  · cases mem_singleton.1 hlink'
    exact hlink

section

variable (hkind : w.tree.kind n = .expression (.name id none))

include hkind

theorem sure_nameToType (hd : w.tree.Finds d) :
    Sure (w.tree.Hangs n) (nameToType n id d) w fun _ w' ↦
      Rewrites s (w.tree.Hangs n) w.tree n true w'.tree := by
  refine ends_tree_bind ((crafts_namedType (s := s) id _ ⟨d, hd, rfl⟩).lift.bind fun e w₁ ⟨h, hexpression⟩ ↦ ?_)
  exact sure_replaced_expression h hexpression (.inl rfl) (by rw [hkind]; rfl) (·.exists_parent hkind)

theorem sure_bindName (hd : w.tree.Finds d) :
    Sure good (bindName n id d) w fun _ w' ↦ Rewrites s good w.tree n true w'.tree := by
  have hset : Safe (Surgery.setResolved n (w.tree.linkTo d)) w.tree fun _ t₁ ↦
      Rewrites s good w.tree n true t₁ ∧ ∃ e, t₁.kind n = .expression e := by
    refine safe_update (setResolved_of_name _ hkind) ⟨rewrites_name hkind ⟨d, hd, rfl⟩,
      .name id (some (w.tree.linkTo d)), ?_⟩
    rw [kind_setKind, if_pos ⟨rfl, has_of_kind (by rw [hkind]; simp)⟩]
  refine ends_tree_bind (hset.lift.bind fun _ w₁ ⟨h, e, hkind₁⟩ ↦ ends_tree_bind ?_)
  dsimp only
  split
  · refine Ends.bind (sure_update fun _ ↦ exists_setChild (by simp)) fun _ w₂ hset₂ ↦ ?_
    exact (Pass.safe_recordChange fun _ ↦ h.emptied hkind₁ hset₂).sure
  · exact (Pass.safe_recordChange fun _ ↦ h).sure

theorem sure_resolveName : Sure (w.tree.Hangs n) (resolveName n id) w fun b w' ↦
      Rewrites s (w.tree.Hangs n) w.tree n b w'.tree := by
  refine ends_tree_bind ?_
  split
  · exact ends_pure .idle
  dsimp only
  split
  next value _ hvalue =>
    exact (sure_bindName (s := s) hkind (.inl ⟨n, id, mem_of_find?_eq_some hvalue⟩)).bind fun _ _ h ↦ ends_pure h
  next type _ htype =>
    exact (sure_nameToType (s := s) hkind (.inl ⟨n, id, mem_of_find?_eq_some htype⟩)).bind fun _ _ h ↦ ends_pure h
  · exact ends_pure .idle

end

theorem sure_resolveTypeName {data : TypeData} (hkind : w.tree.kind n = .type data)
    (hshape : data.shape = .name id none) :
    Sure good (resolveTypeName n id) w fun b w' ↦ Rewrites s good w.tree n b w'.tree := by
  refine ends_tree_bind ?_
  split
  · exact ends_pure .idle
  next d hd =>
    have h : Rewrites s good w.tree n true (w.tree.setKind n
        (.type { data with shape := .name id (some (w.tree.linkTo d)) })) := by
      refine .learnt .idle (has_of_kind (by rw [hkind]; simp)) ?_ (fun heq ↦ ?_) (fun link hlink ↦ .inr ?_)
        (.of_resolved hkind hshape _)
      · rw [hkind]
        exact .type ⟨hshape ▸ .name (.of_none _), rfl, .refl _, .refl _⟩
      · rw [hkind] at heq
        have hsame := congrArg TypeData.shape (NodeKind.type.inj heq)
        rw [hshape] at hsame
        cases hsame
      · exact ⟨d, .inl ⟨n, id, mem_of_find?_eq_some hd⟩, mem_singleton.1 hlink⟩
    have hset : Safe (Surgery.setResolved n (w.tree.linkTo d)) w.tree fun _ t₁ ↦
        Rewrites s good w.tree n true t₁ := safe_update (setResolved_of_type _ hkind hshape) h
    refine hset.lift.bind fun _ w₁ h₁ ↦ ?_
    exact ((Pass.safe_recordChange fun _ ↦ h₁).sure).bind fun _ _ h ↦ ends_pure h

/-! ## Operators -/

theorem crafts_resultType {choice : Choice} (hreads : Reads s session t n) (hchoice : choice.Found t) :
    Safe (resultType session (t.children n) choice) t (CraftedOption s t) := by
  unfold resultType
  split
  next id =>
    split
    · exact fun h ↦ h
    next op hop =>
      refine crafts_builtinResult (fun _ ↦ hreads.shape hop) fun he htype u hu ↦ ?_
      obtain ⟨i, hc⟩ := exists_child_of_held (mem_children.1 he)
      exact hreads.value hc htype hu
  next field =>
    refine safe_bind.2 (safe_get.2 ?_)
    split
    next type h => exact safe_map.2 (crafts_typeReference (hreads.field hchoice h))
    · exact rfl
  next f =>
    refine safe_bind.2 (safe_get.2 ?_)
    split
    next type h => exact crafts_valueCopy fun u ↦ hreads.result hchoice.2 h
    · exact rfl

theorem sure_bindOperator {result : NodeId} {candidate : Candidate}
    (hkind : t.kind n = .expression (.unresolved kind)) (h : Crafted s t w.tree [result]) :
    Sure (t.Hangs n) (bindOperator n kind candidate (t.children n) result) w fun _ w' ↦
      Rebinds s t n kind candidate.choice w'.tree := by
  refine (safe_bindCallee kind candidate.choice (t.children n)).self.lift.bind fun _ w₂ hcallee ↦ ?_
  obtain ⟨hlinks, hedit⟩ := (safe_bindCallee _ _ _).post_of_ok hcallee
  refine ends_tree_bind (Ends.bind (sure_update fun _ ↦ exists_removeChildren (Nat.zero_le _) (Nat.le_refl _))
    fun _ w₃ hremove ↦ ends_tree_bind ?_)
  have hresult := h.piece (mem_singleton_self _)
  refine (sure_create fun hgood ↦ ?_).bind fun c w₄ hcreate ↦ ?_
  · obtain ⟨ht, p, hp⟩ := hgood.exists_parent hkind
    obtain ⟨t₄, _, hcreate, -⟩ := exists_rebound ht h.grows.1 hresult hp hkind hlinks hedit hremove _ _
    exact ⟨_, hcreate⟩
  refine (sure_replaceNode fun hgood ↦ ?_).mono (fun _ ↦ id) fun _ _ ↦ .intro h hcallee hremove hcreate
  obtain ⟨ht, p, hp⟩ := hgood.exists_parent hkind
  obtain ⟨_, t₅, hcreate', hreplace, -⟩ := exists_rebound ht h.grows.1 hresult hp hkind hlinks hedit hremove _ _
  cases hcreate.symm.trans hcreate'
  exact ⟨t₅, hreplace⟩

theorem sure_resolveOperator (hreads : Reads s session w.tree n)
    (hkind : w.tree.kind n = .expression (.unresolved kind)) :
    Sure (w.tree.Hangs n) (resolveOperator session n kind) w fun b w' ↦
      Rewrites s (w.tree.Hangs n) w.tree n b w'.tree ∧ (b = true → ∃ c,
        w.tree.select session n = .ok (.selected c) ∧ Rebinds s w.tree n kind c.choice w'.tree) := by
  have hlift : Safe (liftM (w.tree.select session n) : Pass Selection) w fun r w' ↦
      w' = w ∧ w.tree.select session n = .ok r :=
    safe_lift_pass (sound_select _ _ _) fun _ h ↦ ⟨rfl, h⟩
  refine ends_tree_bind (hlift.sure.bind ?_)
  rintro selection _ ⟨rfl, hselect⟩
  split
  next _ candidate =>
    have hfound := Selection.found_select hselect
    refine (crafts_resultType hreads hfound).lift.bind fun result w₁ hresult ↦ ?_
    cases result with
    | none => exact ends_pure ⟨hresult ▸ .idle, nofun⟩
    | some result =>
      refine (sure_bindOperator hkind hresult).bind fun _ _ h ↦ ends_pure ⟨?_, fun _ ↦ ⟨_, hselect, h⟩⟩
      exact .rebound hkind hfound (fun hgood ↦ (hgood.exists_parent hkind).2) h
  · exact ends_pure ⟨.idle, nofun⟩

/-! ## Types to be inferred -/

theorem isAuto_of_growth {t' : Tree} (ht : t.Linked) (hgrowth : Growth t t') (hn : t.Has n)
    (h : t.isAuto n = true) : t'.isAuto n = true := by
  have hunqualified := unqualified_congr (hgrowth.kind_eq hn) (hgrowth.slots_eq hn)
  obtain ⟨u, hu, hshape⟩ := bind_eq_some_iff.1 (eq_of_beq h)
  have hshape' : t'.shape? u = some .auto := by
    unfold shape? typeData? at hshape ⊢
    rwa [hgrowth.kind_eq (ht.has_of_unqualified hu)]
  unfold isAuto
  rw [hunqualified, hu, bind_some, hshape']
  rfl

section

variable (hreads : Reads s session w.tree n) (hgood : good → w.tree.Coherent)

include hreads hgood

theorem sure_inferVariable {d : Declaration} (hkind : w.tree.kind n = .declaration d) (hd : d.kind.IsInferred)
    (hfirm : (w.tree.kind n).isFirm = false) :
    Sure good (inferVariable n) w fun b w' ↦ Rewrites s good w.tree n b w'.tree := by
  refine ends_tree_bind ?_
  split
  next type u htype hu =>
    obtain ⟨hchild, hauto⟩ := filter_eq_some_iff.1 htype
    obtain ⟨v, hv, hu⟩ := bind_eq_some_iff.1 hu
    obtain ⟨e, he, hv⟩ := bind_eq_some_iff.1 (filter_eq_some_iff.1 hv).1
    have hhas := has_of_child_eq hchild
    refine (crafts_typeReference (hreads.value he hv (.inl hu))).lift.bind fun inner w₁ hinner ↦ ?_
    refine (hinner.around (isBuilt_qualified _) _).lift.bind fun new w₂ h ↦ ?_
    refine (sure_replaced h (.inr ⟨0, hchild, hfirm⟩) (fun h ↦ ⟨hgood h, n, (hgood h).parent_of_child hchild⟩)
      fun t' ht hreplace ↦ ?_).bind fun _ _ h ↦ ends_pure h
    replace ht := hgood ht
    refine .of_replaceNode_inferred (p := n) (h.growth.linked ht.toLinked) hreplace ?_ hd ?_ ?_
    · rw [h.growth.kind_eq hhas, hkind]
    · rw [child_congr (h.growth.slots_eq hhas), hchild]
    · exact isAuto_of_growth ht.toLinked h.growth (ht.has_of_child hchild) hauto
  · exact ends_pure .idle

theorem sure_inferLiteral {l : Literal} (hkind : w.tree.kind n = .literal l) :
    Sure good (inferLiteral n l) w fun b w' ↦ Rewrites s good w.tree n b w'.tree := by
  refine ends_tree_bind ?_
  split
  · exact ends_pure .idle
  next type htype =>
    have hchild := (filter_eq_some_iff.1 htype).1
    dsimp only
    split
    · exact ends_pure .idle
    · exact ends_pure .idle
    next types _ htypes =>
      have hsources : ∀ type ∈ types, ∀ u, w.tree.unqualified type = some u → s.type u := by
        intro type htype u hu
        obtain ⟨v, hv, hvalue⟩ := exists_mem_of_mem_forall₂ (forall₂_of_mapM_eq_some htypes) htype
        have hheld := mem_of_mem_drop (by simpa using hv : some v ∈ (w.tree.slots n).drop 1)
        obtain ⟨i, hc⟩ := exists_child_of_held hheld
        exact hreads.value hc (filter_eq_some_iff.1 hvalue).1 (.inl hu)
      refine (crafts_elementTypes hsources).lift.bind fun elements w₁ helements ↦ ?_
      refine Ends.bind (Safe.lift (safe_build_bind.2 ((crafts_literalType l helements).mono fun new t₂ hnew ↦
        hnew.around (isBuilt_qualified _) _))) fun new w₂ h ↦ ?_
      refine (sure_replaced h (.inr ⟨0, hchild, by rw [hkind]; rfl⟩)
        (fun h ↦ ⟨hgood h, n, (hgood h).parent_of_child hchild⟩) fun t' ht hreplace ↦ ?_).bind fun _ _ h ↦ ends_pure h
      replace ht := hgood ht
      refine .of_replaceNode_inert (h.growth.linked ht.toLinked) hreplace fun p hp ↦ ?_
      rw [h.growth.parent_eq (ht.has_of_child hchild), ht.parent_of_child hchild] at hp
      cases hp
      rw [h.growth.kind_eq (has_of_child_eq hchild), hkind]
      exact inert_literal l

omit hgood in
theorem sure_resolveSelf {e : Expression} (hkind : w.tree.kind n = .expression e) :
    Sure good (resolveSelf n) w fun b w' ↦ Rewrites s good w.tree n b w'.tree := by
  refine ends_tree_bind ?_
  split
  next owner _ howner =>
    refine (crafts_typeReference (hreads.self howner)).lift.bind fun inner w₁ hinner ↦ ?_
    refine (hinner.around (isBuilt_qualified _) _).lift.bind fun type w₂ h ↦ ?_
    refine (sure_typed hkind h).bind fun _ w₃ h₃ ↦ ?_
    exact ((Pass.safe_recordChange fun _ ↦ h₃).sure).bind fun _ _ h ↦ ends_pure h
  · exact ends_pure .idle

end

/-! ## Functions -/

section Functions

variable (h : Rewrites s good t n b w.tree)

include h

/-- Links of a function that were not known are recorded. -/
theorem rewrites_function {d : Declaration} {owner prototype owner' prototype' : Option Link}
    (hn : w.tree.kind n = .declaration d) (hd : d.kind = .function owner prototype)
    (howner : Settled owner owner') (hprototype : Settled prototype prototype')
    (hne : DeclarationKind.function owner' prototype' ≠ .function owner prototype)
    (hlinks : ∀ link ∈ owner'.toList ++ prototype'.toList, link ∈ owner.toList ++ prototype.toList ∨
      w.tree.FindsLink link) :
    Rewrites s good t n (b || true)
      (w.tree.setKind n (.declaration { d with kind := .function owner' prototype' })) := by
  have hrefines := DeclarationKind.Refines.function howner hprototype
  rw [← hd] at hrefines hne
  have hkind : (w.tree.kind n).Refines (.declaration { d with kind := .function owner' prototype' }) := by
    rw [hn]
    exact .declaration ⟨rfl, rfl, .refl _, hrefines⟩
  rw [Bool.or_true]
  refine h.learnt (has_of_kind (by simp [hn])) hkind (fun heq ↦ ?_) (fun link hlink ↦ ?_)
    (.of_setKind_other hkind (by simp [hn]) ?_)
  · rw [hn] at heq
    exact hne (congrArg Declaration.kind (NodeKind.declaration.inj heq))
  · rw [hn]
    exact (hlinks link hlink).imp_left fun hold ↦ by simpa [links, hd] using hold
  · intro d' value isImplicit link hd' hlabel
    cases hn.symm.trans hd'
    cases hd.symm.trans hlabel

theorem safe_bindMethod : Safe (bindMethod n) w fun b' w' ↦ Rewrites s good t n (b || b') w'.tree := by
  have hidle : Rewrites s good t n (b || false) w.tree := by rwa [Bool.or_false]
  refine safe_tree_bind.2 ?_
  split
  next d hd =>
    split
    next prototype ownerId _ start hkind _ _ =>
      split
      · exact hidle
      next owner howner =>
        refine safe_bind.2 (safe_modifyTree.2 (safe_bind.2 (Pass.safe_recordChange fun _ ↦ ?_)))
        refine rewrites_function h (declaration?_eq_some_iff.1 hd) hkind (.of_none _) (.refl _) nofun
          fun link hlink ↦ ?_
        rcases mem_cons.1 hlink with rfl | hlink
        · exact .inr ⟨owner, .inl ⟨start, ownerId, mem_of_find?_eq_some howner⟩, rfl⟩
        · exact .inl hlink
    · exact hidle
  · exact hidle

theorem safe_linkPrototype :
    Safe (linkPrototype n) w fun b' w' ↦ Rewrites s good t n (b || b') w'.tree := by
  have hidle : Rewrites s good t n (b || false) w.tree := by rwa [Bool.or_false]
  refine safe_tree_bind.2 ?_
  split
  next d hd =>
    split
    next owner prototype hkind hprototype =>
      refine safe_bind.2 (safe_modifyTree.2 (safe_bind.2 (Pass.safe_recordChange fun _ ↦ ?_)))
      refine rewrites_function h (declaration?_eq_some_iff.1 hd) hkind (.refl _) (.of_none _) nofun
        fun link hlink ↦ ?_
      rcases mem_append.1 hlink with hlink | hlink
      · exact .inl (mem_append_left _ hlink)
      · obtain ⟨_, -, h⟩ := bind_eq_some_iff.1 hprototype
        obtain ⟨start, -, h⟩ := bind_eq_some_iff.1 h
        obtain ⟨signature, -, h⟩ := bind_eq_some_iff.1 h
        exact .inr ⟨prototype, .inl ⟨start, _, mem_of_find?_eq_some h⟩, mem_singleton.1 hlink⟩
    · exact hidle
  · exact hidle

end Functions

/-! ## The pass -/

theorem sure_resolveNode (hreads : Reads s session w.tree n) :
    Sure (w.tree.Hangs n) (resolveNode session n) w fun b w' ↦
      Rewrites s (w.tree.Hangs n) w.tree n b w'.tree := by
  have hgood (h : w.tree.Hangs n) : w.tree.Coherent := h.1.toCoherent
  refine ends_tree_bind ?_
  split
  next id hkind => exact sure_resolveName hkind
  next kind hkind => exact (sure_resolveOperator hreads hkind).mono (fun _ ↦ id) fun _ _ ↦ And.left
  next hkind => exact sure_resolveSelf hreads hkind
  next data hkind =>
    split
    next id hshape => exact sure_resolveTypeName hkind hshape
    · exact ends_pure .idle
  next l hkind =>
    split
    · exact sure_inferLiteral hreads hgood hkind
    · exact sure_inferLiteral hreads hgood hkind
    · exact sure_inferLiteral hreads hgood hkind
    · exact sure_inferLiteral hreads hgood hkind
    · exact ends_pure .idle
  next d hkind =>
    have hfirm (htakes : d.kind.takesValue = true) : (w.tree.kind n).isFirm = false := by
      rw [hkind, isFirm, htakes]
      rfl
    split
    next hd => exact sure_inferVariable hreads hgood hkind (by rw [hd]; trivial) (hfirm (by rw [hd]; rfl))
    next hd => exact sure_inferVariable hreads hgood hkind (by rw [hd]; trivial) (hfirm (by rw [hd]; rfl))
    next hd => exact sure_inferVariable hreads hgood hkind (by rw [hd]; trivial) (hfirm (by rw [hd]; rfl))
    · have hidle : Rewrites s (w.tree.Hangs n) w.tree n false w.tree := .idle
      refine (safe_bindMethod hidle).sure.bind fun bound w₁ hbound ↦ ?_
      exact (safe_linkPrototype hbound).sure.bind fun linked w₂ hlinked ↦ ends_pure hlinked
    · exact ends_pure .idle
  · exact ends_pure .idle

theorem isVisit_resolveNode (session : Session) : IsVisit (resolveNode session) := fun _ _ ht hwithin ↦
  ((sure_resolveNode (s := .any) .any).safe_of_good ⟨ht, hwithin⟩).mono fun _ _ h ↦
    h.turn ⟨ht, hwithin⟩ ht.toCoherent

theorem isTurn_resolve (session : Session) : IsTurn (resolve session root) :=
  (isVisit_resolveNode session).sweep .post

end Resolution

end ProtocolIR
