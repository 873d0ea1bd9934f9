import ProtocolIR.Proofs.Compile.Findings
import ProtocolIR.Proofs.Round.Coherence

/-!
# The stages of a compilation

A compilation with checks that succeeds has gone through all of its stages: the first checks, the
rounds, the last checks, the products. Only the rounds change anything but findings.
-/

namespace ProtocolIR

open Tree

/-! ## What the stages do to the tree -/

namespace Compilation

variable {frontEnds : List FrontEnd}

theorem annotates_validatePre (hchecks : ∀ f ∈ frontEnds, ∀ t, Annotated t (f.validatePre t root))
    (w : Workspace) : Leads Annotated (validatePre frontEnds root) w := by
  refine Leads.bind (leads_forM fun f hf w ↦ ?_) fun _ w ↦ leads_tree_bind ?_
  · exact (leads_debug .driver _).bind fun _ w ↦ leads_modifyTree (hchecks f hf w.tree)
  · split
    · exact leads_pure _
    · exact leads_pure _

theorem annotates_transform (hproducts : ∀ f ∈ frontEnds, ∀ w, Leads Annotated (f.transform root) w)
    (w : Workspace) : Leads Annotated (transform frontEnds root) w := by
  refine Leads.bind (leads_mapM fun f hf w ↦ ?_) fun _ _ ↦ leads_pure _
  refine (hproducts f hf w).bind fun product w ↦ ?_
  dsimp only
  split
  · exact (leads_debug .driver _).bind fun _ _ ↦ leads_pure _
  · exact leads_pure _

end Compilation

/-- Grammars are made beside the tree; only their errors are attached to it. -/
theorem FrontEnd.annotates_buildGrammars (start : NodeId) (w : Workspace) :
    Leads Annotated (buildGrammars start) w := by
  refine leads_tree_bind (Leads.bind (leads_mapM fun declaration _ w ↦ ?_) fun _ _ ↦ leads_pure _)
  have hgrammar : Leads Annotated (buildGrammar declaration) w := by
    refine leads_tree_bind ((leads_lift _).bind fun made w ↦ ?_)
    split
    · exact leads_pure _
    · exact (leads_forM fun _ _ _ ↦ leads_debug .grammar _).bind fun _ _ ↦ leads_pure _
  refine hgrammar.bind fun grammar w ↦ ?_
  cases grammar with
  | none => exact leads_pure _
  | some g =>
    refine Leads.bind ((leads_debug .grammar _).bind fun _ w ↦ ?_) fun _ _ ↦ leads_pure _
    exact leads_modifyTree (annotated_addErrors ..)

namespace Compiler

variable {w w' : Workspace} {c c' : Compiler} {outcome : Outcome} {α : Type} {rounds : Nat} {reached : Bool}
  {session : Session}

/-- How a compilation that is run ends, seen through a view of its tree. -/
theorem exists_outcome (view : Tree → α) (a : α) (reached : Bool)
    (h : ((compile c).map fun r ↦ (r.1.toOption.map (·.reachedFixedPoint),
      view r.2.workspace.tree)).toOption = some (some reached, a)) :
    ∃ outcome c', compile c = .ok (.ok outcome, c') ∧ outcome.reachedFixedPoint = reached ∧
      view c'.workspace.tree = a := by
  cases hcompile : compile c with
  | error f => rw [hcompile] at h; cases h
  | ok r =>
    rw [hcompile] at h
    obtain ⟨outcome | outcome, c'⟩ := r
    · cases h
    · cases h
      exact ⟨outcome, c', rfl, rfl, rfl⟩

/-- A pass in a compiler returns as it does in the workspace. -/
theorem perform_eq_ok {pass : Pass α} {a : α} (h : perform pass c = .ok (a, c')) :
    pass c.workspace = .ok (a, c'.workspace) ∧ c' = { c with workspace := c'.workspace } := by
  have hrun : (pass c.workspace >>= fun r ↦ Except.ok (r.1, { c with workspace := r.2 })) =
      .ok (a, c') := h
  obtain ⟨⟨b, w⟩, hpass, hc'⟩ := exists_of_bind_eq_ok hrun
  cases hc'
  exact ⟨hpass, rfl⟩

/-- The report at the end of a compilation leaves the tree as it is. -/
theorem report_eq_ok {dump : Bool}
    (h : (do
      let t := (← get).workspace.tree
      match Compilation.productErrors t root with
      | [] =>
        if dump then
          let text ← t.dumpText root true
          perform (Pass.debug .renderer text)
        let warnings := (t.diagnostics root).filter fun d ↦ !d.isError
        return .ok { rounds, reachedFixedPoint := reached, warnings }
      | errors => return .error (.grammar errors) : Run (Except CompileError Outcome)) c =
      .ok (.ok outcome, c')) :
    outcome.rounds = rounds ∧ outcome.reachedFixedPoint = reached ∧
      c'.workspace.tree = c.workspace.tree := by
  rw [get_bind] at h
  dsimp only at h
  cases hproducts : Compilation.productErrors c.workspace.tree root with
  | nil =>
    rw [hproducts] at h
    dsimp only at h
    split at h
    · obtain ⟨text, c₁, htext, h⟩ := bind_eq_ok h
      have hc₁ : c₁ = c := by
        cases hdump : c.workspace.tree.dumpText root true with
        | error f => rw [hdump] at htext; cases htext
        | ok line => rw [hdump] at htext; cases htext; rfl
      obtain ⟨_, c₂, hdebug, h⟩ := bind_eq_ok h
      obtain ⟨hdebug, -⟩ := perform_eq_ok hdebug
      have htree : c₂.workspace.tree = c₁.workspace.tree :=
        congrArg (fun r ↦ r.2.tree) (Except.ok.inj hdebug).symm
      cases h
      exact ⟨rfl, rfl, by rw [htree, hc₁]⟩
    · cases h
      exact ⟨rfl, rfl, rfl⟩
  | cons =>
    rw [hproducts] at h
    cases h

theorem finish_eq_ok (h : finish rounds reached c = .ok (.ok outcome, c')) :
    outcome.rounds = rounds ∧ outcome.reachedFixedPoint = reached ∧
      ∃ grammars w, Compilation.transform c.frontEnds root c.workspace = .ok (grammars, w) ∧
        c'.workspace.tree = w.tree := by
  unfold finish at h
  rw [get_bind] at h
  obtain ⟨grammars, c₁, htransform, h⟩ := bind_eq_ok h
  obtain ⟨htransform, -⟩ := perform_eq_ok htransform
  -- what is stored of the grammars does not touch the workspace
  cases grammars with
  | some grammars =>
    obtain ⟨hrounds, hreached, htree⟩ := report_eq_ok (c := { c₁ with grammars }) h
    exact ⟨hrounds, hreached, some grammars, c₁.workspace, htransform, htree⟩
  | none =>
    obtain ⟨hrounds, hreached, htree⟩ := report_eq_ok (c := c₁) h
    exact ⟨hrounds, hreached, none, c₁.workspace, htransform, htree⟩

/-- A compiler that goes on after the last checks has passed them. -/
theorem finish_of_checks {checks : Pass (Except CompileError Unit)}
    (h : (do
      let checked ← perform checks
      match checked with
      | .error error => return .error error
      | _ => finish rounds reached : Run (Except CompileError Outcome)) c = .ok (.ok outcome, c')) :
    ∃ w, checks c.workspace = .ok (.ok (), w) ∧
      finish rounds reached { c with workspace := w } = .ok (.ok outcome, c') := by
  obtain ⟨checked, c₁, hchecks, h⟩ := bind_eq_ok h
  obtain ⟨hchecks, hc₁⟩ := perform_eq_ok hchecks
  cases checked with
  | error error => cases h
  | ok _ =>
    rw [hc₁] at h
    exact ⟨c₁.workspace, hchecks, h⟩

/-- The stages of a compilation with checks that succeeds. -/
theorem stages_of_compile (hchecks : c.options.skipValidation = false)
    (h : compile c = .ok (.ok outcome, c')) :
    ∃ w₁ w₂ w₃ w₄ w₅ grammars,
      Compilation.validatePre c.frontEnds root c.workspace = .ok (.ok (), w₁) ∧
      Round.repeatUntilFixed (Round.run c.frontEnds c.session root) c.options.maxRounds 0 w₁ =
        .ok ((outcome.rounds, outcome.reachedFixedPoint), w₂) ∧
      w₃.tree = w₂.tree ∧
      Compilation.validatePost c.frontEnds c.session root w₃ = .ok (.ok (), w₄) ∧
      Compilation.transform c.frontEnds root w₄ = .ok (grammars, w₅) ∧
      c'.workspace.tree = w₅.tree := by
  unfold compile at h
  rw [get_bind] at h
  dsimp only at h
  rw [hchecks] at h
  simp only [Bool.not_false, if_true] at h
  obtain ⟨checked, c₁, hpre, h⟩ := bind_eq_ok h
  obtain ⟨hpre, hc₁⟩ := perform_eq_ok hpre
  cases checked with
  | error error => cases h
  | ok checked =>
    obtain ⟨⟨rounds, reached⟩, c₂, hrounds, h⟩ := bind_eq_ok h
    obtain ⟨hrounds, hc₂⟩ := perform_eq_ok hrounds
    have hframe : c₂ = { c with workspace := c₂.workspace } := by rw [hc₂, hc₁]
    -- a warning about the rounds touches the log only
    obtain ⟨c₃, hc₃, htree, w₄, hpost, hfinish⟩ : ∃ c₃ : Compiler,
        c₃ = { c with workspace := c₃.workspace } ∧ c₃.workspace.tree = c₂.workspace.tree ∧
        ∃ w₄, Compilation.validatePost c.frontEnds c.session root c₃.workspace = .ok (.ok (), w₄) ∧
          finish rounds reached { c₃ with workspace := w₄ } = .ok (.ok outcome, c') := by
      split at h
      · obtain ⟨_, c₃, hwarn, h⟩ := bind_eq_ok h
        obtain ⟨hwarn, hc₃⟩ := perform_eq_ok hwarn
        have htree : c₃.workspace.tree = c₂.workspace.tree :=
          congrArg (fun r ↦ r.2.tree) (Except.ok.inj hwarn).symm
        split at h
        · cases h
        · exact ⟨c₃, by rw [hc₃, hframe], htree, finish_of_checks h⟩
      · exact ⟨c₂, hframe, rfl, finish_of_checks h⟩
    obtain ⟨hnumber, hreached, grammars, w₅, htransform, hlast⟩ := finish_eq_ok hfinish
    have hsame : c₃.frontEnds = c.frontEnds := by rw [hc₃]
    rw [hsame] at htransform
    rw [hnumber, hreached]
    exact ⟨c₁.workspace, c₂.workspace, c₃.workspace, w₄, w₅, grammars, hpre, hrounds, htree,
      hpost, htransform, hlast⟩

/-! ## The standard compiler -/

variable {options : Options}

theorem annotated_of_validatePre {r : Except CompileError Unit}
    (h : Compilation.validatePre (standard options).frontEnds root w = .ok (r, w')) :
    Annotated w.tree w'.tree := by
  refine Compilation.annotates_validatePre (fun f hf t ↦ ?_) w r w' h
  obtain rfl | rfl := eq_of_mem_frontEnds hf
  · exact annotated_addErrors ..
  · exact annotated_addErrors ..

theorem annotated_of_transform {grammars : Option (List Grammar)}
    (h : Compilation.transform (standard options).frontEnds root w = .ok (grammars, w')) :
    Annotated w.tree w'.tree := by
  refine Compilation.annotates_transform (fun f hf w ↦ ?_) w grammars w' h
  obtain rfl | rfl := eq_of_mem_frontEnds hf
  · exact (FrontEnd.annotates_buildGrammars root w).bind fun _ _ ↦ leads_pure _
  · exact leads_pure _

/-- The last checks of one front end. -/
theorem check_eq_ok {f : FrontEnd} {u : Unit}
    (h : (do
      Pass.debug .driver ("post-validation: " ++ f.component)
      let t ← f.validatePost (← Pass.tree) session root
      Pass.modifyTree fun _ ↦ t : Pass Unit) w = .ok (u, w')) :
    f.validatePost w.tree session root = .ok w'.tree := by
  have hrun : (do
      let t ← (liftM (f.validatePost w.tree session root) : Pass Tree)
      Pass.modifyTree fun _ ↦ t : Pass Unit)
      ⟨w.tree, w.log.push (.debug .driver ("post-validation: " ++ f.component))⟩ = .ok (u, w') := h
  cases hchecks : f.validatePost w.tree session root with
  | error fault => rw [hchecks] at hrun; cases hrun
  | ok t => rw [hchecks] at hrun; cases hrun; rfl

/-- Checks that end well have left no error. -/
theorem errorsBeneath_of_verdict
    (h : (match Compilation.errorsBeneath w.tree root with
      | [] => pure (.ok ())
      | errors => pure (.error (.validation errors)) : Pass (Except CompileError Unit)) w =
      .ok (.ok (), w')) :
    w' = w ∧ Compilation.errorsBeneath w.tree root = [] := by
  cases herrors : Compilation.errorsBeneath w.tree root with
  | nil =>
    rw [herrors] at h
    cases h
    exact ⟨rfl, rfl⟩
  | cons =>
    rw [herrors] at h
    cases h

/-- The last checks: those of units first, then those of the base language in what they leave. -/
theorem checks_of_validatePost
    (h : Compilation.validatePost (standard options).frontEnds session root w = .ok (.ok (), w')) :
    Validation.validatePost (Units.Validation.validatePost w.tree root) session root = .ok w'.tree ∧
      Compilation.errorsBeneath w'.tree root = [] := by
  obtain ⟨_, w₁, hchecks, hresult⟩ := bind_eq_ok h
  obtain ⟨_, w₂, hunits, hchecks⟩ := bind_eq_ok hchecks
  obtain ⟨_, w₃, hbase, hend⟩ := bind_eq_ok hchecks
  have hunits := check_eq_ok hunits
  have hbase := check_eq_ok hbase
  cases hend
  have htree : w₂.tree = Units.Validation.validatePost w.tree root := (Except.ok.inj hunits).symm
  rw [htree] at hbase
  obtain ⟨hsame, herrors⟩ := errorsBeneath_of_verdict hresult
  rw [hsame]
  exact ⟨hbase, herrors⟩

end Compiler

end ProtocolIR
