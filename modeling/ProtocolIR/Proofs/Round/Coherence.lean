import ProtocolIR.Compiler
import ProtocolIR.Proofs.Pass.Enumeration
import ProtocolIR.Proofs.Pass.Resolution
import ProtocolIR.Proofs.Pass.Coercion
import ProtocolIR.Proofs.Tree.Calls

/-!
# Rounds keep trees coherent

A round is made of steps: scopes are built, and then naming, the resolution of a front end,
unification and coercion are steps each. So a round is a step, and it is safe: it ends in a
coherent tree, or with a fault that is not structural.
-/

namespace ProtocolIR

open Tree

namespace Round

variable {session : Session}

theorem isStep_step (hplain : PlainLiterals session.conversions) {f : FrontEnd}
    (hscopes : ∀ t, SameNodes t (f.buildScopes t root)) (hresolve : IsStep (f.resolve session root)) :
    IsStep (step session root f) := by
  intro w ht
  refine safe_bind.2 (safe_debug.2 (safe_bind.2 (safe_modifyTree.2 ?_)))
  have hbuilt := (hscopes w.tree).step ht.toCoherent
  have ht₁ := hbuilt.rooted ht
  refine (CanonicalId.isStep_assign _ ht₁).bind fun named w₂ hnamed ↦ ?_
  have ht₂ := hnamed.rooted ht₁
  refine (hresolve w₂ ht₂).bind fun resolved w₃ hresolved ↦ ?_
  have ht₃ := hresolved.rooted ht₂
  refine (Unification.isTurn_unify.isStep w₃ ht₃).bind fun unified w₄ hunified ↦ ?_
  have ht₄ := hunified.rooted ht₃
  refine ((Coercion.isTurn_sweep hplain).isStep w₄ ht₄).bind fun coerced w₅ hcoerced ↦ ?_
  exact (((hbuilt.trans hnamed).trans hresolved).trans hunified).trans hcoerced

theorem isStep_run (hplain : PlainLiterals session.conversions) {frontEnds : List FrontEnd}
    (hscopes : ∀ f ∈ frontEnds, ∀ t, SameNodes t (f.buildScopes t root))
    (hresolve : ∀ f ∈ frontEnds, IsStep (f.resolve session root)) :
    IsStep (run frontEnds session root) := by
  intro w ht
  have hclear := (sameNodes_clearScopes w.tree).step ht.toCoherent
  refine safe_bind.2 (safe_modifyTree.2 ?_)
  have hfold : ∀ (changed : Bool) (w' : Workspace), ∀ f ∈ frontEnds, Step w.tree changed w'.tree →
      Safe (do return (← step session root f) || changed) w' fun b w'' ↦
        Step w.tree b w''.tree := by
    intro changed w' f hf hstep
    refine (isStep_step hplain (hscopes f hf) (hresolve f hf) w' (hstep.rooted ht)).bind ?_
    intro b w'' hb
    exact (hstep.trans hb).report (Bool.or_comm b changed)
  exact safe_foldlM hfold hclear

end Round

namespace Compiler

theorem frontEnds_standard (options : Options) : (standard options).frontEnds = [.units, .base] := rfl

theorem eq_of_mem_frontEnds {f : FrontEnd} (hf : f ∈ [FrontEnd.units, FrontEnd.base]) :
    f = .units ∨ f = .base := by
  simpa using hf

theorem eq_of_mem_conversions {options : Options} {c : Conversions}
    (hc : c ∈ (standard options).session.conversions) :
    c = FrontEnd.units.conversions ∨ c = FrontEnd.base.conversions := by
  simpa using show c ∈ [FrontEnd.units.conversions, FrontEnd.base.conversions] from hc

theorem sameNodes_frontEnd {f : FrontEnd} (hf : f ∈ [FrontEnd.units, FrontEnd.base]) (t : Tree)
    (start : NodeId) : SameNodes t (f.buildScopes t start) := by
  obtain rfl | rfl := eq_of_mem_frontEnds hf
  · exact sameNodes_buildUnitScopes t start
  · exact sameNodes_buildScopes t start

theorem plainLiterals_standard (options : Options) :
    PlainLiterals (standard options).session.conversions := by
  intro c hc t n dst style
  obtain rfl | rfl := eq_of_mem_conversions hc
  · rfl
  · rfl

/-- One round of the standard compiler. -/
def round (options : Options) : Pass Bool :=
  Round.run (standard options).frontEnds (standard options).session root

theorem isStep_round (options : Options) : IsStep (round options) := by
  have hplain := plainLiterals_standard options
  refine Round.isStep_run hplain (fun f hf t ↦ sameNodes_frontEnd hf t root) fun f hf ↦ ?_
  obtain rfl | rfl := eq_of_mem_frontEnds hf
  · exact (Units.Resolution.isTurn_resolve hplain).isStep
  · exact (Resolution.isTurn_resolve _).isStep.seq Enumeration.isTurn_normalize.isStep

/-- From a coherent tree with its root node, whatever else it holds, a round of the standard
compiler leads to a coherent tree or stops with a fault that is not structural. -/
theorem round_coherent (options : Options) (w : Workspace) (ht : w.tree.Rooted) :
    (∀ b w', round options w = .ok (b, w') → w'.tree.Coherent) ∧
      ∀ f, round options w = .error f → ¬f.IsStructural := by
  have hsafe := isStep_round options w ht
  exact ⟨fun _ _ h ↦ (hsafe.post_of_ok h).coherent, fun _ h ↦ hsafe.not_structural_of_error h⟩

/-- A module with a type and a variable that names it, before anything is resolved. -/
theorem round_coherent_named :
    ∃ w : Workspace, w.tree.slots root = [some ⟨7⟩] ∧ w.tree.slots ⟨7⟩ = [some ⟨3⟩, some ⟨6⟩] ∧
      w.tree.Rooted ∧ (∀ b w', round {} w = .ok (b, w') → w'.tree.Coherent) ∧
        ∀ f, round {} w = .error f → ¬f.IsStructural := by
  have h₁ := Call.coherent_of_run coherent_new
    (.of_create _ (.type { shape := .bool }) [] none (by decide)) rfl
  have h₂ := Call.coherent_of_run h₁
    (.of_create _ (.qualified (.value .const)) [some ⟨1⟩] none (by decide)) rfl
  have h₃ := Call.coherent_of_run h₂
    (.of_create _ (.declares "T" .type .external) [some ⟨2⟩] none (by decide)) rfl
  have h₄ := Call.coherent_of_run h₃
    (.of_create _ (.type { shape := .name (.ofText "T") none }) [] none (by decide)) rfl
  have h₅ := Call.coherent_of_run h₄
    (.of_create _ (.qualified (.place .mutable)) [some ⟨4⟩] none (by decide)) rfl
  have h₆ := Call.coherent_of_run h₅
    (.of_create _ (.declares "x" .globalVariable .external) [some ⟨5⟩, none] none
      (by decide)) rfl
  have h₇ := Call.coherent_of_run h₆
    (.of_create _ (.declares "m" .module .external) [some ⟨3⟩, some ⟨6⟩] none
      (by decide)) rfl
  have h₈ := Call.coherent_of_run h₇
    (.of_top _ (.addChild root (some ⟨7⟩)) root ⟨7⟩ trivial rfl rfl (by decide)) rfl
  have hrooted := Rooted.mk h₈ (by decide) rfl
  exact ⟨⟨_, #[]⟩, rfl, rfl, hrooted, round_coherent {} ⟨_, #[]⟩ hrooted⟩

end Compiler

end ProtocolIR
