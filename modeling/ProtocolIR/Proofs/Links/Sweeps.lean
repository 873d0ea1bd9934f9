import ProtocolIR.Proofs.Coercion.OneSweep
import ProtocolIR.Proofs.Links.Naming

/-!
# Sweeps keep a region indexed

Resolution binds names and operators to what scopes list, so the links that are recorded lead to what
lasts. The types that are made for names, operators, variables and literals are read in the region.

A coercion puts a loose expression where an expression was. The types that values are coerced to are
read in the region, and so is the type of conditions, which a sweep makes once.
-/

namespace ProtocolIR

open Tree List

variable {region : NodeId → Prop} {w : Workspace} {n : NodeId} {session : Session}

/-! ## Resolution -/

namespace Resolution

theorem reads_linking {t : Tree} (hi : Indexed region t) (hplain : session.registry.PlainResults)
    (hn : region n) : Reads (t.linking region) session t n where
  value he htype hu := by
    have hregion := (hi.typeLike_expressionType (hi.below hn he) htype).region
    exact hu.elim (hi.typeLike_unqualified hregion) (hi.typeLike_elementType hregion)
  self := hi.typeLike_selfType hn
  field hd := hi.typeLike_declarationType (hi.region_of_anchored (hi.listed hd.lists).anchored)
  result hd htype := hi.typeLike_unqualified
    (hi.region_of_resultType (hi.region_of_anchored (hi.listed hd.lists).anchored) htype)
  shape {id op shape} hop hresult := by
    have hop := hplain op (Array.mem_toList_iff.2 (Array.mem_of_getElem? hop))
    rw [hresult] at hop
    exact (Bool.and_eq_true_iff.1 hop).imp_right List.isEmpty_iff.1

theorem indexes_resolve (hi : Indexed region w.tree) (hplain : session.registry.PlainResults) :
    Indexes region (resolve session root) w :=
  indexes_sweep .post hi fun _ _ hn hi ↦
    indexes_of_rewrites hi hn (sure_resolveNode (reads_linking hi hplain hn))

end Resolution

/-! ## Coercions -/

namespace Coercion

variable {e dst : NodeId}

/-- What a value is coerced to is a type. -/
theorem indexes_coerceSlot {conversions : List Conversions} {parent : NodeId} {index : Nat}
    {style : Style} (hechoes : ∀ c ∈ conversions, c.Echoes) (stream : Stream)
    (hi : Indexed region w.tree) (hparent : region parent) (hdst : region dst) :
    Indexes region (coerceSlot conversions stream parent index dst style) w := by
  refine indexes_of_rewrites hi hparent (sure_coerceSlot hi.targets (fun hcoerce hne ↦ ?_)
    (fun hchild hold hl ↦ hi.portable_of_literal (hi.below (hi.below hparent hchild) hold) hl) stream)
  obtain ⟨d, hd⟩ := exists_follow_of_coerceExpression hechoes hcoerce hne
  obtain ⟨u, hu, -⟩ := Option.bind_eq_some_iff.1 hd
  exact typeLike_of_unqualified hdst hu

namespace Sweep

/-- What is asked for in a region is in it. -/
theorem region_of_asked {inv : SweepState → Workspace → Prop} {t : Tree} {i : Nat}
    {dst : NodeId} {style : Style} (hinv : ∀ {state w}, inv state w → Indexed region w.tree)
    (hi : Indexed region t) (hn : region n)
    (h : Asked session.registry (Seen inv) t n i dst style) : region dst := by
  obtain ⟨_, source, ⟨state, w, hw, rfl⟩, hlook, hdst⟩ := h
  cases source with
  | declared m =>
    obtain rfl | ⟨kind, link, hkind, hm⟩ := mem_parameters_of_mem_looks hlook
    · exact hi.below hn hdst
    · have hlink := (hinv hw).region_of_link hn (by rw [hkind]; exact mem_singleton_self _)
      exact hi.below ((hinv hw).region_of_mem_parameters hlink hm) hdst
  | operand j =>
    obtain ⟨first, hfirst, htype⟩ := Option.bind_eq_some_iff.1 hdst
    exact (hi.typeLike_expressionType (hi.below hn hfirst) htype).region
  | result => exact hi.region_of_enclosingResultType hn hdst
  | nothing => cases hdst

/-- The region is indexed, and the type of conditions is in it. -/
def Kept (region : NodeId → Prop) (state : SweepState) (w : Workspace) : Prop :=
  Indexed region w.tree ∧ ∀ q, state.boolType = some q → region q

theorem Kept.report {state : SweepState} {m : Pass Bool} (h : Kept region state w)
    (hm : Indexes region m w) : Ends (fun _ ↦ True) m w (Reported (Kept region) state) :=
  (Ensures.mono hm fun _ _ hi ↦ ⟨hi, h.2⟩).ends

theorem steps_kept {asks : Tree → Nat → NodeId → Style → Prop}
    (hechoes : ∀ c ∈ session.conversions, c.Echoes) (stream : Stream) (hn : region n)
    (hasks : ∀ {t i dst style}, Indexed region t → asks t i dst style → region dst) (tests : Nat → Prop) :
    Steps session stream (fun _ ↦ True) (Kept region) n asks tests where
  slot h hask := h.report (indexes_coerceSlot hechoes stream h.1 hn (hasks h.1 hask))
  condition h hq _ := h.report (indexes_coerceSlot hechoes stream h.1 hn (h.2 _ hq))
  boolType {_ w} h _ := by
    refine Ensures.ends ((ensures_edit (p := fun c w₁ ↦ Made region w.tree w₁.tree [some c])
      (ensures_plainValueType_made h.1 .const rfl rfl)).mono fun q w₁ hmade ↦ ⟨hmade.indexed, ?_⟩)
    rintro _ ⟨⟩
    exact (hmade.loose (mem_singleton_self _)).1

end Sweep

/-- Visits that keep the region indexed, from the root. -/
theorem indexes_walk_sweep {visit : NodeId → Sweep Unit} (hi : Indexed region w.tree)
    (hvisit : ∀ w n, region n → Sweep.Keeps (fun _ ↦ True) (Sweep.Kept region) w (visit n)) :
    Indexes region (Sweep.walk visit root) w := by
  refine Ensures.bind (q := Sweep.Kept region)
    (ensures_walk .post hi (fun state w n hn hkept ↦ ?_) ⟨hi, nofun⟩) fun _ _ h ↦ ensures_pure h.1
  exact Ensures.bind (hvisit w n hn state hkept).1 fun _ _ h ↦ ensures_pure h

theorem indexes_sweep_coercions (hechoes : ∀ c ∈ session.conversions, c.Echoes)
    (hi : Indexed region w.tree) : Indexes region (sweep session root) w :=
  indexes_walk_sweep hi fun _ _ hn ↦
    (Sweep.steps_kept hechoes .coercer hn (Sweep.region_of_asked And.left · hn) _).keeps_node
      fun _ _ _ ↦ trivial

end Coercion

/-! ## Units -/

namespace Units.Resolution

open Coercion

theorem indexes_resolve (hechoes : ∀ c ∈ session.conversions, c.Echoes)
    (hi : Indexed region w.tree) : Indexes region (resolve session root) w :=
  indexes_walk_sweep hi fun _ _ hn ↦
    (Sweep.steps_kept hechoes .unitResolver hn (fun hi hc ↦ hi.below hn hc) fun _ ↦ True).keeps_resolveNode
      trivial fun h hkind ↦ h.report (indexes_of_rewrites h.1 hn
        (sure_resolveKeyword True (h.1.typeLike_keywordType hn) hkind))

end Units.Resolution

end ProtocolIR
