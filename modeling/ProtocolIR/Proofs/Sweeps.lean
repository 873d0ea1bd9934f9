import ProtocolIR.Proofs.Coercion.Looks
import ProtocolIR.Proofs.Ensures

/-!
# What visits keep

A visit of a sweep edits the tree in two ways only: it coerces what is in a slot, and it makes the type
of conditions. An invariant that both of these keep, at the slots that the visit asks for, is kept by
the visit, and by what units add to resolution if the typing of their keywords keeps it.
-/

namespace ProtocolIR

open List

variable {α β : Type} {allowed : Fault → Prop} {m : Pass α} {w : Workspace} {post : α → Workspace → Prop}
  {session : Session} {stream : Stream} {n : NodeId}

/-- From `w`, a pass ends as `post` says or with a fault that is allowed. -/
def Ends {α : Type} (allowed : Fault → Prop) (m : Pass α) (w : Workspace) (post : α → Workspace → Prop) :
    Prop :=
  (∀ a w', m w = .ok (a, w') → post a w') ∧ ∀ f, m w = .error f → allowed f

theorem Safe.ends (h : Safe m w post) : Ends (¬·.IsStructural) m w post :=
  ⟨fun _ _ ↦ h.post_of_ok, fun _ ↦ h.not_structural_of_error⟩

theorem Ends.safe (h : Ends (¬·.IsStructural) m w post) : Safe m w post := by
  unfold Safe
  split
  next hm => exact h.1 _ _ hm
  next hm => exact h.2 _ hm

theorem Ensures.ends (h : Ensures m w post) : Ends (fun _ ↦ True) m w post := ⟨h, fun _ _ ↦ trivial⟩

theorem Returns.ends (h : Returns m w post) : Ends allowed m w post := by
  obtain ⟨a, w', hm, hpost⟩ := h
  refine ⟨fun b w'' hm' ↦ ?_, fun f hm' ↦ ?_⟩
  · cases hm.symm.trans hm'
    exact hpost
  · cases hm.symm.trans hm'

theorem Ends.returns (h : Ends (fun _ ↦ False) m w post) : Returns m w post := by
  cases hm : m w with
  | ok r => exact ⟨r.1, r.2, hm, h.1 _ _ hm⟩
  | error f => exact (h.2 f hm).elim

theorem Ends.mono {allowed' : Fault → Prop} {post' : α → Workspace → Prop} (h : Ends allowed m w post)
    (hallowed : ∀ f, allowed f → allowed' f) (hpost : ∀ a w', post a w' → post' a w') :
    Ends allowed' m w post' :=
  ⟨fun a w' hm ↦ hpost a w' (h.1 a w' hm), fun f hm ↦ hallowed f (h.2 f hm)⟩

theorem ends_tree_bind {k : Tree → Pass α} (h : Ends allowed (k w.tree) w post) :
    Ends allowed (Pass.tree >>= k) w post := h

theorem ends_pure {a : α} (h : post a w) : Ends allowed (pure a) w post :=
  Returns.ends ⟨a, w, rfl, h⟩

theorem ends_throw {f : Fault} (h : allowed f) : Ends allowed (throw f : Pass α) w post := by
  refine ⟨fun _ _ hrun ↦ (by cases hrun), fun g hg ↦ ?_⟩
  cases hg
  exact h

theorem ends_bind_of_ok {k : α → Pass β} {post : β → Workspace → Prop} {a : α} {w' : Workspace}
    (hm : m w = .ok (a, w')) (hk : Ends allowed (k a) w' post) : Ends allowed (m >>= k) w post := by
  unfold Ends
  rw [bind_of_ok hm]
  exact hk

theorem Ends.bind {k : α → Pass β} {post' : β → Workspace → Prop} (hm : Ends allowed m w post)
    (hk : ∀ a w', post a w' → Ends allowed (k a) w' post') : Ends allowed (m >>= k) w post' := by
  cases hrun : m w with
  | ok r => exact ends_bind_of_ok hrun (hk r.1 r.2 (hm.1 _ _ hrun))
  | error f =>
    have hfault : (m >>= k) w = .error f := by
      show (m w >>= fun r ↦ k r.1 r.2) = _
      rw [hrun]
      rfl
    refine ⟨fun b w' h ↦ ?_, fun g h ↦ ?_⟩
    · cases hfault.symm.trans h
    · cases hfault.symm.trans h
      exact hm.2 f hrun

theorem Ends.discard {post : Unit → Workspace → Prop} (h : Ends allowed m w fun _ ↦ post ()) :
    Ends allowed (discard m) w post :=
  h.bind (k := fun _ ↦ pure ()) fun _ _ hpost ↦ ends_pure hpost

/-- A pass ends as `post` says, and where `good` holds it has no structural fault. -/
abbrev Sure {α : Type} (good : Prop) (m : Pass α) (w : Workspace) (post : α → Workspace → Prop) : Prop :=
  Ends (fun f ↦ good → ¬f.IsStructural) m w post

section Sure

variable {good : Prop}

theorem Safe.sure (h : Safe m w post) : Sure good m w post :=
  h.ends.mono (fun _ hf _ ↦ hf) fun _ _ ↦ id

theorem Ends.safe_of_good (h : Sure good m w post) (hgood : good) : Safe m w post :=
  (h.mono (fun _ hf ↦ hf hgood) fun _ _ ↦ id).safe

theorem Ensures.sure (h : Ensures m w post) (hsafe : good → Safe m w fun _ _ ↦ True) : Sure good m w post :=
  ⟨h, fun _ hf hgood ↦ (hsafe hgood).not_structural_of_error hf⟩

/-- An edit that is safe in every tree. -/
theorem Safe.lift {edit : Surgery α} {p : α → Tree → Prop} (h : Safe edit w.tree p) :
    Sure good (liftM edit : Pass α) w fun a w' ↦ p a w'.tree :=
  (safe_edit h).sure

theorem sure_create {kind : NodeKind} {slots : List (Option NodeId)} {location : Option Location}
    (h : good → ∃ r, w.tree.create kind slots location = .ok r) :
    Sure good (liftM (Surgery.create kind slots location) : Pass NodeId) w fun c w' ↦
      w.tree.create kind slots location = .ok (c, w'.tree) :=
  (ensures_edit fun _ _ hcreate ↦ hcreate).sure fun hgood ↦
    (h hgood).elim fun _ hcreate ↦ safe_edit (Safe.of_ok hcreate trivial)

theorem sure_update {f : Tree → Except Fault Tree} (h : good → ∃ t', f w.tree = .ok t') :
    Sure good (liftM (m := Surgery) fun t ↦ do return ((), ← f t) : Pass Unit) w fun _ w' ↦
      f w.tree = .ok w'.tree :=
  (ensures_edit (ensures_update fun _ hf ↦ hf)).sure fun hgood ↦
    (h hgood).elim fun _ hf ↦ safe_edit (safe_update hf trivial)

theorem sure_replaceNode {old new : NodeId} {stream : Stream} {message : String}
    (h : good → ∃ t', w.tree.replaceNode old new = .ok t') :
    Sure good (Pass.replaceNode stream old new message) w fun _ w' ↦
      w.tree.replaceNode old new = .ok w'.tree :=
  (ensures_replaceNode fun _ _ hreplace ↦ hreplace).sure fun hgood ↦
    (h hgood).elim fun _ hreplace ↦ safe_replaceNode hreplace fun _ ↦ trivial

end Sure

namespace Coercion.Sweep

/-- What the value in a slot is coerced to. That the slot is looked at was found in a tree seen before. -/
def Asked (registry : Registry) (seen : Tree → Prop) (t : Tree) (n : NodeId) (i : Nat) (dst : NodeId)
    (style : Style) : Prop :=
  ∃ t₀ source, seen t₀ ∧ .value i source style ∈ looks registry t₀ n ∧ source.read t n = some dst

/-- A slot that holds a condition, and was seen with no truth value in it. -/
def Tested (seen : Tree → Prop) (n : NodeId) (i : Nat) : Prop :=
  (∃ t, seen t ∧ (t.kind n).IsCondition i) ∧ ∃ t, seen t ∧
    ∀ e, t.child n i = some e → (t.expressionType e).bind t.followedShape ≠ some .bool

variable {inv : SweepState → Workspace → Prop}

/-- From a workspace, a part of a sweep keeps an invariant, or ends with a fault that is allowed. -/
def Keeps (allowed : Fault → Prop) (inv : SweepState → Workspace → Prop) (w : Workspace)
    (m : Sweep α) : Prop :=
  ∀ state, inv state w → Ends allowed (m state) w fun r w' ↦ inv r.2 w'

/-- A tree for which the invariant holds. -/
def Seen (inv : SweepState → Workspace → Prop) (t : Tree) : Prop := ∃ state w, inv state w ∧ w.tree = t

/-- A part of a sweep has said whether it changed anything. -/
def Reported (inv : SweepState → Workspace → Prop) (state : SweepState) (changed : Bool)
    (w : Workspace) : Prop :=
  inv { state with changed := state.changed || changed } w

/-! ## Running parts of a sweep -/

theorem run_bind (m : Sweep α) (k : α → Sweep β) (state : SweepState) :
    (m >>= k) state = (m state >>= fun r ↦ k r.1 r.2 : Pass (β × SweepState)) := rfl

theorem run_get (k : SweepState → Sweep α) (state : SweepState) : (get >>= k) state = k state state := rfl

theorem run_lift (m : Pass α) (state : SweepState) :
    (liftM m : Sweep α) state = (m >>= fun a ↦ pure (a, state) : Pass (α × SweepState)) := rfl

theorem boolType_of_some {state : SweepState} {q : NodeId} (h : state.boolType = some q) :
    boolType state = (pure (q, state) : Pass (NodeId × SweepState)) := by
  unfold boolType
  rw [run_get, h]
  rfl

theorem boolType_of_none {state : SweepState} (h : state.boolType = none) :
    boolType state = (do
      let type ← Surgery.plainValueType .bool .const
      return (type, { state with boolType := some type }) : Pass (NodeId × SweepState)) := by
  unfold boolType
  rw [run_get, h]
  dsimp only
  rw [run_bind]
  exact bind_assoc (liftM (Surgery.plainValueType .bool .const) : Pass NodeId)
    (fun type ↦ pure (type, state)) _

theorem keeps_pure (a : α) : Keeps allowed inv w (pure a) := fun _ h ↦ ends_pure h

theorem keeps_tree_bind {k : Tree → Sweep α} (h : Keeps allowed inv w (k w.tree)) :
    Keeps allowed inv w (liftM Pass.tree >>= k) := h

theorem ends_report {m : Pass Bool} {state : SweepState} (h : Ends allowed m w (Reported inv state)) :
    Ends allowed ((do
      let changed ← (liftM m : Sweep Bool)
      modify fun s ↦ { s with changed := s.changed || changed } : Sweep PUnit) state) w fun r w' ↦
        inv r.2 w' := by
  rw [run_bind, run_lift, bind_assoc]
  exact h.bind fun _ _ hinv ↦ ends_pure hinv

theorem keeps_forM {ι : Type} {k : ι → Sweep PUnit} {l : List ι}
    (hk : ∀ i ∈ l, ∀ w, Keeps allowed inv w (k i)) : Keeps allowed inv w (l.forM k) := by
  induction l generalizing w with
  | nil => exact keeps_pure _
  | cons i l ih =>
    intro state h
    show Ends allowed ((k i >>= fun _ ↦ l.forM k) state) w _
    rw [run_bind]
    exact (hk i mem_cons_self w state h).bind fun r w' h' ↦
      ih (fun j hj ↦ hk j (mem_cons_of_mem i hj)) r.2 h'

/-! ## Visits -/

/-- What a visit of a node does to the tree keeps an invariant, where it asks for a type in a slot or
for a condition. -/
structure Steps (session : Session) (stream : Stream) (allowed : Fault → Prop)
    (inv : SweepState → Workspace → Prop) (n : NodeId) (asks : Tree → Nat → NodeId → Style → Prop)
    (tests : Nat → Prop) : Prop where
  slot : ∀ {state w i dst style}, inv state w → asks w.tree i dst style →
    Ends allowed (coerceSlot session.conversions stream n i dst style) w (Reported inv state)
  condition : ∀ {state w i q}, inv state w → state.boolType = some q → tests i →
    Ends allowed (coerceSlot session.conversions stream n i q .ofCondition) w (Reported inv state)
  boolType : ∀ {state w}, inv state w → state.boolType = none →
    Ends allowed (liftM (Surgery.plainValueType .bool .const) : Pass NodeId) w fun q w' ↦
      inv { state with boolType := some q } w'

namespace Steps

section

variable {asks : Tree → Nat → NodeId → Style → Prop} {tests : Nat → Prop}
  (h : Steps session stream allowed inv n asks tests)

include h

theorem keeps_slot {i : Nat} {dst : NodeId} {style : Style} (hasks : asks w.tree i dst style) :
    Keeps allowed inv w (Sweep.slot session stream n i dst style) := fun _ hinv ↦
  ends_report (h.slot hinv hasks)

theorem keeps_value {i : Nat} {source : TypeSource} {style : Style}
    (hasks : ∀ {dst}, source.read w.tree n = some dst → asks w.tree i dst style) :
    Keeps allowed inv w (look session stream n (.value i source style)) := by
  refine keeps_tree_bind ?_
  split
  next dst hdst => exact h.keeps_slot (hasks hdst)
  · exact keeps_pure _

theorem keeps_condition {i : Nat}
    (htests : Seen inv w.tree → (∀ e, w.tree.child n i = some e →
      (w.tree.expressionType e).bind w.tree.followedShape ≠ some .bool) → tests i) :
    Keeps allowed inv w (Sweep.condition session stream n i) := by
  refine keeps_tree_bind ?_
  split
  · exact keeps_pure _
  next e he =>
    split
    · exact keeps_pure _
    next hunmet =>
      intro state hinv
      have htest : tests i := htests ⟨state, w, hinv, rfl⟩ fun e' he' hmet ↦ by
        cases he.symm.trans he'
        exact hunmet (beq_iff_eq.2 hmet)
      rw [run_bind]
      cases hq : state.boolType with
      | some q =>
        rw [boolType_of_some hq]
        exact ends_report (h.condition hinv hq htest)
      | none =>
        rw [boolType_of_none hq, bind_assoc]
        exact (h.boolType hinv hq).bind fun q w₁ hinv₁ ↦ ends_report (h.condition hinv₁ rfl htest)

end

section Node

variable (h : Steps session stream allowed inv n (Asked session.registry (Seen inv) · n)
    (Tested (Seen inv) n))
  (hknown : ∀ {t kind id}, Seen inv t → t.kind n = .expression (.resolved kind (.builtin id)) →
    session.registry.get? id = none → allowed .outOfRange)

include h hknown

theorem keeps_look {t₀ : Tree} {look : Look} (hseen : Seen inv t₀)
    (hlook : look ∈ looks session.registry t₀ n) : Keeps allowed inv w (Sweep.look session stream n look) := by
  cases look with
  | value i source style => exact h.keeps_value fun hdst ↦ ⟨t₀, source, hseen, hlook, hdst⟩
  | condition i =>
    exact h.keeps_condition fun hseen' hunmet ↦
      ⟨⟨t₀, hseen, isCondition_of_mem_looks hlook⟩, w.tree, hseen', hunmet⟩
  | unknown =>
    obtain ⟨kind, id, hkind, hnone⟩ := unknown_mem_looks_iff.1 hlook
    exact fun _ _ ↦ ends_throw (hknown hseen hkind hnone)

theorem keeps_node : Keeps allowed inv w (node session stream n) := by
  intro state hinv
  rw [node_eq]
  exact keeps_tree_bind (keeps_forM fun look hlook w' ↦
    h.keeps_look hknown ⟨state, w, hinv, rfl⟩ hlook) state hinv

end Node

/-- What units add to resolution. -/
theorem keeps_resolveNode {session : Session} {n : NodeId} {tests : Nat → Prop}
    (h : Steps session .unitResolver allowed inv n (fun t _ dst _ ↦ t.child n 0 = some dst) tests)
    (htests : tests 2)
    (hkeyword : ∀ {state word}, inv state w → w.tree.kind n = .expression (.keyword word) →
      Ends allowed (Units.Resolution.resolveKeyword n word) w (Reported inv state)) :
    Keeps allowed inv w (Units.Resolution.resolveNode session n) := by
  refine keeps_tree_bind ?_
  split
  next word hkind => exact fun state hinv ↦ ends_report (hkeyword hinv hkind)
  · exact h.keeps_condition fun _ _ ↦ htests
  · rw [declaredValue_eq]
    exact h.keeps_value id
  · exact keeps_pure _

end Steps

end Coercion.Sweep

end ProtocolIR
