import Mathlib.Data.List.Perm.Subperm
import ProtocolIR.Proofs.Pass.Naming
import ProtocolIR.Proofs.Sweeps
import ProtocolIR.Proofs.Tree.Orders
import ProtocolIR.Proofs.Unification.Written

/-!
# Canonical IDs

Naming fills in the IDs that are missing beneath a node and changes nothing else: every declaration
has a canonical ID afterwards, no two have the same one, and a declared compound type has that of its
declaration. Naming again changes nothing. The one thing that can go wrong is that a node whose change
is reported has no text.
-/

namespace ProtocolIR

open Tree List Option

/-! ## Free IDs -/

namespace Tree

theorem candidateId_injective (path : String) : Function.Injective (candidateId path) := by
  intro j k h
  have h := congrArg String.toList h
  unfold candidateId at h
  by_cases hj : j = 0 <;> by_cases hk : k = 0 <;>
    simp only [hj, hk, if_true, if_false, String.toList_append, append_assoc] at h
  · rw [hj, hk]
  · simp at h
  · simp at h
  · exact TypeText.nat_inj (append_cancel_left (append_cancel_left h))

/-- Among one more candidate than there are taken IDs one is free. -/
theorem freeId_not_mem (path : String) (taken : List String) : freeId path taken ∉ taken := by
  unfold freeId
  cases hfind : (range (taken.length + 1)).find? fun k ↦ !taken.contains (candidateId path k) with
  | some k => simpa using find?_some hfind
  | none =>
    have hsub : (range (taken.length + 1)).map (candidateId path) ⊆ taken := by
      intro id hid
      obtain ⟨k, hk, rfl⟩ := mem_map.1 hid
      simpa using find?_eq_none.1 hfind k hk
    have hle := ((nodup_range.map (candidateId_injective path)).subperm hsub).length_le
    rw [length_map, length_range] at hle
    omega

end Tree

/-! ## Trees that differ in IDs -/

/-- The ID that a declaration or a type may have. -/
def NodeKind.id? : NodeKind → Option String
  | .declaration d => d.canonicalId
  | .type data => data.typeId
  | _ => none

def NodeKind.withId (id : Option String) : NodeKind → NodeKind
  | .declaration d => .declaration { d with canonicalId := id }
  | .type data => .type { data with typeId := id }
  | kind => kind

namespace Tree

variable {t t₁ t' : Tree} {start n m u : NodeId} {id : String} {d : Declaration}

/-- The trees are the same but for IDs that are only in the second one. -/
structure OnlyIds (t t' : Tree) : Prop where
  size_eq : t'.size = t.size
  rest : { t' with nodes := t.nodes } = t
  node : ∀ n, t'.node n = { t.node n with kind := (t.kind n).withId (t'.kind n).id? }
  id : ∀ n, Settled (t.kind n).id? (t'.kind n).id?

/-- A declaration has a canonical ID. -/
def Bears (t : Tree) (n : NodeId) (id : String) : Prop :=
  ∃ d, t.kind n = .declaration d ∧ d.canonicalId = some id

theorem typeToStamp_eq_some_iff : t.typeToStamp n = some u ↔ t.declaredType n = some u ∧
    ∃ data, t.kind u = .type data ∧ data.shape.category.isCompound = true ∧ data.typeId = none := by
  simp [typeToStamp, filter_eq_some_iff, Option.any_eq_true, typeData?_eq_some_iff]

namespace OnlyIds

theorem refl (t : Tree) : OnlyIds t t where
  size_eq := rfl
  rest := rfl
  node n := by
    have hsame : (t.kind n).withId (t.kind n).id? = t.kind n := by cases t.kind n <;> rfl
    rw [hsame]
    rfl
  id _ := .refl _

/-- A missing ID is filled in. -/
theorem set (h : OnlyIds t t₁) (hnone : (t₁.kind m).id? = none)
    (hid : ((t₁.kind m).withId (some id)).id? = some id) :
    OnlyIds t (t₁.setKind m ((t₁.kind m).withId (some id))) where
  size_eq := (size_setKind ..).trans h.size_eq
  rest := h.rest
  node n := by
    have hkind := congrArg Node.kind (h.node n)
    rw [kind_setKind, setKind, node_modifyNode]
    split
    next hm =>
      obtain ⟨rfl, -⟩ := hm
      have hwith : (t₁.kind n).withId (some id) = (t.kind n).withId (some id) := by
        rw [show t₁.kind n = _ from hkind]
        cases t.kind n <;> rfl
      rw [hid, hwith, h.node n]
    · exact h.node n
  id n := by
    rw [kind_setKind]
    split
    next hm =>
      rw [hm.1]
      intro x hx
      cases hnone.symm.trans (h.id m x hx)
    · exact h.id n

section

variable (h : OnlyIds t t')

include h

theorem exists_kind (n : NodeId) : ∃ id, t'.kind n = (t.kind n).withId id :=
  ⟨_, congrArg Node.kind (h.node n)⟩

theorem links : SameLinks t t' where
  slots n := by
    unfold slots
    rw [h.node n]
  parent n := by
    unfold Tree.parent
    rw [h.node n]

theorem declaration_of (hn : t'.kind n = .declaration d) :
    ∃ d₀, t.kind n = .declaration d₀ ∧ Settled d₀.canonicalId d.canonicalId := by
  obtain ⟨id, hkind⟩ := h.exists_kind n
  have hid := h.id n
  rw [hn] at hkind hid
  cases hn₀ : t.kind n <;> rw [hn₀] at hkind hid <;> cases hkind
  exact ⟨_, rfl, hid⟩

theorem declaredType_eq (n : NodeId) : t'.declaredType n = t.declaredType n := by
  have hunqualified : t'.unqualified = t.unqualified := by
    funext c
    obtain ⟨id, hkind⟩ := h.exists_kind c
    unfold unqualified child
    rw [hkind, h.links.slots]
    cases t.kind c <;> rfl
  have htype : (t'.kind n).isTypeDeclaration = (t.kind n).isTypeDeclaration := by
    obtain ⟨id, hkind⟩ := h.exists_kind n
    rw [hkind]
    cases t.kind n <;> rfl
  unfold declaredType child
  rw [htype, hunqualified, h.links.slots]

theorem typeToStamp_of (hu : t'.typeToStamp n = some u) : t.typeToStamp n = some u := by
  rw [typeToStamp_eq_some_iff, h.declaredType_eq] at hu
  obtain ⟨hdeclared, data, hkind, hcompound, hnone⟩ := hu
  obtain ⟨id, hu⟩ := h.exists_kind u
  have hid := h.id u
  rw [hkind] at hu hid
  cases hu₀ : t.kind u <;> rw [hu₀] at hu hid <;> cases hu
  refine typeToStamp_eq_some_iff.2 ⟨hdeclared, _, hu₀, hcompound, ?_⟩
  exact eq_none_iff_forall_ne_some.2 fun x hx ↦ by cases hnone.symm.trans (hid x hx)

end

end OnlyIds

/-- The way up from a declared type to its declaration. -/
theorem Linked.parent_of_declaredType (ht : t.Linked) (hu : t.declaredType n = some u) :
    (t.kind n).isTypeDeclaration = true ∧ (t.parent u = some n ∨
      ∃ c q, t.kind c = .qualified q ∧ t.parent u = some c ∧ t.parent c = some n) := by
  obtain ⟨htype, c, hc, hu⟩ := declaredType_eq_some_iff.1 hu
  refine ⟨htype, ?_⟩
  obtain ⟨_, -, rfl⟩ | ⟨q, hq, hu⟩ := unqualified_cases hu
  · exact .inl (ht.parent_of_child hc)
  · exact .inr ⟨c, q, hq, ht.parent_of_child hu, ht.parent_of_child hc⟩

theorem Linked.within_declaredType (ht : t.Linked) (hn : t.Within start n)
    (hu : t.declaredType n = some u) : t.Within start u := by
  obtain ⟨-, hp | ⟨c, q, -, hp, hc⟩⟩ := ht.parent_of_declaredType hu
  · exact .beneath hp hn
  · exact .beneath hp (.beneath hc hn)

/-- A type has one declaration. -/
theorem Linked.eq_of_declaredType (ht : t.Linked) (hn : t.declaredType n = some u)
    (hm : t.declaredType m = some u) : n = m := by
  obtain ⟨hntype, hp | ⟨c, q, hq, hp, hc⟩⟩ := ht.parent_of_declaredType hn <;>
    obtain ⟨hmtype, hp' | ⟨c', q', hq', hp', hc'⟩⟩ := ht.parent_of_declaredType hm <;>
    cases hp.symm.trans hp'
  · rfl
  · rw [hq'] at hntype
    cases hntype
  · rw [hq] at hmtype
    cases hmtype
  · exact some.inj (hc.symm.trans hc')

/-! ## What naming has done so far -/

/-- A node needs no ID, nor does the type it declares. -/
def Identified (t : Tree) (n : NodeId) : Prop :=
  (∀ d, t.kind n = .declaration d → d.canonicalId ≠ none) ∧ t.typeToStamp n = none

theorem OnlyIds.identified (h : OnlyIds t t') (hn : t.Identified n) : t'.Identified n := by
  refine ⟨fun d hd hnone ↦ ?_, eq_none_iff_forall_ne_some.2 fun u hu ↦ ?_⟩
  · obtain ⟨d₀, hd₀, hid⟩ := h.declaration_of hd
    obtain ⟨id, hsome⟩ := ne_none_iff_exists'.1 (hn.1 d₀ hd₀)
    cases hnone.symm.trans (hid id hsome)
  · cases hn.2.symm.trans (h.typeToStamp_of hu)

/-- No two declarations beneath a node have the same canonical ID. -/
def DistinctIds (start : NodeId) (t t' : Tree) : Prop :=
  ∀ {n m id}, t.Within start n → t.Within start m → t'.Bears n id → t'.Bears m id → n = m

/-- Only declarations beneath a node and the types they declare got IDs. All that the declarations have
is taken, and they have different ones if they had so before. -/
structure Naming (start : NodeId) (t t' : Tree) (taken : List String) : Prop extends OnlyIds t t' where
  origin : ∀ {m}, t'.kind m ≠ t.kind m → t.Within start m ∧ (∃ d, t.kind m = .declaration d) ∨
    ∃ n id, t.Within start n ∧ t.typeToStamp n = some m ∧ t'.Bears n id ∧ (t'.kind m).id? = some id
  taken : ∀ {n id}, t.Within start n → t'.Bears n id → id ∈ taken
  distinct : DistinctIds start t t → DistinctIds start t t'

theorem identified_of_kind (h : ∀ d, t.kind n ≠ .declaration d) : t.Identified n := by
  refine ⟨fun d hd ↦ absurd hd (h d), eq_none_iff_forall_ne_some.2 fun u hu ↦ ?_⟩
  obtain ⟨htype, -⟩ := typeToStamp_eq_some_iff.1 hu
  obtain ⟨d, hd, -⟩ := isTypeDeclaration_iff.1 (declaredType_eq_some_iff.1 htype).1
  exact h d hd

theorem bears_set {k : NodeId} {x : String} (hm : t.Has m) (hnone : (t.kind m).id? = none) :
    (t.setKind m ((t.kind m).withId (some id))).Bears k x ↔
      (k = m ∧ x = id ∧ ∃ d, t.kind m = .declaration d) ∨ t.Bears k x := by
  unfold Bears
  rw [kind_setKind]
  by_cases hk : k = m
  · subst hk
    rw [if_pos ⟨rfl, hm⟩]
    cases hkind : t.kind k <;> rw [hkind] at hnone <;> simp [NodeKind.withId, eq_comm]
    exact fun hx ↦ by cases hnone.symm.trans hx
  · simp [hk]

/-- A declaration gets an ID that was free, or a type that of its declaration. -/
theorem Naming.fill {taken taken' : List String} (h : Naming start t t₁ taken) (hm : t₁.Has m)
    (hnone : (t₁.kind m).id? = none) (hid : ((t₁.kind m).withId (some id)).id? = some id)
    (horigin : t.Within start m ∧ (∃ d, t.kind m = .declaration d) ∨
      ∃ n, t.Within start n ∧ t.typeToStamp n = some m ∧ t₁.Bears n id)
    (hnew : ∀ d, t₁.kind m = .declaration d → id ∉ taken ∧ id ∈ taken') (hsub : taken ⊆ taken') :
    Naming start t (t₁.setKind m ((t₁.kind m).withId (some id))) taken' where
  toOnlyIds := h.toOnlyIds.set hnone hid
  origin := by
    intro k hk
    by_cases hkm : k = m
    · subst hkm
      refine horigin.imp_right fun ⟨n, hn, hstamp, hbears⟩ ↦ ?_
      refine ⟨n, id, hn, hstamp, (bears_set hm hnone).2 (.inr hbears), ?_⟩
      rw [kind_setKind, if_pos ⟨rfl, hm⟩, hid]
    · have hold : (t₁.setKind m ((t₁.kind m).withId (some id))).kind k = t₁.kind k := by
        rw [kind_setKind, if_neg fun hboth ↦ hkm hboth.1]
      rw [hold] at hk ⊢
      refine (h.origin hk).imp_right fun ⟨n, x, hn, hstamp, hbears, hx⟩ ↦ ?_
      exact ⟨n, x, hn, hstamp, (bears_set hm hnone).2 (.inr hbears), hx⟩
  taken := by
    intro k x hk hbears
    rcases (bears_set hm hnone).1 hbears with ⟨-, rfl, d, hd⟩ | hbears
    · exact (hnew d hd).2
    · exact hsub (h.taken hk hbears)
  distinct := by
    intro hdistinct k l x hk hl hbears hbears'
    rcases (bears_set hm hnone).1 hbears with ⟨hkm, hx, d, hd⟩ | hold <;>
      rcases (bears_set hm hnone).1 hbears' with ⟨hlm, hx', d', hd'⟩ | hold'
    · rw [hkm, hlm]
    · exact absurd (hx ▸ h.taken hl hold') (hnew d hd).1
    · exact absurd (hx' ▸ h.taken hk hold) (hnew d' hd').1
    · exact h.distinct hdistinct hk hl hold hold'

/-- Beneath a node naming is complete. -/
structure Named (start : NodeId) (t t' : Tree) : Prop extends OnlyIds t t' where
  bears : ∀ {n d}, t.Within start n → t.kind n = .declaration d → ∃ id, t'.Bears n id
  distinct : ∀ {n m id}, t.Within start n → t.Within start m → t'.Bears n id → t'.Bears m id → n = m
  stamped : ∀ {n u}, t.Within start n → t.typeToStamp n = some u →
    ∃ id, t'.Bears n id ∧ (t'.kind u).id? = some id
  origin : ∀ {m}, t'.kind m ≠ t.kind m →
    t.Within start m ∧ (∃ d, t.kind m = .declaration d) ∨ ∃ n, t.Within start n ∧ t.typeToStamp n = some m

theorem Naming.named {taken : List String} (h : Naming start t t' taken) (ht : t.Linked)
    (hdistinct : DistinctIds start t t)
    (hidentified : ∀ n, t.Within start n → t'.Identified n) : Named start t t' where
  toOnlyIds := h.toOnlyIds
  bears := by
    intro n d hn hd
    obtain ⟨id, hkind⟩ := h.exists_kind n
    rw [hd] at hkind
    obtain ⟨x, hx⟩ := ne_none_iff_exists'.1 ((hidentified n hn).1 _ hkind)
    exact ⟨x, _, hkind, hx⟩
  distinct := h.distinct hdistinct
  stamped := by
    intro n u hn hu
    obtain ⟨htype, data, hdata, hcompound, hnone⟩ := typeToStamp_eq_some_iff.1 hu
    have hnew : t'.kind u ≠ t.kind u := by
      intro hsame
      have hstamp : t'.typeToStamp n = some u :=
        typeToStamp_eq_some_iff.2 ⟨(h.declaredType_eq n).trans htype, data, hsame.trans hdata, hcompound, hnone⟩
      cases (hidentified n hn).2.symm.trans hstamp
    rcases h.origin hnew with ⟨-, d, hd⟩ | ⟨m, id, -, hm, hbears, hid⟩
    · cases hdata.symm.trans hd
    · cases ht.eq_of_declaredType htype (typeToStamp_eq_some_iff.1 hm).1
      exact ⟨id, hbears, hid⟩
  origin hm := (h.origin hm).imp_right fun ⟨n, _, hn, hstamp, _⟩ ↦ ⟨n, hn, hstamp⟩

end Tree

namespace CanonicalId

variable {w : Workspace} {t : Tree} {start n : NodeId} {taken : List String} {state : List String × Bool}
  {α : Type} {post : α → Workspace → Prop}

/-- The report of a change beneath a node fails. -/
def Unreported (start : NodeId) (t : Tree) (fault : Fault) : Prop :=
  ∃ t' n message, OnlyIds t t' ∧ t.Within start n ∧ t'.changeLine n none message = .error fault

/-- A pass returns a result as said, or the report of a change fails. -/
def Reports {α : Type} (start : NodeId) (t : Tree) (m : Pass α) (w : Workspace)
    (post : α → Workspace → Prop) : Prop :=
  (∃ a w', m w = .ok (a, w') ∧ post a w') ∨ ∃ fault, m w = .error fault ∧ Unreported start t fault

theorem Reports.of_ends {m : Pass α} (h : Ends (Unreported start t) m w post) : Reports start t m w post := by
  cases hm : m w with
  | ok r => exact .inl ⟨r.1, r.2, hm, h.1 _ _ hm⟩
  | error fault => exact .inr ⟨fault, hm, h.2 fault hm⟩

/-- A tree is written, and the change of a node is reported. -/
theorem ends_write {f : Tree → Tree} {t₁ : Tree} {message : String} {a : α}
    (hf : f w.tree = t₁) (ht : OnlyIds t t₁) (hn : t.Within start n)
    (hpost : ∀ log, post a ⟨t₁, log⟩) :
    Ends (Unreported start t) (do Pass.modifyTree f; Pass.recordChange .scopes n message; return a) w post := by
  subst hf
  have hrun : (do Pass.modifyTree f; Pass.recordChange .scopes n message; return a : Pass α) w =
      (f w.tree).changeLine n none message >>= fun line ↦
        .ok (a, ⟨f w.tree, w.log.push (.debug .scopes line)⟩) := by
    refine (bind_of_ok (m := Pass.modifyTree f) rfl).trans ?_
    show Except.bind (Except.bind (Except.bind _ _) _) _ = _
    cases (f w.tree).changeLine n none message <;> rfl
  unfold Ends
  rw [hrun]
  cases hline : (f w.tree).changeLine n none message with
  | ok line =>
    refine ⟨fun _ _ hrun ↦ ?_, nofun⟩
    cases hrun
    exact hpost _
  | error fault =>
    refine ⟨nofun, fun _ hrun ↦ ?_⟩
    cases hrun
    exact ⟨_, n, message, ht, hn, hline⟩

theorem ends_assignOne (h : Naming start t w.tree taken) (hn : t.Within start n) :
    Ends (Unreported start t) (assignOne taken n) w fun r w' ↦ Naming start t w'.tree r.1 ∧
      OnlyIds w.tree w'.tree ∧ ∀ d, w'.tree.kind n = .declaration d → d.canonicalId ≠ none := by
  refine ends_tree_bind ?_
  split
  next hany =>
    obtain ⟨d, hd, hisNone⟩ := (any_eq_true _ _).1 hany
    have hkind := declaration?_eq_some_iff.1 hd
    have hhas : w.tree.Has n := has_of_kind (by rw [hkind]; simp)
    have hnone : (w.tree.kind n).id? = none := by
      rw [hkind]
      exact isNone_iff_eq_none.1 hisNone
    have hid (id) : ((w.tree.kind n).withId (some id)).id? = some id := by rw [hkind]; rfl
    obtain ⟨d₀, hd₀, -⟩ := h.declaration_of hkind
    have hfill := h.fill hhas hnone (hid _) (.inl ⟨hn, d₀, hd₀⟩)
      (fun _ _ ↦ ⟨freeId_not_mem (w.tree.canonicalPath n) taken, mem_cons_self⟩)
      (subset_cons_self _ _)
    refine ends_write ?_ hfill.toOnlyIds hn fun log ↦
      ⟨hfill, (OnlyIds.refl _).set hnone (hid _), fun d' hd' ↦ ?_⟩
    · rw [modifyDeclaration_of_kind hkind, hkind]
      rfl
    · rw [kind_setKind, if_pos ⟨rfl, hhas⟩, hkind] at hd'
      cases hd'
      simp
  next hnot =>
    refine ends_pure ⟨h, .refl _, fun d hd hnone ↦ hnot ?_⟩
    rw [declaration?_eq_some_iff.2 hd]
    exact congrArg isNone hnone

theorem ends_stamp (ht : t.Linked) (h : Naming start t w.tree taken) (hn : t.Within start n)
    (hid : ∀ d, w.tree.kind n = .declaration d → d.canonicalId ≠ none) :
    Ends (Unreported start t) (stamp n) w fun _ w' ↦ Naming start t w'.tree taken ∧
      OnlyIds w.tree w'.tree ∧ w'.tree.Identified n := by
  refine ends_tree_bind ?_
  split
  next id u hdeclared hu =>
    obtain ⟨d, hd, hcanonical⟩ := bind_eq_some_iff.1 hdeclared
    have hkind := declaration?_eq_some_iff.1 hd
    obtain ⟨htype, data, hdata, -, hisNone⟩ := typeToStamp_eq_some_iff.1 hu
    have hhas : w.tree.Has u := has_of_kind (by rw [hdata]; simp)
    have hnone : (w.tree.kind u).id? = none := by
      rw [hdata]
      exact hisNone
    have hid : ((w.tree.kind u).withId (some id)).id? = some id := by rw [hdata]; rfl
    have hfill := h.fill hhas hnone hid (.inr ⟨n, hn, h.typeToStamp_of hu, d, hkind, hcanonical⟩)
      (fun d' hd' ↦ by cases hdata.symm.trans hd') (List.Subset.refl _)
    have honly := (OnlyIds.refl w.tree).set hnone hid
    refine ends_write ?_ hfill.toOnlyIds (n := u) ?_ fun log ↦ ⟨hfill, honly, ?_, ?_⟩
    · rw [modifyType_of_kind hdata, hdata]
      rfl
    · rw [h.declaredType_eq] at htype
      exact ht.within_declaredType hn htype
    · intro d' hd' hnone
      obtain ⟨d₀, hd₀, hsettled⟩ := honly.declaration_of hd'
      cases hkind.symm.trans hd₀
      cases hnone.symm.trans (hsettled id hcanonical)
    · refine eq_none_iff_forall_ne_some.2 fun u' hu' ↦ ?_
      obtain ⟨htype', data', hdata', -, hnone'⟩ := typeToStamp_eq_some_iff.1 hu'
      rw [honly.declaredType_eq, htype] at htype'
      cases htype'
      rw [kind_setKind, if_pos ⟨rfl, hhas⟩, hdata] at hdata'
      cases hdata'
      cases hnone'
  next hnot =>
    refine ends_pure ⟨h, .refl _, hid, eq_none_iff_forall_ne_some.2 fun u hu ↦ ?_⟩
    by_cases hd : ∃ d, w.tree.kind n = .declaration d
    · obtain ⟨d, hkind⟩ := hd
      obtain ⟨id, hcanonical⟩ := ne_none_iff_exists'.1 (hid d hkind)
      refine hnot id u ?_ hu
      rw [declaration?_eq_some_iff.2 hkind]
      exact hcanonical
    · cases (identified_of_kind (not_exists.1 hd)).2.symm.trans hu

theorem ends_assignStep (ht : t.Linked) (h : Naming start t w.tree state.1) (hn : t.Within start n) :
    Ends (Unreported start t) (assignStep state n) w fun state' w' ↦ Naming start t w'.tree state'.1 ∧
      ∀ m, m = n ∨ w.tree.Identified m → w'.tree.Identified m := by
  refine (ends_assignOne h hn).bind fun r w₁ ⟨h₁, honly₁, hid⟩ ↦ ?_
  refine (ends_stamp ht h₁ hn hid).bind fun stamped w₂ ⟨h₂, honly₂, hidentified⟩ ↦ ?_
  refine ends_pure ⟨h₂, fun m hm ↦ ?_⟩
  rcases hm with rfl | hm
  · exact hidentified
  · exact honly₂.identified (honly₁.identified hm)

/-- Along the nodes the invariant holds, and a node that was passed needs no ID from then on. -/
theorem ends_foldlM {l : List NodeId} (ht : t.Linked) (h : Naming start t w.tree state.1)
    (hl : ∀ n ∈ l, t.Within start n) :
    Ends (Unreported start t) (l.foldlM assignStep state) w fun state' w' ↦ Naming start t w'.tree state'.1 ∧
      ∀ n, n ∈ l ∨ w.tree.Identified n → w'.tree.Identified n := by
  induction l generalizing state w with
  | nil => exact ends_pure ⟨h, fun n hn ↦ hn.resolve_left (by simp)⟩
  | cons n rest ih =>
    rw [foldlM_cons]
    refine (ends_assignStep ht h (hl n mem_cons_self)).bind fun state' w' ⟨h', hpassed⟩ ↦ ?_
    refine (ih h' fun m hm ↦ hl m (mem_cons_of_mem n hm)).mono (fun _ ↦ id)
      fun _ _ ⟨h₂, hrest⟩ ↦ ⟨h₂, fun m hm ↦ hrest m ?_⟩
    rcases hm with hm | hm
    · exact (mem_cons.1 hm).elim (fun heq ↦ .inr (hpassed m (.inl heq))) .inl
    · exact .inr (hpassed m (.inr hm))

theorem ends_assign (ht : w.tree.Coherent) :
    Ends (Unreported start w.tree) (assign start) w fun _ w' ↦ (∃ taken, Naming start w.tree w'.tree taken) ∧
      ∀ n, w.tree.Within start n → w'.tree.Identified n := by
  have hmem {n d} (hn : w.tree.Within start n) (hd : w.tree.kind n = .declaration d) :
      n ∈ w.tree.subtree start := ht.mem_ordered .pre (has_of_kind (by rw [hd]; simp)) hn
  have hnaming : Naming start w.tree w.tree ((w.tree.subtree start).filterMap fun n ↦
      (w.tree.declaration? n).bind Declaration.canonicalId) := {
    toOnlyIds := .refl _
    origin := fun hne ↦ absurd rfl hne
    taken := by
      rintro n id hn ⟨d, hd, hid⟩
      refine mem_filterMap.2 ⟨n, hmem hn hd, ?_⟩
      rw [declaration?_eq_some_iff.2 hd]
      exact hid
    distinct := id }
  refine ends_tree_bind ((ends_foldlM ht.toLinked hnaming fun _ ↦ ht.within_of_mem_ordered .pre).bind
    fun state w' ⟨h, hpassed⟩ ↦ ends_pure ⟨⟨_, h⟩, fun n hn ↦ ?_⟩)
  by_cases hd : ∃ d, w.tree.kind n = .declaration d
  · obtain ⟨d, hd⟩ := hd
    exact hpassed n (.inl (hmem hn hd))
  · exact hpassed n (.inr (identified_of_kind (not_exists.1 hd)))

/-- Where nothing is missing, naming does nothing. -/
theorem assignStep_of_identified (h : w.tree.Identified n) :
    assignStep state n w = .ok (state, w) := by
  have hone : assignOne state.1 n w = .ok ((state.1, false), w) := by
    have hknown : ((w.tree.declaration? n).any fun d ↦ d.canonicalId.isNone) = false := by
      refine Bool.eq_false_iff.2 fun hany ↦ ?_
      obtain ⟨d, hd, hnone⟩ := (any_eq_true _ _).1 hany
      exact h.1 d (declaration?_eq_some_iff.1 hd) (isNone_iff_eq_none.1 hnone)
    refine Pass.tree_bind.trans ?_
    rw [hknown]
    rfl
  have hstamp : stamp n w = .ok (false, w) := by
    refine Pass.tree_bind.trans ?_
    rw [h.2]
    cases (w.tree.declaration? n).bind Declaration.canonicalId <;> rfl
  refine (bind_of_ok hone).trans ((bind_of_ok hstamp).trans ?_)
  rw [Bool.or_false, Bool.or_false]
  rfl

theorem assign_of_identified (h : ∀ n ∈ w.tree.subtree start, w.tree.Identified n) :
    assign start w = .ok (false, w) := by
  refine Pass.tree_bind.trans ?_
  exact (bind_of_ok (Pass.foldlM_of_idle fun n hn ↦ assignStep_of_identified (h n hn))).trans rfl

/-- Naming succeeds unless a report of it fails, and to name again does nothing. -/
theorem assign_named (ht : w.tree.Coherent)
    (hdistinct : ∀ {n m id}, w.tree.Within start n → w.tree.Within start m → w.tree.Bears n id →
      w.tree.Bears m id → n = m) :
    Reports start w.tree (assign start) w fun _ w' ↦
      Named start w.tree w'.tree ∧ assign start w' = .ok (false, w') := by
  refine .of_ends <| (ends_assign ht).mono (fun _ ↦ id) fun _ w' ⟨⟨_, h⟩, hidentified⟩ ↦
    ⟨h.named ht.toLinked hdistinct hidentified, assign_of_identified fun n hn ↦ hidentified n ?_⟩
  exact h.links.within ((h.links.linked ht.toLinked).within_of_mem_ordered .pre hn)

/-- The second constant has the path of the first, which has its ID already. -/
def namesakes : Tree := .ofRows [
  (.root, [1, 2]),
  (.declares "c" .constant .internal "c", []),
  (.declares "c" .constant, [])]

theorem assign_named_namesakes :
    Reports root namesakes (assign root) ⟨namesakes, #[]⟩ fun _ w' ↦
      Named root namesakes w'.tree ∧ assign root w' = .ok (false, w') := by
  have hrooted : namesakes.Rooted := by decide
  have hbears : ∀ {n id}, namesakes.Bears n id → n = ⟨1⟩ := by
    rintro ⟨i⟩ id ⟨d, hd, hid⟩
    have hi : i < 3 := has_of_kind (t := namesakes) (n := ⟨i⟩) (by rw [hd]; simp)
    match i, hi with
    | 0, _ => cases hd
    | 1, _ => rfl
    | 2, _ =>
      cases hd
      cases hid
  exact assign_named (w := ⟨namesakes, #[]⟩) hrooted.toCoherent fun _ _ hn hm ↦
    (hbears hn).trans (hbears hm).symm

/-- A constant whose first child is a tuple without a type. -/
def untyped : Tree := .ofRows [
  (.root, [2]),
  (.literal .tuple, []),
  (.declares "c" .constant, [1])]

/-- The new ID of a constant cannot be reported, since a tuple in it has no text. -/
theorem assign_untyped : untyped.Rooted ∧
    (∀ n ∈ untyped.subtree root, (untyped.declaration? n).bind Declaration.canonicalId = none) ∧
      assign root ⟨untyped, #[]⟩ = .error .outOfRange := by
  refine ⟨by decide, by decide, ?_⟩
  rfl

end CanonicalId

end ProtocolIR
