import ProtocolIR.Proofs.Links.Sweeps
import ProtocolIR.Proofs.Round.WriteOnce
import ProtocolIR.Proofs.Unification.Rounds

/-!
# Resolved names stay valid

In a program as it is built, no name is bound, declarations, statements and items stand in the slots
for them, and the compound types are those of type declarations. Its region is then secure: what is
attached at the start, and what is made later. Rounds keep it secure, so whatever a name is bound to
stays attached to the root, with the canonical ID that the link has captured.
-/

namespace ProtocolIR

open Tree NodeKind

namespace Tree

variable {t : Tree} {n : NodeId}

/-- What a program as it is built asks of one of its nodes. -/
structure BuiltAt (t : Tree) (n : NodeId) : Prop where
  unresolved : (t.kind n).links = []
  framed : ∀ i < (t.slots n).length, ∀ c ∈ t.child n i, (t.kind c).isFixture = true →
    (t.kind n).frames i = true
  labelled : ∀ c ∈ t.children n, (t.kind c).isLabel = true → (t.kind n).isCompound = true
  signed : (t.kind n).isFunction = true → t.Signed n
  owned : (t.kind n).isCompound = true → t.Owned n

theorem builtAt_iff : t.BuiltAt n ↔ (t.kind n).links = [] ∧
    (∀ i < (t.slots n).length, ∀ c ∈ t.child n i, (t.kind c).isFixture = true →
      (t.kind n).frames i = true) ∧
    (∀ c ∈ t.children n, (t.kind c).isLabel = true → (t.kind n).isCompound = true) ∧
    ((t.kind n).isFunction = true → t.Signed n) ∧ ((t.kind n).isCompound = true → t.Owned n) :=
  ⟨fun ⟨h₁, h₂, h₃, h₄, h₅⟩ ↦ ⟨h₁, h₂, h₃, h₄, h₅⟩, fun ⟨h₁, h₂, h₃, h₄, h₅⟩ ↦ ⟨h₁, h₂, h₃, h₄, h₅⟩⟩

instance : Decidable (t.BuiltAt n) := decidable_of_iff _ builtAt_iff.symm

/-- A program as it is built: its names are not bound, its parts stand where they belong, and its
compound types are the qualified types of type declarations. -/
structure Program (t : Tree) : Prop extends Rooted t where
  top : t.parent root = none
  built : ∀ {n}, t.Within root n → t.BuiltAt n

theorem program_iff :
    t.Program ↔ t.Rooted ∧ t.parent root = none ∧ ∀ i < t.size, t.isAttached ⟨i⟩ = true → t.BuiltAt ⟨i⟩ := by
  constructor
  · exact fun h ↦ ⟨h.toRooted, h.top, fun i _ hi ↦ h.built (h.isWithin_iff.1 hi)⟩
  · rintro ⟨hrooted, htop, h⟩
    exact ⟨hrooted, htop, fun hn ↦ h _ (hn.has hrooted.has_root) (hrooted.isWithin_iff.2 hn)⟩

instance : Decidable t.Program := decidable_of_iff _ program_iff.symm

/-- The nodes that are attached, and those that are not there yet. -/
def Realm (t : Tree) (n : NodeId) : Prop := t.Has n → t.Within root n

namespace Program

variable (ht : t.Program)

include ht

theorem framed {p c : NodeId} {i : Nat} (hp : t.Within root p) (hc : t.child p i = some c)
    (hfixture : (t.kind c).isFixture = true) : (t.kind p).frames i = true :=
  (ht.built hp).framed i (List.getElem?_eq_some_iff.1 (child_eq_some_iff.1 hc)).1 c hc hfixture

/-- What is not loose hangs on firm edges, and so does the qualified type of a type declaration. -/
theorem anchored_of_within (hn : t.Within root n) :
    ((t.kind n).isLoose = false → t.Anchored n) ∧
      ((t.kind n).category = .qualified → ∀ d, t.parent n = some d → (t.kind d).isTypeDeclaration = true →
        t.Anchored n) := by
  induction hn with
  | here => exact ⟨fun _ ↦ .root, fun _ _ _ _ ↦ .root⟩
  | @beneath n p hp hwithin ih =>
    obtain ⟨i, hc⟩ := ht.exists_child hp
    refine ⟨fun hloose ↦ ?_, fun hqualified d hd hdecl ↦ ?_⟩
    · cases hfixture : (t.kind n).isFixture with
      | true =>
        have hframes := ht.framed hwithin hc hfixture
        have hholder : (t.kind p).isLoose = false := Bool.eq_false_iff.2 fun hp' ↦ by
          rw [frames_of_isLoose hp'] at hframes
          cases hframes
        exact .child (ih.1 hholder) hc (isFirm_of_frames hframes)
          (isExpression_of_isFixture hfixture)
      | false =>
        have hcompound : (t.kind n).isCompound = true := by simpa [isLoose, hfixture] using hloose
        obtain ⟨q, hq, d, hd, hdecl, -, hqualified, -⟩ := (ht.built (.beneath hp hwithin)).owned hcompound
        cases hp.symm.trans hq
        refine .child (ih.2 hqualified d hd hdecl) hc (isFirm_of_category (.inl hqualified)) ?_
        obtain ⟨data, hkind⟩ := exists_type_of_isCompound hcompound
        rw [hkind]
        rfl
    · cases hp.symm.trans hd
      obtain ⟨hfixture, hfirm, -⟩ := isFixture_of_isTypeDeclaration hdecl
      exact .child (ih.1 (isLoose_eq_false_of_isFixture hfixture)) hc hfirm
        (isExpression_of_category hqualified (by decide))

theorem secure : Secure t.Realm t where
  toLinked := ht.toLinked
  new hn hhas := absurd hhas hn
  top _ := .here
  below hn hc _ := .beneath (ht.parent_of_child hc) (hn (has_of_child_eq hc))
  above {n p} hn hp _ := by
    cases hn (has_of_parent hp) with
    | here => cases ht.top.symm.trans hp
    | beneath hq hwithin =>
      cases hp.symm.trans hq
      exact hwithin
  framed hn hc hfixture := ht.framed (hn (has_of_child_eq hc)) hc hfixture
  labelled hn hc hlabel :=
    (ht.built (hn (has_of_child_eq hc))).labelled _ (mem_children.2 (mem_slots_of_child hc)) hlabel
  owned hu hcompound := (ht.built (hu (has_of_isCompound hcompound))).owned hcompound
  signed hn hfunction := (ht.built (hn (has_of_isFunction hfunction))).signed hfunction
  anchored hn hhas hloose _ := (ht.anchored_of_within (hn hhas)).1 hloose
  links {n link} hn hlink := by
    rw [(ht.built (hn (has_of_mem_links hlink))).unresolved] at hlink
    cases hlink

end Program

end Tree

/-- The link of a name is among those that its node has recorded. -/
theorem NodeKind.mem_links_of_facts {k : NodeKind} {link : Link} (h : k.facts.link = some link) :
    link ∈ k.links := by
  cases k with
  | declaration d =>
    obtain ⟨_, _, _, kind⟩ := d
    cases kind <;> cases h
  | type data =>
    obtain ⟨shape, _, _, _⟩ := data
    cases shape with
    | name => exact Option.mem_toList.2 h
    | _ => cases h
  | expression e =>
    cases e with
    | name => exact Option.mem_toList.2 h
    | _ => cases h
  | _ => cases h

/-! ## Rounds -/

variable {region : NodeId → Prop} {w : Workspace}

theorem Registry.plainResults_builtin : Registry.builtin.PlainResults := by decide +kernel

namespace Round

theorem indexes_step {session : Session} {f : FrontEnd} (hechoes : ∀ c ∈ session.conversions, c.Echoes)
    (hscopes : ∀ {t}, Indexed region t → Indexed region (f.buildScopes t root))
    (hresolve : ∀ w, Indexed region w.tree → Indexes region (f.resolve session root) w)
    (hi : Indexed region w.tree) : Indexes region (step session root f) w := by
  refine Indexes.bind (ensures_debug fun _ ↦ hi) fun _ w₁ hi₁ ↦ ?_
  refine Indexes.bind (ensures_modifyTree (hscopes hi₁)) fun _ w₂ hi₂ ↦ ?_
  refine (CanonicalId.indexes_assign hi₂ root).bind fun _ w₃ hi₃ ↦ ?_
  refine (hresolve w₃ hi₃).bind fun _ w₄ hi₄ ↦ ?_
  refine (Unification.indexes_unify hi₄).bind fun _ w₅ hi₅ ↦ ?_
  exact (Coercion.indexes_sweep_coercions hechoes hi₅).bind fun _ _ hi ↦ indexes_pure hi _

end Round

namespace Compiler

variable (options : Options) {w' : Workspace}

/-- A round keeps a region secure. -/
theorem secure_of_round {b : Bool} (hs : Secure region w.tree) (h : round options w = .ok (b, w')) :
    Secure region w'.tree := by
  suffices hround : Indexes region (round options) w from (hround b w' h).toSecure
  have hechoes := (regular_standard options).echoes
  refine Indexes.bind (ensures_modifyTree hs.clearScopes) fun _ w₁ hi₁ ↦ ?_
  refine ensures_foldlM (p := fun _ (w : Workspace) ↦ Indexed region w.tree) (fun changed w f hf hi ↦ ?_) hi₁
  refine Indexes.bind ?_ fun _ _ hi ↦ indexes_pure hi _
  obtain rfl | rfl := eq_of_mem_frontEnds hf
  · exact Round.indexes_step hechoes (fun hi ↦ hi.buildUnitScopes)
      (fun w hi ↦ Units.Resolution.indexes_resolve hechoes hi) hi
  · refine Round.indexes_step hechoes (fun hi ↦ hi.buildScopes) (fun w hi ↦ ?_) hi
    exact (Resolution.indexes_resolve hi Registry.plainResults_builtin).bind fun _ _ hi ↦
      (Enumeration.indexes_normalize hi).bind fun _ _ hi ↦ indexes_pure hi _

/-- Any number of rounds keep a region secure. -/
theorem secure_of_rounds (hs : Secure region w.tree)
    (h : Relation.ReflTransGen (Rounds options) w w') : Secure region w'.tree := by
  induction h with
  | refl => exact hs
  | tail _ hround ih =>
    obtain ⟨b, hround⟩ := hround
    exact secure_of_round options ih hround

theorem rooted_of_rounds (ht : w.tree.Rooted) (h : Relation.ReflTransGen (Rounds options) w w') :
    w'.tree.Rooted := by
  induction h with
  | refl => exact ht
  | tail _ hround ih =>
    obtain ⟨b, hround⟩ := hround
    exact ((isStep_round options _ ih).post_of_ok hround).rooted ih

/-- After any number of rounds from a program as it was built, the link of every attached name leads
to its node: it is attached, and its canonical ID is the one that the link has captured, if any. -/
theorem linkTarget_of_rounds {w' : Workspace} (hprogram : w.tree.Program)
    (h : Relation.ReflTransGen (Rounds options) w w') {n : NodeId} {link : Link}
    (hn : w'.tree.isAttached n = true) (hlink : (w'.tree.kind n).facts.link = some link) :
    w'.tree.linkTarget link = some link.node ∧ w'.tree.isAttached link.node = true ∧
      ∀ d, w'.tree.declaration? link.node = some d → Settled link.canonicalId d.canonicalId := by
  have hrooted := rooted_of_rounds options hprogram.toRooted h
  have hsecure := secure_of_rounds options hprogram.secure h
  have hlasts : w'.tree.Lasts link :=
    hsecure.links (hsecure.region_of_within (hrooted.isWithin_iff.1 hn)) (mem_links_of_facts hlink)
  refine ⟨hlasts.linkTarget hrooted.toCoherent,
    hrooted.isWithin_iff.2 (hlasts.anchored.within hrooted.toLinked), fun d hd ↦ ?_⟩
  obtain ⟨d', hkind, hid⟩ | ⟨item, hkind⟩ := hlasts.target
  · cases hkind.symm.trans (declaration?_eq_some_iff.1 hd)
    exact hid
  · cases hkind.symm.trans (declaration?_eq_some_iff.1 hd)

/-- A module with an enum, a variable for it and a function. -/
def labelVariable : Tree := .ofRows [
  (.root, [20]),
  (.declares "A" (.label none false none) .external, []),
  (.shaped .enumeration, [1]),
  (.value .const, [2]),
  (.declares "E" .type .external, [3]),
  (.shaped (.name (.ofText "E") none), []),
  (.place, [5]),
  (.expression (.name (.ofText "E::A") none), [0]),
  (.declares "x" .globalVariable .external, [6, 7]),
  (.shaped (.signed 64), []),
  (.value, [9]),
  (.shaped (.signed 64), []),
  (.place, [11]),
  (.declares "p" (.parameter .input), [12, 0]),
  (.shaped .function, [10, 13]),
  (.value .const, [14]),
  (.expression (.name (.ofText "p") none), [0]),
  (.statement .ret, [16]),
  (.statement .block, [17]),
  (.declares "f" (.function none none) .external, [15, 18]),
  (.declares "m" .module .external, [4, 8, 19])]

/-- The names of the enum, of its label and of the parameter are bound in the first round. -/
theorem linkTarget_of_rounds_label :
    labelVariable.Program ∧ ∃ w w' : Workspace, Rounds {} ⟨labelVariable, #[]⟩ w ∧ Rounds {} w w' ∧
      ∀ p ∈ [(⟨5⟩, Link.mk ⟨4⟩ (some "m::E")), (⟨7⟩, ⟨⟨1⟩, some "m::E::A"⟩), (⟨16⟩, ⟨⟨13⟩, some "m::f::p"⟩)],
        w'.tree.isAttached p.1 = true ∧ (w'.tree.kind p.1).facts.link = some p.2 ∧
          w'.tree.linkTarget p.2 = some p.2.node := by
  have hprogram : labelVariable.Program := by decide +kernel
  have hrun : ∃ r ∈ (round {} ⟨labelVariable, #[]⟩).toOption, ∃ r' ∈ (round {} r.2).toOption,
      ∀ p ∈ [(⟨5⟩, Link.mk ⟨4⟩ (some "m::E")), (⟨7⟩, ⟨⟨1⟩, some "m::E::A"⟩), (⟨16⟩, ⟨⟨13⟩, some "m::f::p"⟩)],
        r'.2.tree.isAttached p.1 = true ∧ (r'.2.tree.kind p.1).facts.link = some p.2 := by
    decide +kernel
  obtain ⟨⟨b, w⟩, hround, ⟨b', w'⟩, hround', hnames⟩ := hrun
  have hw : Rounds {} ⟨labelVariable, #[]⟩ w := rounds_of_mem {} hround
  have hw' : Rounds {} w w' := rounds_of_mem {} hround'
  refine ⟨hprogram, w, w', hw, hw', fun p hp ↦ ?_⟩
  obtain ⟨hattached, hlink⟩ := hnames p hp
  exact ⟨hattached, hlink, (linkTarget_of_rounds {} hprogram (.tail (.single hw) hw') hattached hlink).1⟩

end Compiler

end ProtocolIR
