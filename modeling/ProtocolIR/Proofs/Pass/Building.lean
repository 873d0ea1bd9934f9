import ProtocolIR.Coercion.Application
import ProtocolIR.Proofs.Pass.Turn
import ProtocolIR.Resolution

/-!
# What the passes build

The types, expressions and literals that passes put into the tree are built beside it first, from
references to types, from copies, and from new nodes around them. All of these builders are safe in
every tree; the one that retypes a literal needs a literal. What was built is said by one relation,
from which it follows that the old nodes are as they were and that the tree is kept faithful.
-/

namespace ProtocolIR

open Tree List NodeKind

/-! ## Kinds -/

namespace DeclarationKind

def isParameter : DeclarationKind → Bool
  | parameter _ => true
  | _ => false

def isLabel : DeclarationKind → Bool
  | label .. => true
  | _ => false

end DeclarationKind

namespace NodeKind

def isLabel (kind : NodeKind) : Bool := kind.declaration?.any fun d ↦ d.kind.isLabel

/-- What a program consists of besides types, values and parameters. -/
def isFixture : NodeKind → Bool
  | root | statement _ | item _ => true
  | declaration d => !d.kind.isParameter
  | _ => false

def isCompound : NodeKind → Bool
  | type data => data.shape.category.isCompound
  | _ => false

/-- What can be put into any slot, and copied. -/
def isLoose (kind : NodeKind) : Bool := !kind.isFixture && !kind.isCompound

/-- The links that a node of the kind has recorded. -/
def links : NodeKind → List Link
  | declaration d =>
    match d.kind with
    | .function owner prototype => owner.toList ++ prototype.toList
    | .label _ _ owner => owner.toList
    | _ => []
  | type data =>
    match data.shape with
    | .name _ resolved => resolved.toList
    | _ => []
  | expression (.name _ resolved) => resolved.toList
  | expression (.resolved _ (.function link)) => [link]
  | _ => []

/-- The kind of a node that is built around pieces. -/
structure IsBuilt (kind : NodeKind) : Prop extends kind.Plain where
  loose : kind.isLoose = true
  links : kind.links = []

theorem isBuilt_qualified (q : Qualifiers) : (qualified q).IsBuilt := ⟨⟨rfl, nofun⟩, rfl, rfl⟩

theorem isBuilt_literal (l : Literal) : (literal l).IsBuilt := ⟨(inert_literal l).plain, rfl, rfl⟩

end NodeKind

variable {t t₁ : Tree} {n c : NodeId} {slots : List (Option NodeId)} {kind : NodeKind}
  {location : Option Location}

/-- A computation that, started anywhere, builds one piece and keeps the tree faithful. -/
def Growing (m : Surgery NodeId) : Prop := ∀ t, Safe m t fun c t' ↦ Grows t t' ∧ Piece t t' c

/-! ## Making nodes -/

theorem safe_create_plain (location : Option Location) (h : Grows t t₁) (hpieces : Pieces t t₁ slots)
    (hplain : kind.Plain) :
    Safe (Surgery.create kind slots location) t₁ fun c t₂ ↦ Grows t t₂ ∧ Piece t t₂ c :=
  (returns_create kind location fun _ hc ↦ (hpieces.piece hc).free).safe.mono fun _ _ hcreate ↦
    ⟨h.create hpieces hplain hcreate, piece_create h.toGrowth hpieces hcreate⟩

theorem growing_create (location : Option Location) (hplain : kind.Plain) :
    Growing (Surgery.create kind [] location) := fun t ↦
  safe_create_plain location (.refl t) (.nil t t) hplain

/-- Qualifies the type that was built last. -/
theorem safe_create_qualified (q : Qualifiers) (location : Option Location)
    (h : Grows t t₁ ∧ Piece t t₁ c) :
    Safe (Surgery.create (.qualified q) [some c] location) t₁ fun c t₂ ↦ Grows t t₂ ∧ Piece t t₂ c :=
  safe_create_plain location h.1 (.single h.2) (isBuilt_qualified q).toPlain

theorem safe_build_bind {α β : Type} {m : Build α} {k : α → Build β} {post : β → Tree → Prop} :
    Safe ((m >>= k).run location) t post ↔
      Safe (m.run location) t fun a t' ↦ Safe ((k a).run location) t' post :=
  safe_bind (m := m.run location) (k := fun a ↦ (k a).run location)

/-! ## Types -/

theorem growing_copy (n : NodeId) : Growing (Surgery.copy n) := by
  refine fun t ↦ (safe_copy n t).mono fun c t' h ↦ ?_
  obtain ⟨hgrowth, hpieces⟩ := h.pieces
  refine ⟨⟨hgrowth, fun ht hf ↦ ?_⟩, hpieces.piece (mem_singleton_self _)⟩
  obtain ⟨r, hr, -⟩ := h.copies_self ht.toLinked
  exact hr.faithful hgrowth ht.toLinked hf

theorem growing_typeReference (n : NodeId) : Growing (Surgery.typeReference n) := by
  intro t
  unfold Surgery.typeReference
  refine safe_bind.2 (safe_get.2 ?_)
  split
  · exact growing_copy n t
  next u decl _ =>
    split
    · exact growing_copy n t
    next d _ =>
      refine (growing_create _ (.type _) t).bind fun name t₁ hname ↦ ?_
      split
      next q _ => exact safe_create_qualified q _ hname
      · exact hname

theorem growing_plainValueType (shape : TypeShape) (constness : Constness) :
    Growing (Surgery.plainValueType shape constness) := by
  intro t
  refine (growing_create none (.type shape) t).bind fun u t₁ ⟨hgrows, hpiece⟩ ↦ ?_
  refine safe_bind.2 (safe_map.2 ?_)
  exact safe_create_qualified _ _ ⟨hgrows.unifyType hpiece.new, hpiece.unifyType⟩

/-- A node of a type `bool`, as conditions have it. -/
structure Tree.IsBool (t : Tree) (q : NodeId) : Prop where
  kind_eq : t.kind q = .qualified (.value .const)
  exists_type : ∃ u, t.slots q = [some u] ∧ t.slots u = [] ∧
    t.kind u = .type { shape := .bool, unification := some "bool" }

/-- The text of `bool` is put on record. -/
theorem unifyType_bool {u : NodeId} (hu : t.kind u = .shaped .bool) :
    t.unifyType u = (true, t.setKind u (.shaped .bool "bool")) := by
  have hdata := typeData?_eq_some_iff.2 hu
  have htext : t.serialize u = some "bool" := by
    unfold serialize serializationDepth serializeWithin
    rw [unqualified_of_type hu, Option.bind_eq_bind, Option.bind_some, hdata]
    rfl
  unfold unifyType
  rw [hdata, htext]

/-- The steps in which the type of conditions is made. -/
theorem exists_plainValueType_bool (t : Tree) :
    ∃ t₁ t₂ t', t.create (.shaped .bool) [] none = .ok (⟨t.size⟩, t₁) ∧
      t₂ = t₁.setKind ⟨t.size⟩ (.shaped .bool "bool") ∧
      t₂.create (.value .const) [some ⟨t.size⟩] none = .ok (⟨t.size + 1⟩, t') ∧
      Surgery.plainValueType .bool .const t = .ok (⟨t.size + 1⟩, t') := by
  obtain ⟨t₁, hu⟩ : ∃ t₁, t.create (.shaped .bool) [] none = .ok (⟨t.size⟩, t₁) :=
    exists_create _ _ (by simp)
  have hfree := (piece_create (.refl t) (.nil t t) hu).free
  have hsize : (t₁.setKind ⟨t.size⟩ (.shaped .bool "bool")).size = t.size + 1 := by
    rw [size_setKind, size_create hu]
  obtain ⟨t', hq⟩ : ∃ t', (t₁.setKind ⟨t.size⟩ (.shaped .bool "bool")).create (.value .const)
      [some ⟨t.size⟩] none = .ok (⟨t.size + 1⟩, t') := by
    rw [← hsize]
    exact exists_create _ _ (by simp [hfree])
  have hunify : (discard (Surgery.unifyType ⟨t.size⟩) : Surgery Unit) t₁ =
      .ok ((), t₁.setKind ⟨t.size⟩ (.shaped .bool "bool")) := by
    show (Except.ok (t₁.unifyType ⟨t.size⟩) >>= fun r ↦ Except.ok ((), r.2)) = _
    rw [unifyType_bool (kind_create_self hu)]
    rfl
  refine ⟨t₁, _, t', hu, rfl, hq, (bind_of_ok (m := Surgery.create _ _ _) hu).trans ?_⟩
  exact (bind_of_ok hunify).trans hq

/-- Making the type of conditions never fails, and adds only the type and its qualification. -/
theorem plainValueType_bool (t : Tree) :
    ∃ q t', Surgery.plainValueType .bool .const t = .ok (q, t') ∧ Growth t t' ∧ Piece t t' q ∧
      t'.IsBool q ∧ t'.size = t.size + 2 ∧
        ∀ n, ¬t.Has n → t'.Has n → (t'.kind n).IsType ∧ t'.scopeOf n = none := by
  obtain ⟨t₁, t₂, t', hu, ht₂, hq, hrun⟩ := exists_plainValueType_bool t
  have hpiece₁ := piece_create (.refl t) (.nil t t) hu
  have hgrowth : Growth t t₂ := ht₂ ▸ ((Growth.refl t).create (.nil t t) hu).setKind hpiece₁.new _
  have hpiece : Piece t t₂ ⟨t.size⟩ := ht₂ ▸ hpiece₁.setKind _ _
  have hnode_u : t'.node ⟨t.size⟩ = { kind := .shaped .bool "bool", parent := some ⟨t.size + 1⟩ } := by
    rw [node_create_of_has hq hpiece.has, if_pos (mem_singleton_self _), ht₂, setKind, node_modifyNode,
      if_pos ⟨rfl, hpiece₁.has⟩, node_create_self hu not_mem_nil]
  have hnode_q : t'.node ⟨t.size + 1⟩ = { kind := .value .const, slots := [some ⟨t.size⟩] } :=
    node_create_self hq (by simp)
  have hsize : t'.size = t.size + 2 := by rw [size_create hq, ht₂, size_setKind, size_create hu]
  refine ⟨_, t', hrun, hgrowth.create (.single hpiece) hq, piece_create hgrowth (.single hpiece) hq,
    ⟨by unfold kind; rw [hnode_q], _, by unfold slots; rw [hnode_q],
      by unfold slots; rw [hnode_u], by unfold kind; rw [hnode_u]⟩, hsize, ?_⟩
  rintro ⟨i⟩ hnew hn
  obtain rfl | rfl : i = t.size ∨ i = t.size + 1 := by
    have hlt : i < t'.size := hn
    have hle : ¬i < t.size := hnew
    omega
  · unfold kind scopeOf
    rw [hnode_u]
    exact ⟨.inl rfl, rfl⟩
  · unfold kind scopeOf
    rw [hnode_q]
    exact ⟨.inr rfl, rfl⟩

/-! ## What was built -/

/-- What a lookup finds, and members of types. -/
def Tree.Finds (t : Tree) (d : NodeId) : Prop :=
  (∃ n id, d ∈ t.lookup n id) ∨ ∃ type id, d ∈ Selection.membersNamed t type id

/-- The link to something that is found. -/
def Tree.FindsLink (t : Tree) (link : Link) : Prop := ∃ d, t.Finds d ∧ link = t.linkTo d

/-- What builders take from a tree: types to refer to, literals to copy, and the shapes of types
without parts. -/
structure Sources where
  type : NodeId → Prop
  literal : NodeId → Prop
  shape : TypeShape → Prop

def Sources.any : Sources := ⟨fun _ ↦ True, fun _ ↦ True, fun _ ↦ True⟩

variable {s : Sources} {t t₁ t₂ t' : Tree} {n c u dst old : NodeId} {l : Literal} {cs : List NodeId}
  {kind : NodeKind} {location : Option Location}

/-- Pieces that were built beside a tree, one after the other. -/
inductive Crafted (s : Sources) : Tree → Tree → List NodeId → Prop
  | nil (t : Tree) : Crafted s t t []
  | reference {n c : NodeId} {t t' : Tree} : s.type n → Surgery.typeReference n t = .ok (c, t') →
    Crafted s t t' [c]
  | plain {shape : TypeShape} {constness : Constness} {c : NodeId} {t t' : Tree} : s.shape shape →
    Surgery.plainValueType shape constness t = .ok (c, t') → Crafted s t t' [c]
  | copy {n c : NodeId} {t t' : Tree} : s.literal n → Surgery.copy n t = .ok (c, t') → Crafted s t t' [c]
  | node {kind : NodeKind} {location : Option Location} {c : NodeId} {cs : List NodeId} {t t₁ t' : Tree} :
    Crafted s t t₁ cs → kind.IsBuilt → t₁.create kind (cs.map some) location = .ok (c, t') →
    Crafted s t t' [c]
  | link {id : QualifiedId} {link : Link} {c : NodeId} {t t₁ : Tree} : Crafted s t t₁ [c] →
    t₁.kind c = .type { shape := .name id none } → t.FindsLink link →
    Crafted s t (t₁.setKind c (.type { shape := .name id (some link) })) [c]
  | cons {c : NodeId} {cs : List NodeId} {t t₁ t' : Tree} : Crafted s t t₁ [c] → Crafted s t₁ t' cs →
    Crafted s t t' (c :: cs)
  | part {cs cs' : List NodeId} {t t' : Tree} : Crafted s t t' cs → cs'.Subperm cs → Crafted s t t' cs'

namespace Crafted

theorem grows (h : Crafted s t t' cs) : Grows t t' ∧ Pieces t t' (cs.map some) := by
  have hone {m : Surgery NodeId} (hm : Growing m) {t t' : Tree} {c : NodeId} (hrun : m t = .ok (c, t')) :
      Grows t t' ∧ Pieces t t' [some c] :=
    ((hm t).post_of_ok hrun).imp_right .single
  induction h with
  | nil t => exact ⟨.refl t, .nil t t⟩
  | reference _ hrun => exact hone (growing_typeReference _) hrun
  | plain _ hrun => exact hone (growing_plainValueType _ _) hrun
  | copy _ hrun => exact hone (growing_copy _) hrun
  | node _ hkind hcreate ih =>
    exact ⟨ih.1.create ih.2 hkind.toPlain hcreate, .single (piece_create ih.1.toGrowth ih.2 hcreate)⟩
  | link _ hkind _ ih =>
    have hpiece := ih.2.piece (mem_singleton_self _)
    exact ⟨ih.1.edit (ih.1.toGrowth.setKind hpiece.new _) fun _ ↦ .of_resolved hkind rfl _,
      .single (hpiece.setKind _ _)⟩
  | cons _ _ ih ih' =>
    exact ⟨ih.1.trans ih'.1, .cons_some (ih.2.piece (mem_singleton_self _)) ih.1.toGrowth ih'.1.toGrowth ih'.2⟩
  | part _ hsub ih =>
    refine ⟨ih.1, fun hc ↦ ih.2.piece (map_subset _ hsub.subset hc), ?_⟩
    have hnodup := ih.2.nodup
    simp only [filterMap_map, Function.id_comp, filterMap_some] at hnodup ⊢
    obtain ⟨l, hperm, hl⟩ := hsub
    exact hperm.nodup_iff.1 (hnodup.sublist hl)

variable (h : Crafted s t t₁ cs)

include h

theorem growth : Growth t t₁ := h.grows.1.toGrowth

theorem piece (hc : c ∈ cs) : Piece t t₁ c := h.grows.2.piece (mem_map_of_mem hc)

/-- A new node around the pieces. -/
theorem create (hkind : kind.IsBuilt) (location : Option Location) :
    Safe (Surgery.create kind (cs.map some) location) t₁ fun c t₂ ↦
      Crafted s t t₂ [c] ∧ t₂.kind c = kind :=
  (returns_create kind location fun _ hc ↦ (h.grows.2.piece hc).free).safe.mono fun _ _ hcreate ↦
    ⟨.node h hkind hcreate, kind_create_self hcreate⟩

theorem around (hkind : kind.IsBuilt) (location : Option Location) :
    Safe (Surgery.create kind (cs.map some) location) t₁ fun c t₂ ↦ Crafted s t t₂ [c] :=
  (h.create hkind location).mono fun _ _ hc ↦ hc.1

theorem container {shape : TypeShape} (hloose : (NodeKind.type { shape }).isLoose = true)
    (hlinks : (NodeKind.type { shape }).links = []) :
    Safe ((Build.type shape (cs.map some)).run location) t₁ fun c t₂ ↦ Crafted s t t₂ [c] :=
  h.around ⟨.type shape, hloose, hlinks⟩ location

end Crafted

/-- One piece was built, or the tree was left as it is. -/
def CraftedOption (s : Sources) (t : Tree) (r : Option NodeId) (t' : Tree) : Prop :=
  r.elim (t' = t) fun c ↦ Crafted s t t' [c]

/-! ## References to types -/

theorem crafts_typeReference (hn : s.type n) :
    Safe (Surgery.typeReference n) t fun c t' ↦ Crafted s t t' [c] :=
  (growing_typeReference n t).self.mono fun _ _ hrun ↦ .reference hn hrun

/-- A reference to a type, qualified anew. -/
theorem crafts_qualified (hn : s.type n) (q : Qualifiers) (location : Tree → Option Location) :
    Safe (Surgery.typeReference n >>= fun inner ↦ get >>= fun t ↦
      Surgery.create (.qualified q) [some inner] (location t)) t fun c t' ↦ Crafted s t t' [c] :=
  (crafts_typeReference hn).bind fun _ t₁ hinner ↦ hinner.around (isBuilt_qualified q) (location t₁)

theorem crafts_valueCopy (hn : ∀ u, t.unqualified n = some u → s.type u) :
    Safe (Resolution.valueCopy n) t (CraftedOption s t) := by
  refine safe_bind.2 (safe_get.2 ?_)
  split
  · exact rfl
  next u hu =>
    refine (crafts_typeReference (hn u hu)).bind fun inner t₁ hinner ↦ ?_
    exact safe_bind.2 (safe_get.2 (safe_map.2 (hinner.around (isBuilt_qualified _) _)))

theorem crafts_targetType (hdst : s.type ((t.unqualified dst).getD dst)) (constness : Constness) :
    Safe (Coercion.targetType dst constness) t fun c t' ↦ Crafted s t t' [c] :=
  crafts_qualified hdst _ (·.location dst)

/-! ## Results of operators -/

theorem crafts_builtinResult {operands : List NodeId} {rule : ResultRule}
    (hshape : ∀ shape, rule = .type shape → s.shape shape)
    (htype : ∀ {e type}, e ∈ operands → t.expressionType e = some type →
      ∀ u, t.unqualified type = some u ∨ t.elementType type = some u → s.type u) :
    Safe (Resolution.builtinResult operands rule) t (CraftedOption s t) := by
  cases rule with
  | type shape =>
    exact safe_map.2 ((growing_plainValueType shape .mutable t).self.mono fun _ _ hrun ↦
      .plain (hshape shape rfl) hrun)
  | sameAs j =>
    refine safe_bind.2 (safe_get.2 ?_)
    split
    next type h =>
      obtain ⟨e, he, htyped⟩ := Option.bind_eq_some_iff.1 h
      exact crafts_valueCopy fun u hu ↦ htype (mem_of_getElem? he) htyped u (.inl hu)
    · exact rfl
  | elementOf j =>
    refine safe_bind.2 (safe_get.2 ?_)
    split
    next element h =>
      obtain ⟨type, h, helement⟩ := Option.bind_eq_some_iff.1 h
      obtain ⟨e, he, htyped⟩ := Option.bind_eq_some_iff.1 h
      exact safe_map.2 (crafts_typeReference (htype (mem_of_getElem? he) htyped element (.inr helement)))
    · exact rfl
  | field => exact rfl

/-! ## Types of literals and names -/

theorem crafts_elementTypes {types : List NodeId}
    (htypes : ∀ type ∈ types, ∀ u, t.unqualified type = some u → s.type u) :
    Safe (Resolution.elementTypes types) t fun cs t' ↦ Crafted s t t' cs := by
  have hsources : ∀ u ∈ types.filterMap t.unqualified, s.type u := fun u hu ↦ by
    obtain ⟨type, htype, hu⟩ := mem_filterMap.1 hu
    exact htypes type htype u hu
  refine safe_bind.2 (safe_get.2 ?_)
  generalize types.filterMap t.unqualified = us at hsources
  clear htypes
  induction us generalizing t with
  | nil => exact .nil t
  | cons u us ih =>
    rw [mapM_cons]
    obtain ⟨hu, hus⟩ := forall_mem_cons.1 hsources
    refine (crafts_qualified hu _ fun _ ↦ none).bind fun c t₁ hc ↦ ?_
    exact (ih hus).bind fun cs t₂ hcs ↦ hc.cons hcs

theorem crafts_literalType (l : Literal) {elements : List NodeId} (h : Crafted s t t₁ elements) :
    Safe ((Resolution.literalType l elements).run location) t₁ fun c t₂ ↦ Crafted s t t₂ [c] := by
  have hhead {e : NodeId} {rest : List NodeId} (heq : elements = e :: rest) : Crafted s t t₁ [e] :=
    .part (heq ▸ h) (singleton_subperm_iff.2 mem_cons_self)
  unfold Resolution.literalType
  split
  · exact h.container rfl rfl
  next e rest =>
    refine safe_build_bind.2 (((hhead rfl).container rfl rfl).mono fun iterator t₂ hiterator ↦ ?_)
    refine safe_build_bind.2 ((hiterator.around (isBuilt_qualified _) location).mono fun q t₃ hq ↦ ?_)
    exact hq.container rfl rfl
  · exact (hhead rfl).container rfl rfl
  · exact (hhead rfl).container rfl rfl
  · exact fun h ↦ h

section SetResolved

variable {id : QualifiedId} (link : Link)

theorem Resolution.setResolved_of_name (h : t.kind n = .expression (.name id none)) :
    t.setResolved n link = .ok (t.setKind n (.expression (.name id (some link)))) := by
  unfold setResolved
  rw [h]
  rfl

theorem Resolution.setResolved_of_type {data : TypeData} (h : t.kind n = .type data)
    (hshape : data.shape = .name id none) :
    t.setResolved n link = .ok (t.setKind n (.type { data with shape := .name id (some link) })) := by
  unfold setResolved
  rw [h]
  dsimp only
  rw [hshape]
  rfl

end SetResolved

/-- An expression for a type that is referred to by name. -/
theorem crafts_namedType (id : QualifiedId) {link : Link} (location : Option Location) (hlink : t.FindsLink link) :
    Safe (Build.runAt location do
      let type ← Build.nameType id
      Surgery.setResolved type link
      let type ← Build.valueType type .const
      Build.typeExpression type) t fun c t' ↦ Crafted s t t' [c] ∧ t'.kind c = .expression .type := by
  have hname := (Crafted.nil (s := s) t).create ⟨.type (.name id none), rfl, rfl⟩ location
  refine safe_build_bind.2 (hname.mono fun name t₁ ⟨hcrafted, hkind⟩ ↦ ?_)
  refine safe_build_bind.2 (safe_update (Resolution.setResolved_of_type link hkind rfl) ?_)
  have h₁ := hcrafted.link hkind hlink
  refine safe_build_bind.2 ((h₁.around (isBuilt_qualified _) location).mono fun q t₂ h₂ ↦ ?_)
  refine safe_build_bind.2 ((h₂.container rfl rfl).mono fun _ t₃ h₃ ↦ ?_)
  refine safe_build_bind.2 ((h₃.around (isBuilt_qualified _) location).mono fun _ t₄ h₄ ↦ ?_)
  exact h₄.create ⟨(inert_expression .type).plain, rfl, rfl⟩ location

/-! ## Literals of another type -/

/-- The value inside goes into an optional literal of the target type. -/
theorem crafts_optionalAround {inner : NodeId} (location : Option Location) (h : Crafted s t t₁ [inner])
    (hdst : ∀ {t'}, Growth t t' → s.type ((t'.unqualified dst).getD dst)) :
    Safe (do
      let value ← Surgery.create (.expression .literal) [some inner] location
      let type ← Coercion.targetType dst .const
      Surgery.create (.literal .optional) [some type, some value] location) t₁
      fun c t' ↦ Crafted s t t' [c] := by
  refine (h.around ⟨(inert_expression _).plain, rfl, rfl⟩ _).bind fun value t₂ hvalue ↦ ?_
  refine (crafts_targetType (hdst hvalue.growth) .const).bind fun type t₃ htype ↦ ?_
  exact (Crafted.part (hvalue.cons htype) (Perm.swap ..).subperm).around (isBuilt_literal _) location

/-- Types that can be referred to, with those inside of optionals. -/
structure Sources.Targets (s : Sources) (t : Tree) (p : NodeId → Prop) : Prop where
  type : ∀ {dst t'}, p dst → Growth t t' → s.type ((t'.unqualified dst).getD dst)
  element : ∀ {dst d element}, p dst → t.follow dst = some d → (t.shape? d).getD .unknown = .optional →
    t.child d 0 = some element → p element

theorem Sources.targets_any : Sources.any.Targets t fun _ ↦ True :=
  ⟨fun _ _ ↦ trivial, fun _ _ _ _ ↦ trivial⟩

theorem crafts_retypeWithin {p : NodeId → Prop} (htargets : s.Targets t p) (hold : s.literal old)
    (hl : t.literal? old = some l) (fuel : Nat) (hdst : p dst) :
    Safe (Coercion.retypeWithin fuel old dst) t fun c t' ↦ Crafted s t t' [c] := by
  induction fuel generalizing dst with
  | zero => exact fun h ↦ h
  | succ fuel ih =>
    unfold Coercion.retypeWithin
    refine safe_bind.2 (safe_get.2 ?_)
    rw [hl]
    dsimp only
    split
    next hneeds =>
      have hcopy := ((growing_copy old t).self.mono fun _ _ hrun ↦ Crafted.copy hold hrun).bind
        fun inner t₁ hinner ↦ crafts_optionalAround (t.location old) hinner (htargets.type hdst)
      split
      next element helement =>
        split
        · exact hcopy
        obtain ⟨d, hd, hc⟩ := Option.bind_eq_some_iff.1 helement
        rw [hd] at hneeds
        have helement := htargets.element hdst hd (eq_of_beq (Bool.and_eq_true_iff.1 hneeds).1) hc
        exact (ih helement).bind fun inner t₁ hinner ↦
          crafts_optionalAround _ hinner (htargets.type hdst)
      · exact hcopy
    · refine (crafts_targetType (htargets.type hdst (.refl t)) .const).bind fun type t₁ htype ↦ ?_
      exact htype.around (isBuilt_literal _) _

theorem crafts_retypeLiteral {p : NodeId → Prop} (htargets : s.Targets t p) (hold : s.literal old)
    (hl : t.literal? old = some l) (hdst : p dst) :
    Safe (Coercion.retypeLiteral old dst) t fun c t' ↦ Crafted s t t' [c] :=
  safe_bind.2 (safe_get.2 (crafts_retypeWithin htargets hold hl _ hdst))

end ProtocolIR
