import ProtocolIR.Operator.Selection
import ProtocolIR.Proofs.Safety
import ProtocolIR.Proofs.Tree.Views

/-!
# Texts have no structural faults

The text of a node is put together from the texts of its parts. So what holds of the texts of all
parts holds of the text, if it holds of a text alone and of the lack of a slot. In particular writing
a node can fail for want of a slot or because a text never ends, but not for a reason that lies in the
structure of the tree, and reports and the choice of operators are sound.
-/

namespace ProtocolIR.Tree

open List

/-- A relation that is kept when texts are put together, and that two writers have at all nodes which are
written as parts of others. -/
structure Compares (rel : {α : Type} → Except Fault α → Except Fault α → Prop) (t : Tree)
    (r r' : Writer) : Prop where
  ok : ∀ {α : Type} (a : α), rel (.ok a) (.ok a)
  outOfRange : ∀ {α : Type}, rel (.error .outOfRange : Except Fault α) (.error .outOfRange)
  bind : ∀ {α β : Type} {x y : Except Fault α} {k k' : α → Except Fault β}, rel x y →
    (∀ a, rel (k a) (k' a)) → rel (x >>= k) (y >>= k')
  held : ∀ {n c}, some c ∈ t.slots n → rel (r c) (r' c)
  element : ∀ {n c}, t.elementType n = some c → rel (r c) (r' c)

namespace Compares

variable {rel : {α : Type} → Except Fault α → Except Fault α → Prop} {t : Tree} {r r' : Writer}

variable (h : Compares rel t r r')

include h

theorem map {α β : Type} {x y : Except Fault α} (f : α → β) (hxy : rel x y) :
    rel (x >>= fun a ↦ pure (f a)) (y >>= fun a ↦ pure (f a)) := h.bind hxy fun _ ↦ h.ok _

theorem mapM {ι α : Type} {f g : ι → Except Fault α} {l : List ι} (hfg : ∀ i ∈ l, rel (f i) (g i)) :
    rel (l.mapM f) (l.mapM g) := by
  induction l with
  | nil => exact h.ok _
  | cons i l ih =>
    rw [mapM_cons, mapM_cons]
    refine h.bind (hfg i mem_cons_self) fun _ ↦ h.map _ (ih fun j hj ↦ hfg j (mem_cons_of_mem i hj))

theorem writeOption {part : Option NodeId} (hpart : ∀ c, part = some c → rel (r c) (r' c)) :
    rel (writeOption r part) (writeOption r' part) := by
  cases part with
  | none => exact h.ok _
  | some c => exact hpart c rfl

theorem writeSlot (n : NodeId) (i : Nat) : rel (writeSlot t r n i) (writeSlot t r' n i) :=
  h.writeOption fun _ hc ↦ h.held (mem_slots_of_child hc)

theorem writeAll {n : NodeId} {parts : List NodeId} (hparts : ∀ c ∈ parts, some c ∈ t.slots n)
    (separator : String) : rel (writeAll r parts separator) (writeAll r' parts separator) :=
  h.map _ (h.mapM fun c hc ↦ h.held (hparts c hc))

variable (n : NodeId)

/-- What stands after the first slot, written one after the other. -/
theorem writeTail (around : String → String) :
    rel (t.tail n >>= fun rest ↦ Tree.writeAll r rest ", " >>= fun text ↦ pure (around text))
      (t.tail n >>= fun rest ↦ Tree.writeAll r' rest ", " >>= fun text ↦ pure (around text)) := by
  unfold tail
  cases hslots : t.slots n with
  | nil => exact h.outOfRange
  | cons first rest =>
    refine h.map around (h.writeAll (n := n) (fun c hc ↦ ?_) ", ")
    rw [hslots]
    exact mem_cons_of_mem first (by simpa using hc)

/-- A part that is written only if it is there. -/
theorem writePart (i : Nat) (around : String → String) (absent : String) :
    rel (match t.child n i with
        | some value => do return around (← r value)
        | none => .ok absent)
      (match t.child n i with
        | some value => do return around (← r' value)
        | none => .ok absent) := by
  cases hc : t.child n i with
  | none => exact h.ok _
  | some value => exact h.map around (h.held (mem_slots_of_child hc))

theorem writeType : rel (writeType t r n) (writeType t r' n) := by
  unfold Tree.writeType
  split
  · exact h.ok _
  next u data _ =>
    dsimp only
    split
    · exact h.ok _
    split
    all_goals first
      | exact h.ok _
      | exact h.map _ (h.writeOption fun _ ↦ h.element)
      | exact h.map _ (h.writeSlot _ _)
      | exact h.map _ (h.writeAll (fun _ ↦ mem_children.1) _)
      | exact h.bind (h.writeAll (fun _ ↦ mem_slots_of_mem_childrenFrom) _) fun _ ↦ h.map _ (h.writeSlot _ _)
      | split
        · exact h.ok _
        · exact h.map _ (h.writeAll (fun _ hc ↦ mem_children.1 (mem_filter.1 hc).1) _)

theorem writeDeclaration (d : Declaration) : rel (writeDeclaration t r n d) (writeDeclaration t r' n d) := by
  unfold Tree.writeDeclaration
  split
  all_goals first
    | exact h.ok _
    | exact h.map _ (h.writeSlot _ _)
    | split
      · exact h.bind (h.writeAll (fun _ ↦ mem_slots_of_mem_childrenFrom) _) fun _ ↦ h.map _ (h.writeSlot _ _)
      · exact h.ok _

theorem writeOperator (kind : OperatorKind) (start : Nat) :
    rel (writeOperator t r n kind start) (writeOperator t r' n kind start) := by
  refine h.map _ (h.mapM fun part hpart ↦ h.writeOption fun c hc ↦ ?_)
  subst hc
  exact h.held (mem_of_mem_drop hpart)

theorem writeExpression (e : Expression) : rel (writeExpression t r n e) (writeExpression t r' n e) := by
  have hslot := h.writeSlot n
  cases e with
  | name | member | keyword => exact h.ok _
  | literal | coerced => exact hslot 0
  | unresolved kind => exact h.writeOperator n kind 0
  | resolved kind => exact h.writeOperator n kind 1
  | assign => exact h.bind (hslot 0) fun _ ↦ h.map _ (hslot 1)
  | logicalAnd | logicalOr => exact h.bind (hslot 1) fun _ ↦ h.map _ (hslot 2)
  | logicalNot => exact h.map _ (hslot 1)
  | ternary => exact h.bind (hslot 0) fun _ ↦ h.bind (hslot 1) fun _ ↦ h.map _ (hslot 2)
  | type =>
    refine h.writeOption fun c hc ↦ ?_
    obtain ⟨_, -, hc⟩ := Option.bind_eq_some_iff.1 hc
    exact h.element hc

theorem writeLiteral (l : Literal) : rel (writeLiteral t r n l) (writeLiteral t r' n l) := by
  cases l with
  | optional => exact h.writePart n 1 (fun text ↦ "optional(" ++ text ++ ")") "optional()"
  | result => exact h.writeTail n fun text ↦ "result(" ++ text ++ ")"
  | tuple => exact h.writeTail n fun text ↦ "(" ++ text ++ ")"
  | list => exact h.writeTail n fun text ↦ "[" ++ text ++ "]"
  | enumeration => exact h.map _ (h.writeSlot n 0)
  | _ => exact h.ok _

theorem writeStatement (s : Statement) : rel (writeStatement t r n s) (writeStatement t r' n s) := by
  cases s with
  | block => exact h.ok _
  | ret => exact h.writePart n 0 (fun text ↦ "return " ++ text ++ ";") "return;"
  | _ => exact h.map _ (h.writeSlot n 0)

theorem writeItem (i : UnitItem) : rel (writeItem t r n i) (writeItem t r' n i) := by
  cases i with
  | field id =>
    unfold Tree.writeItem
    cases hc : t.child n 1 with
    | none => exact h.map _ (h.writeSlot n 0)
    | some value => exact h.map _ (h.held (mem_slots_of_child hc))
  | var => exact h.map _ (h.writeSlot n 0)
  | switch => exact h.writePart n 0 (fun text ↦ "switch (" ++ text ++ ")") "switch"
  | alternative isDefault =>
    cases isDefault with
    | true => exact h.ok _
    | false => exact h.writeTail n fun text ↦ text ++ " -> ..."
  | property id => exact h.writePart n 0 (fun text ↦ id ++ " = " ++ text) id
  | sink => exact h.ok _

theorem writeNode : rel (writeNode t r n) (writeNode t r' n) := by
  unfold Tree.writeNode
  split
  · exact h.ok _
  · exact h.writeDeclaration n _
  · exact h.writeType n
  · exact h.writeType n
  · exact h.writeExpression n _
  · exact h.writeLiteral n _
  · exact h.writeStatement n _
  next tag _ => exact h.writePart n 0 (fun text ↦ tag ++ "=" ++ text) tag
  · exact h.writeAll (fun _ ↦ mem_children.1) _
  · exact h.writeItem n _

end Compares

theorem compares_sound (t : Tree) {r : Writer} (hr : ∀ n, Sound (r n)) :
    Compares (fun x _ ↦ Sound x) t r r where
  ok := sound_ok
  outOfRange := sound_error.2 id
  bind := Sound.bind
  held _ := hr _
  element _ := hr _

theorem sound_shortWithin (t : Tree) (fuel : Nat) (n : NodeId) : Sound (t.shortWithin fuel n) := by
  induction fuel generalizing n with
  | zero => exact sound_error.2 id
  | succ fuel ih => exact (compares_sound t ih).writeNode n

theorem sound_short (t : Tree) (n : NodeId) : Sound (t.short n) := sound_shortWithin t _ n

theorem sound_typeText (t : Tree) (n : NodeId) : Sound (t.typeText n) :=
  (compares_sound t (sound_short t)).writeType n

theorem sound_changePart (t : Tree) (n : NodeId) : Sound (t.changePart n) :=
  (sound_short t n).bind fun _ ↦ sound_ok _

theorem sound_changeLine (t : Tree) (old : NodeId) (new : Option NodeId) (message : String) :
    Sound (t.changeLine old new message) := by
  refine (sound_changePart t old).bind fun _ ↦ ?_
  dsimp only
  split
  · exact (sound_changePart t _).bind fun _ ↦ sound_ok _
  · exact sound_ok _

/-! ## Texts that are there -/

section

variable {t : Tree} {e l old new : NodeId}

/-- A literal is written as its value. -/
theorem shortWithin_of_literal {fuel : Nat} (he : t.kind e = .expression .literal)
    (hl : t.child e 0 = some l) : t.shortWithin (fuel + 1) e = t.shortWithin fuel l := by
  show writeNode t (t.shortWithin fuel) e = _
  unfold writeNode
  rw [he]
  unfold writeExpression writeSlot
  rw [hl]
  rfl

theorem exists_changeLine {text text' message : String} (hold : t.short old = .ok text)
    (hnew : t.short new = .ok text') : ∃ line, t.changeLine old (some new) message = .ok line := by
  simp only [changeLine, changePart, hold, hnew]
  exact ⟨_, rfl⟩

end

/-! ## The choice of operators -/

theorem sound_functionCandidates (t : Tree) (session : Session) (declarations arguments : List NodeId) :
    Sound (Selection.functionCandidates t session declarations arguments) := by
  refine (Sound.mapM (fun f ↦ ?_) _).bind fun _ ↦ sound_ok _
  unfold Selection.matchFunction
  split
  · exact sound_ok _
  · exact (sound_short t f).bind fun _ ↦ sound_ok _

theorem sound_selectCall (t : Tree) (session : Session) (n : NodeId) (operands : List NodeId) :
    Sound (Selection.selectCall t session n operands) := by
  unfold Selection.selectCall
  split
  · exact sound_ok _
  split
  · dsimp only
    split
    · exact sound_ok _
    split
    · exact sound_ok _
    · exact (sound_functionCandidates _ _ _ _).bind fun _ ↦ sound_ok _
  · exact sound_ok _

theorem sound_selectMemberCall (t : Tree) (session : Session) (operands : List NodeId) :
    Sound (Selection.selectMemberCall t session operands) := by
  unfold Selection.selectMemberCall
  split
  · split
    · exact sound_ok _
    split
    · exact (sound_functionCandidates _ _ _ _).bind fun _ ↦ sound_ok _
    · exact sound_ok _
  · exact sound_ok _

theorem sound_selectMember (t : Tree) (session : Session) (operands : List NodeId) :
    Sound (Selection.selectMember t session operands) := by
  unfold Selection.selectMember
  split
  · split
    · exact sound_ok _
    split
    · split
      · exact sound_ok _
      · exact (sound_typeText t _).bind fun _ ↦ sound_ok _
    · exact sound_ok _
  · exact sound_ok _

theorem sound_select (t : Tree) (session : Session) (n : NodeId) : Sound (t.select session n) := by
  unfold select
  split
  · split
    · exact sound_ok _
    split
    · exact sound_selectCall _ _ _ _
    · exact sound_selectMemberCall _ _ _
    · exact sound_selectMember _ _ _
    · exact sound_ok _
  · exact sound_ok _

end ProtocolIR.Tree

namespace ProtocolIR.Pass

variable {w : Workspace} {stream : Stream} {post : Unit → Workspace → Prop} {message : String}

/-- A report leaves the tree alone. -/
theorem safe_report {x : Except Fault String} (hx : Sound x) (h : ∀ log, post () ⟨w.tree, log⟩) :
    Safe (liftM x >>= Pass.debug stream) w post :=
  safe_bind.2 (safe_lift_pass hx fun _ _ ↦ h _)

theorem safe_recordChange {n : NodeId} (h : ∀ log, post () ⟨w.tree, log⟩) :
    Safe (Pass.recordChange stream n message) w post :=
  safe_tree_bind.2 (safe_report (Tree.sound_changeLine _ _ _ _) h)

theorem safe_recordChangeTo {old new : NodeId} (h : ∀ log, post () ⟨w.tree, log⟩) :
    Safe (Pass.recordChangeTo stream old new message) w post :=
  safe_tree_bind.2 (safe_report (Tree.sound_changeLine _ _ _ _) h)

end ProtocolIR.Pass
