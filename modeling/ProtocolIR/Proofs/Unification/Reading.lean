import ProtocolIR.Node.TypeShape

/-!
# Reading the texts of types

The text of a type is the word of its category, followed by nothing or by parts in brackets.
Names have no marks in them, and a part is only ever followed by a mark that ends it. So where a
part ends, and what it is made of, can be told from left to right: the text of an outline, with
something after it, is that of no other outline.
-/

namespace ProtocolIR.TypeText

open List

/-! ## Marks and words -/

/-- The marks that may come right after a part. -/
def isEnd (c : Char) : Bool := c == ')' || c == '\x7d' || c == '>' || c == ',' || c == ';'

/-- The marks that set the parts of a text apart. -/
def isMark (c : Char) : Bool :=
  isEnd c || c == '(' || c == '\x7b' || c == '<' || c == ':' || c == '=' || c == '*'

/-- Whether there are no marks in a text. -/
def Unmarked (w : List Char) : Prop := ∀ c ∈ w, isMark c = false

instance (w : List Char) : Decidable (Unmarked w) := decidableBAll (fun c ↦ isMark c = false) w

/-- A word is not empty and has no marks; letters, digits and underscores are none. -/
def IsWord (w : List Char) : Prop := w ≠ [] ∧ Unmarked w

/-- The rest of a text is empty or goes on with a mark. -/
def AtMark (r : List Char) : Prop := ∀ c ∈ r.head?, isMark c = true

/-- The rest of a text is empty or goes on with a mark that ends a part. -/
def AtEnd (r : List Char) : Prop := ∀ c ∈ r.head?, isEnd c = true

/-- Words with two colons between them. -/
inductive Scoped : List Char → Prop where
  | word {w} : IsWord w → Scoped w
  | scope {w x} : IsWord w → Scoped x → Scoped (w ++ ':' :: ':' :: x)

variable {v w x y r r' : List Char} {c : Char} {n : Nat}

theorem isMark_of_isEnd (h : isEnd c = true) : isMark c = true := by
  simp [isMark, h]

theorem AtEnd.atMark (h : AtEnd r) : AtMark r :=
  fun c hc ↦ isMark_of_isEnd (h c hc)

theorem atEnd_cons : AtEnd (c :: r) ↔ isEnd c = true := by
  simp [AtEnd]

theorem atMark_cons : AtMark (c :: r) ↔ isMark c = true := by
  simp [AtMark]

theorem unmarked_cons : Unmarked (c :: w) ↔ isMark c = false ∧ Unmarked w :=
  forall_mem_cons

theorem isMark_of_isAlphanum (h : c.isAlphanum = true ∨ c = '_') : isMark c = false := by
  rw [Bool.eq_false_iff]
  intro hmark
  simp only [isMark, isEnd, Bool.or_eq_true, beq_iff_eq, or_assoc] at hmark
  rcases hmark with rfl | rfl | rfl | rfl | rfl | rfl | rfl | rfl | rfl | rfl | rfl <;>
    exact absurd h (by decide)

theorem isWord_of_isAlphanum (hne : w ≠ [])
    (h : ∀ c ∈ w, c.isAlphanum = true ∨ c = '_') : IsWord w :=
  ⟨hne, fun c hc ↦ isMark_of_isAlphanum (h c hc)⟩

/-- A text without marks ends at the next mark. -/
theorem unmarked_append_inj (hv : Unmarked v) (hw : Unmarked w) (hr : AtMark r) (hr' : AtMark r')
    (h : v ++ r = w ++ r') : v = w ∧ r = r' := by
  induction v generalizing w with
  | nil =>
    cases w with
    | nil => exact ⟨rfl, h⟩
    | cons d w =>
      cases h
      have hmark := atMark_cons.1 hr
      rw [(unmarked_cons.1 hw).1] at hmark
      cases hmark
  | cons c v ih =>
    cases w with
    | nil =>
      cases h
      have hmark := atMark_cons.1 hr'
      rw [(unmarked_cons.1 hv).1] at hmark
      cases hmark
    | cons d w =>
      obtain ⟨rfl, htail⟩ := cons.inj h
      obtain ⟨rfl, rfl⟩ := ih (unmarked_cons.1 hv).2 (unmarked_cons.1 hw).2 htail
      exact ⟨rfl, rfl⟩

/-! ## Numbers -/

theorem isDigit_of_mem_nat (h : c ∈ (toString n).toList) : c.isDigit = true := by
  rw [Nat.toString_eq_ofList_toDigits, String.toList_ofList] at h
  exact Nat.isDigit_of_mem_toDigits (by decide) (by decide) h

theorem isWord_nat (n : Nat) : IsWord (toString n).toList := by
  refine isWord_of_isAlphanum ?_ fun c hc ↦ .inl (by simp [Char.isAlphanum, isDigit_of_mem_nat hc])
  rw [Nat.toString_eq_ofList_toDigits, String.toList_ofList]
  exact Nat.toDigits_ne_nil

theorem toList_int (z : Int) :
    (toString z).toList =
      if 0 ≤ z then (toString z.toNat).toList else '-' :: (toString (-z).toNat).toList := by
  rw [Int.toString_eq_repr, Int.repr_eq_if]
  split
  · rfl
  rw [String.toList_append]
  rfl

theorem isWord_int (z : Int) : IsWord (toString z).toList := by
  rw [toList_int]
  split
  · exact isWord_nat _
  · exact ⟨cons_ne_nil _ _, unmarked_cons.2 ⟨by decide, (isWord_nat _).2⟩⟩

theorem nat_inj {m : Nat} (h : (toString m).toList = (toString n).toList) : m = n := by
  rw [Nat.toString_eq_ofList_toDigits, Nat.toString_eq_ofList_toDigits, String.toList_ofList,
    String.toList_ofList] at h
  calc
    m = Nat.ofDigitChars 10 (Nat.toDigits 10 m) 0 :=
      (Nat.ofDigitChars_toDigits (by decide) (by decide)).symm
    _ = Nat.ofDigitChars 10 (Nat.toDigits 10 n) 0 := by rw [h]
    _ = n := Nat.ofDigitChars_toDigits (by decide) (by decide)

theorem nat_ne_minus : (toString n).toList ≠ '-' :: w := by
  intro h
  have hmem : '-' ∈ (toString n).toList := by rw [h]; exact mem_cons_self
  exact absurd (isDigit_of_mem_nat hmem) (by decide)

theorem int_inj {a b : Int} (h : (toString a).toList = (toString b).toList) : a = b := by
  rw [toList_int, toList_int] at h
  split at h <;> split at h
  · have := nat_inj h
    omega
  · exact absurd h nat_ne_minus
  · exact absurd h.symm nat_ne_minus
  · have := nat_inj (cons.inj h).2
    omega

/-! ## Parts one after another -/

/-- Two values whose texts can only go on in the same way are the same value. -/
def Unambiguous {α : Type} (text : α → List Char) (a b : α) : Prop :=
  ∀ r r', AtEnd r → AtEnd r' → text a ++ r = text b ++ r' → a = b ∧ r = r'

/-- A text that is not empty and does not start with a mark that ends a part. -/
def Begins (x : List Char) : Prop := ∃ c y, x = c :: y ∧ isEnd c = false

theorem IsWord.begins (h : IsWord w) : Begins (w ++ r) := by
  obtain ⟨hne, hw⟩ := h
  cases w with
  | nil => exact absurd rfl hne
  | cons c w =>
    refine ⟨c, w ++ r, rfl, ?_⟩
    rw [Bool.eq_false_iff]
    intro hend
    exact absurd (isMark_of_isEnd hend) (by simp [(unmarked_cons.1 hw).1])

theorem Begins.append_ne_cons (hx : Begins x) (hc : isEnd c = true) : x ++ r ≠ c :: r' := by
  obtain ⟨d, z, rfl, hd⟩ := hx
  intro h
  cases h
  rw [hc] at hd
  cases hd

/-- Parts with a mark after the first one and commas after the others. -/
def joined (mark : Char) : List (List Char) → List Char
  | [] => []
  | [x] => x
  | x :: y :: xs => x ++ mark :: joined ',' (y :: xs)

/-- Parts in brackets can be told apart if each of them can, and if no parts can be told from some. -/
theorem joined_append_inj {α : Type} {text : α → List Char} {mark close : Char} {xs ys : List α}
    (hmark : isEnd mark = true ∧ mark ≠ close) (hclose : isEnd close = true ∧ ',' ≠ close)
    (hnil : xs = [] ↔ ys = []) (hparts : ∀ a ∈ xs, ∀ b ∈ ys, Unambiguous text a b)
    (h : joined mark (xs.map text) ++ close :: r = joined mark (ys.map text) ++ close :: r') :
    xs = ys ∧ r = r' := by
  induction xs generalizing mark ys with
  | nil =>
    obtain rfl := hnil.1 rfl
    exact ⟨rfl, (cons.inj h).2⟩
  | cons a xs ih =>
    cases ys with
    | nil => exact absurd (hnil.2 rfl) (cons_ne_nil a xs)
    | cons b ys =>
      have hab := hparts a mem_cons_self b mem_cons_self
      have hend (s) : AtEnd (close :: s) := atEnd_cons.2 hclose.1
      have hend' (s) : AtEnd (mark :: s) := atEnd_cons.2 hmark.1
      cases xs with
      | nil =>
        cases ys with
        | nil =>
          obtain ⟨rfl, htail⟩ := hab _ _ (hend r) (hend r') h
          exact ⟨rfl, (cons.inj htail).2⟩
        | cons b' ys =>
          simp only [map_cons, map_nil, joined, append_assoc] at h
          obtain ⟨-, htail⟩ := hab _ _ (hend r) (hend' _) h
          exact absurd (cons.inj htail).1.symm hmark.2
      | cons a' xs =>
        cases ys with
        | nil =>
          simp only [map_cons, map_nil, joined, append_assoc] at h
          obtain ⟨-, htail⟩ := hab _ _ (hend' _) (hend r') h
          exact absurd (cons.inj htail).1 hmark.2
        | cons b' ys =>
          simp only [map_cons, joined, append_assoc] at h
          obtain ⟨rfl, htail⟩ := hab _ _ (hend' _) (hend' _) h
          obtain ⟨hrest, rfl⟩ := ih ⟨by decide, hclose.2⟩ (by simp)
            (fun z hz z' hz' ↦ hparts z (mem_cons_of_mem a hz) z' (mem_cons_of_mem a hz'))
            (cons.inj htail).2
          exact ⟨congrArg (a :: ·) hrest, rfl⟩

/-- A first part that is not empty shows that there are parts. -/
theorem joined_append_ne {mark : Char} {xs : List (List Char)} (hx : Begins x) (hc : isEnd c = true) :
    joined mark (x :: xs) ++ r ≠ c :: r' := by
  cases xs with
  | nil => exact hx.append_ne_cons hc
  | cons y xs =>
    rw [joined, append_assoc]
    exact hx.append_ne_cons hc

/-! ## Type IDs -/

/-- A type ID is made of words with two colons between them. -/
def IsTypeId (id : String) : Prop :=
  ∃ words : List String, words ≠ [] ∧ (∀ w ∈ words, IsWord w.toList) ∧ id = "::".intercalate words

theorem IsTypeId.scoped {id : String} (h : IsTypeId id) : Scoped id.toList := by
  obtain ⟨words, hne, hwords, rfl⟩ := h
  induction words with
  | nil => exact absurd rfl hne
  | cons w words ih =>
    have hw := hwords w mem_cons_self
    cases words with
    | nil => simpa using Scoped.word hw
    | cons w' words =>
      rw [String.intercalate_cons_cons, String.toList_append, String.toList_append,
        append_assoc]
      exact .scope hw (ih (by simp) fun v hv ↦ hwords v (mem_cons_of_mem w hv))

/-- A type ID is a word, and then ends or goes on with two colons. -/
theorem Scoped.cases_colons (h : Scoped x) :
    ∃ w z, IsWord w ∧ x = w ++ z ∧ (z = [] ∨ ∃ y, z = ':' :: ':' :: y) := by
  cases h with
  | word hw => exact ⟨x, [], hw, by simp, .inl rfl⟩
  | scope hw hx => exact ⟨_, _, hw, rfl, .inr ⟨_, rfl⟩⟩

theorem Scoped.append_inj (hx : Scoped x) (hy : Scoped y) (hr : AtEnd r) (hr' : AtEnd r')
    (h : x ++ r = y ++ r') : x = y ∧ r = r' := by
  have hcolon (s) : AtMark (':' :: s) := atMark_cons.2 (by decide)
  have hnone {s s'} (hs : AtEnd s) : s ≠ ':' :: s' := by
    rintro rfl
    exact absurd (atEnd_cons.1 hs) (by decide)
  induction hx generalizing y with
  | word hw =>
    cases hy with
    | word hw' => exact unmarked_append_inj hw.2 hw'.2 hr.atMark hr'.atMark h
    | scope hw' hy =>
      rw [append_assoc] at h
      exact absurd (unmarked_append_inj hw.2 hw'.2 hr.atMark (hcolon _) h).2 (hnone hr)
  | scope hw hx ih =>
    rw [append_assoc] at h
    cases hy with
    | word hw' =>
      exact absurd (unmarked_append_inj hw.2 hw'.2 (hcolon _) hr'.atMark h).2.symm (hnone hr')
    | scope hw' hy =>
      rw [append_assoc] at h
      obtain ⟨rfl, htail⟩ := unmarked_append_inj hw.2 hw'.2 (hcolon _) (hcolon _) h
      obtain ⟨rfl, rfl⟩ := ih hy (cons.inj (cons.inj htail).2).2
      exact ⟨rfl, rfl⟩

/-! ## Parts of a type -/

inductive Bracket where
  | angle
  | round
  | curly
  deriving DecidableEq

def Bracket.opening : Bracket → Char
  | angle => '<'
  | round => '('
  | curly => '\x7b'

def Bracket.closing : Bracket → Char
  | angle => '>'
  | round => ')'
  | curly => '\x7d'

theorem Bracket.opening_inj {a b : Bracket} (h : a.opening = b.opening) : a = b := by
  cases a <;> cases b <;> first | rfl | exact absurd h (by decide)

/-- What is written about a type in brackets: that it is a wildcard, the width of an integer, the
name of a library type or a member, the type of an element with its constness, the type ID of
what is declared, a label with its value, and a field with its type. Where the type of an element or
a field is not qualified it is written bare, and of a member that is none nothing is written. -/
inductive OutlinePart (α : Type) where
  | any
  | width (bits : Nat)
  | symbol (id : String)
  | element (constness : Constness) (type : α)
  | typeId (id : String)
  | label (id : String) (value : Int)
  | field (id : String) (constness : Constness) (type : α)
  | bare (type : α)
  | bareField (id : String) (type : α)
  | blank

def constnessMark : Constness → Char
  | .const => 'c'
  | .mutable => 'm'

theorem constnessMark_inj {a b : Constness} (h : constnessMark a = constnessMark b) : a = b := by
  cases a <;> cases b <;> first | rfl | exact absurd h (by decide)

theorem isWord_constnessMark (q : Constness) : IsWord [constnessMark q] := by
  cases q <;> exact ⟨by decide, by decide⟩

namespace OutlinePart

variable {α : Type}

/-- The brackets a part stands in. -/
def bracket : OutlinePart α → Bracket
  | any | width _ => .angle
  | symbol _ | element .. | bare _ => .round
  | typeId _ | label .. | field .. | bareField .. | blank => .curly

/-- The type that is named in a part. -/
def type? : OutlinePart α → Option α
  | element _ type | field _ _ type | bare type | bareField _ type => some type
  | _ => none

/-- Whether names are words, type IDs are made of words, and types are qualified. -/
def Named : OutlinePart α → Prop
  | symbol id | label id _ | field id .. => IsWord id.toList
  | typeId id => IsTypeId id
  | bare _ | bareField .. | blank => False
  | any | width _ | element .. => True

/-- The word that a part starts with. -/
def lead : OutlinePart String → List Char
  | any | bare _ | blank => []
  | width bits => (toString bits).toList
  | symbol id | label id _ | field id .. | bareField id _ => id.toList
  | element constness _ => [constnessMark constness]
  | typeId _ => "name".toList

/-- What comes after the first word of a part. -/
def rest : OutlinePart String → List Char
  | any => ['*']
  | width _ | symbol _ | blank => []
  | bare type => type.toList
  | element _ type | bareField _ type => ':' :: type.toList
  | typeId id => ':' :: id.toList
  | label _ value => '=' :: (toString value).toList
  | field _ constness type => ':' :: constnessMark constness :: ':' :: type.toList

def text (p : OutlinePart String) : List Char := p.lead ++ p.rest

variable {p p' : OutlinePart String}

theorem Named.unmarked_lead (h : p.Named) : Unmarked p.lead := by
  cases p with
  | any => simp [lead, Unmarked]
  | width bits => exact (isWord_nat bits).2
  | symbol id => exact h.2
  | element q type => exact (isWord_constnessMark q).2
  | typeId id => exact (by decide : Unmarked "name".toList)
  | label id value | field id q type => exact h.2
  | bare | bareField | blank => exact h.elim

theorem Named.atMark_rest (h : p.Named) (hr : AtEnd r) : AtMark (p.rest ++ r) := by
  cases p with
  | width bits | symbol id => exact hr.atMark
  | bare | bareField | blank => exact h.elim
  | _ => exact atMark_cons.2 (by decide)

theorem Named.begins (h : p.Named) : Begins p.text := by
  cases p with
  | any => exact ⟨'*', [], rfl, by decide⟩
  | width bits => exact (isWord_nat bits).begins
  | symbol id => exact h.begins
  | element q type => exact (isWord_constnessMark q).begins
  | typeId id => exact ⟨'n', _, rfl, by decide⟩
  | label id value | field id q type => exact h.begins
  | bare | bareField | blank => exact h.elim

/-- A type ID cannot be read as a constness with a type. -/
theorem scoped_append_ne {q : Constness} (hx : Scoped x) (hr : AtEnd r) (hc : isMark c = false) :
    x ++ r ≠ constnessMark q :: ':' :: c :: y := by
  intro h
  obtain ⟨v, z, hv, rfl, hz⟩ := hx.cases_colons
  have hmark : AtMark (z ++ r) := by
    obtain rfl | ⟨y, rfl⟩ := hz
    · exact hr.atMark
    · exact atMark_cons.2 (by decide)
  rw [append_assoc] at h
  obtain ⟨-, htail⟩ := unmarked_append_inj hv.2 (isWord_constnessMark q).2 hmark
    (atMark_cons.2 (by decide)) h
  obtain rfl | ⟨z, rfl⟩ := hz
  · rw [nil_append] at htail
    subst htail
    exact absurd (atEnd_cons.1 hr) (by decide)
  · obtain ⟨rfl, -⟩ := cons.inj (cons.inj htail).2
    exact absurd hc (by decide)

/-- Parts of types in the same brackets can be told apart if the types in them can. -/
theorem unambiguous (hp : p.Named) (hp' : p'.Named) (hb : p.bracket = p'.bracket)
    (hlead : ∀ type, p.type? = some type ∨ p'.type? = some type →
      ∃ c y, type.toList = c :: y ∧ isMark c = false)
    (htypes : ∀ type, p.type? = some type → ∀ type', p'.type? = some type' →
      Unambiguous String.toList type type') :
    Unambiguous text p p' := by
  intro r r' hr hr' h
  rw [text, text, append_assoc, append_assoc] at h
  obtain ⟨hword, htail⟩ := unmarked_append_inj hp.unmarked_lead hp'.unmarked_lead
    (hp.atMark_rest hr) (hp'.atMark_rest hr') h
  have hcolon {s s'} (hs : AtEnd s) : s ≠ ':' :: s' := by
    rintro rfl
    exact absurd (atEnd_cons.1 hs) (by decide)
  cases p with
  | any =>
    cases p' with
    | any => exact ⟨rfl, (cons.inj htail).2⟩
    | width bits => exact absurd hword.symm (isWord_nat bits).1
    | _ => cases hb
  | width bits =>
    cases p' with
    | any => exact absurd hword (isWord_nat bits).1
    | width bits' =>
      obtain rfl := nat_inj hword
      exact ⟨rfl, htail⟩
    | _ => cases hb
  | symbol id =>
    cases p' with
    | symbol id' => exact ⟨congrArg symbol (String.toList_injective hword), htail⟩
    | element q type => exact absurd htail (hcolon hr)
    | bare => exact hp'.elim
    | _ => cases hb
  | element q type =>
    cases p' with
    | symbol id => exact absurd htail.symm (hcolon hr')
    | element q' type' =>
      obtain rfl := constnessMark_inj (cons.inj hword).1
      obtain ⟨rfl, rfl⟩ := htypes type rfl type' rfl r r' hr hr' (cons.inj htail).2
      exact ⟨rfl, rfl⟩
    | bare => exact hp'.elim
    | _ => cases hb
  | typeId id =>
    cases p' with
    | typeId id' =>
      obtain ⟨hid, rfl⟩ := hp.scoped.append_inj hp'.scoped hr hr' (cons.inj htail).2
      exact ⟨congrArg typeId (String.toList_injective hid), rfl⟩
    | label id' value => exact absurd (cons.inj htail).1 (by decide)
    | field id' q type =>
      obtain ⟨c, y, htype, hc⟩ := hlead type (.inr rfl)
      rw [rest, rest, htype] at htail
      exact absurd (cons.inj htail).2 (scoped_append_ne hp.scoped hr hc)
    | bareField | blank => exact hp'.elim
    | _ => cases hb
  | label id value =>
    cases p' with
    | typeId id' => exact absurd (cons.inj htail).1 (by decide)
    | label id' value' =>
      obtain rfl := String.toList_injective hword
      obtain ⟨hvalue, rfl⟩ := unmarked_append_inj (isWord_int value).2 (isWord_int value').2
        hr.atMark hr'.atMark (cons.inj htail).2
      obtain rfl := int_inj hvalue
      exact ⟨rfl, rfl⟩
    | field id' q type => exact absurd (cons.inj htail).1 (by decide)
    | bareField | blank => exact hp'.elim
    | _ => cases hb
  | field id q type =>
    cases p' with
    | typeId id' =>
      obtain ⟨c, y, htype, hc⟩ := hlead type (.inl rfl)
      rw [rest, rest, htype] at htail
      exact absurd (cons.inj htail).2.symm (scoped_append_ne hp'.scoped hr' hc)
    | label id' value => exact absurd (cons.inj htail).1 (by decide)
    | field id' q' type' =>
      obtain rfl := String.toList_injective hword
      obtain ⟨hq, htail'⟩ := cons.inj (cons.inj htail).2
      obtain rfl := constnessMark_inj hq
      obtain ⟨rfl, rfl⟩ := htypes type rfl type' rfl r r' hr hr' (cons.inj htail').2
      exact ⟨rfl, rfl⟩
    | bareField | blank => exact hp'.elim
    | _ => cases hb
  | bare | bareField | blank => exact hp.elim

end OutlinePart

/-! ## Outlines -/

/-- What is written about a type: its category, and parts in brackets. -/
structure Outline (α : Type) where
  category : TypeCategory
  bracket : Option Bracket
  parts : List (OutlinePart α)

namespace Outline

/-- The mark after the first part: a function's result is set apart from its parameters. -/
def mark {α : Type} (o : Outline α) : Char := if o.category = .function then ';' else ','

/-- What comes after the word of the category. -/
def tail (o : Outline String) : List Char :=
  match o.bracket with
  | none => []
  | some b => b.opening :: (joined o.mark (o.parts.map OutlinePart.text) ++ [b.closing])

def text (o : Outline String) : List Char := o.category.word.toList ++ o.tail

/-- Parts are named by words and stand in their own brackets. -/
structure Proper {α : Type} (o : Outline α) : Prop where
  named : ∀ p ∈ o.parts, p.Named
  bracketed : ∀ p ∈ o.parts, o.bracket = some p.bracket

theorem isWord_word (c : TypeCategory) : IsWord c.word.toList := by
  cases c <;> exact ⟨by decide, by decide⟩

theorem word_inj {c c' : TypeCategory} (h : c.word = c'.word) : c = c' := by
  have hread := TypeCategory.ofWord?_word c
  rw [h, TypeCategory.ofWord?_word] at hread
  exact (Option.some.inj hread).symm

variable {o o' : Outline String}

theorem atMark_tail (hr : AtEnd r) (o : Outline String) : AtMark (o.tail ++ r) := by
  rw [tail]
  split
  · exact hr.atMark
  rename_i b _
  exact atMark_cons.2 (by cases b <;> decide)

/-- Parts can be told apart as far as those in the same brackets can. -/
theorem unambiguous (ho : o.Proper) (ho' : o'.Proper)
    (hparts : ∀ p ∈ o.parts, ∀ p' ∈ o'.parts, p.bracket = p'.bracket →
      Unambiguous OutlinePart.text p p') :
    Unambiguous text o o' := by
  intro r r' hr hr' h
  have hempty {s s'} (b : Bracket) (hs : AtEnd s) : s ≠ b.opening :: s' := by
    rintro rfl
    exact absurd (atEnd_cons.1 hs) (by cases b <;> decide)
  rw [text, text, append_assoc, append_assoc] at h
  obtain ⟨hword, htail⟩ := unmarked_append_inj (isWord_word _).2 (isWord_word _).2
    (atMark_tail hr o) (atMark_tail hr' o') h
  obtain ⟨c, b, ps⟩ := o
  obtain ⟨c', b', ps'⟩ := o'
  obtain rfl : c = c' := word_inj (String.toList_injective hword)
  cases b with
  | none =>
    -- nothing may stand outside of brackets
    have hnone {b : Option Bracket} {qs : List (OutlinePart String)} (hb : b = none)
        (hq : Proper ⟨c, b, qs⟩) : qs = [] := by
      refine eq_nil_iff_forall_not_mem.2 fun p hp ↦ ?_
      cases hb.symm.trans (hq.bracketed p hp)
    cases b' with
    | none =>
      obtain rfl := hnone rfl ho
      obtain rfl := hnone rfl ho'
      exact ⟨rfl, htail⟩
    | some b' => exact absurd htail (hempty b' hr)
  | some b =>
    cases b' with
    | none => exact absurd htail.symm (hempty b hr')
    | some b' =>
      simp only [tail, cons_append, append_assoc, nil_append] at htail
      obtain ⟨hopen, hinner⟩ := cons.inj htail
      obtain rfl := Bracket.opening_inj hopen
      have hbracket : ∀ p ∈ ps, ∀ p' ∈ ps', p.bracket = p'.bracket := fun p hp p' hp' ↦
        Option.some.inj ((ho.bracketed p hp).symm.trans (ho'.bracketed p' hp'))
      have hnil {m : Char} {qs qs' : List (OutlinePart String)} {s s'} (hqs : ∀ p ∈ qs', p.Named)
          (h : joined m (qs.map OutlinePart.text) ++ b.closing :: s =
            joined m (qs'.map OutlinePart.text) ++ b.closing :: s')
          (hq : qs = []) : qs' = [] := by
        subst hq
        cases qs' with
        | nil => rfl
        | cons q qs => exact absurd h.symm (joined_append_ne (hqs q (by simp)).begins (by cases b <;> decide))
      obtain ⟨rfl, rfl⟩ := joined_append_inj
        (by simp only [mark]; split <;> cases b <;> decide) (by cases b <;> decide)
        ⟨hnil ho'.named hinner, hnil ho.named hinner.symm⟩
        (fun p hp p' hp' ↦ hparts p hp p' hp' (hbracket p hp p' hp')) hinner
      exact ⟨rfl, rfl⟩

end Outline

/-! ## Texts -/

/-- A text that an outline of texts has. -/
inductive IsText : String → Prop where
  | intro {s : String} (o : Outline String) : o.Proper →
    (∀ p ∈ o.parts, ∀ type, p.type? = some type → IsText type) → s.toList = o.text → IsText s

variable {s s' : String}

theorem IsText.lead (h : IsText s) : ∃ c y, s.toList = c :: y ∧ isMark c = false := by
  obtain ⟨o, -, -, hs⟩ := h
  obtain ⟨hne, hword⟩ := Outline.isWord_word o.category
  rw [hs, Outline.text]
  cases hw : o.category.word.toList with
  | nil => exact absurd hw hne
  | cons c w => exact ⟨c, w ++ o.tail, rfl, hword c (by rw [hw]; exact mem_cons_self)⟩

/-- Outlines of texts that can be told apart can be told apart. -/
theorem Outline.unambiguous_of_isText {o o' : Outline String} (ho : o.Proper) (ho' : o'.Proper)
    (htypes : ∀ p ∈ o.parts, ∀ type, p.type? = some type → IsText type)
    (htypes' : ∀ p ∈ o'.parts, ∀ type, p.type? = some type → IsText type)
    (hparts : ∀ p ∈ o.parts, ∀ type, p.type? = some type → ∀ type', IsText type' →
      Unambiguous String.toList type type') :
    Unambiguous Outline.text o o' := by
  refine unambiguous ho ho' fun p hp p' hp' hb ↦ ?_
  refine OutlinePart.unambiguous (ho.named p hp) (ho'.named p' hp') hb ?_ ?_
  · rintro type (htype | htype)
    · exact (htypes p hp type htype).lead
    · exact (htypes' p' hp' type htype).lead
  · exact fun type htype type' htype' ↦ hparts p hp type htype type' (htypes' p' hp' type' htype')

/-- Where the text of a type ends can be told from what comes after it. -/
theorem IsText.unambiguous (h : IsText s) (h' : IsText s') : Unambiguous String.toList s s' := by
  induction h generalizing s' with
  | intro o ho htypes hs ih =>
    obtain ⟨o', ho', htypes', hs'⟩ := h'
    intro r r' hr hr' heq
    rw [hs, hs'] at heq
    obtain ⟨rfl, rfl⟩ := Outline.unambiguous_of_isText ho ho' htypes htypes'
      (fun p hp type htype type' htype' ↦ ih p hp type htype htype') r r' hr hr' heq
    exact ⟨String.toList_injective (hs.trans hs'.symm), rfl⟩

/-- A text has one outline. -/
theorem Outline.eq_of_text_eq {o o' : Outline String} (ho : o.Proper) (ho' : o'.Proper)
    (htypes : ∀ p ∈ o.parts, ∀ type, p.type? = some type → IsText type)
    (htypes' : ∀ p ∈ o'.parts, ∀ type, p.type? = some type → IsText type)
    (h : o.text = o'.text) : o = o' := by
  have hend : AtEnd [] := by simp [AtEnd]
  refine (unambiguous_of_isText ho ho' htypes htypes' ?_ [] [] hend hend (by rw [h])).1
  exact fun p hp type htype type' htype' ↦ (htypes p hp type htype).unambiguous htype'

end ProtocolIR.TypeText
