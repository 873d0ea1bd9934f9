/-!
# Tokens

What a production that takes input starts with. Sets of tokens are kept as lists in ascending
order without repetitions: literals before values, each by text.
-/

namespace ProtocolIR

inductive Token where
  | literal (text : String)
  | value (type : String)
  deriving DecidableEq, Inhabited

namespace Token

def text : Token → String
  | literal text => "literal " ++ text
  | value type => "value of type " ++ type

def isBefore : Token → Token → Bool
  | literal a, literal b => a < b
  | literal _, value _ => true
  | value _, literal _ => false
  | value a, value b => a < b

end Token

abbrev TokenSet := List Token

namespace TokenSet

def insert (token : Token) : TokenSet → TokenSet
  | [] => [token]
  | head :: tail =>
    if token = head then head :: tail
    else if token.isBefore head then token :: head :: tail
    else head :: insert token tail

@[simp]
theorem mem_insert {token other : Token} {set : TokenSet} :
    other ∈ insert token set ↔ other = token ∨ other ∈ set := by
  induction set with
  | nil => simp [insert]
  | cons head tail ih =>
    unfold insert
    split
    · rename_i h
      simp [h]
    · split
      · simp
      simp only [List.mem_cons, ih]
      constructor
      · rintro (h | h | h) <;> simp [h]
      · rintro (h | h | h) <;> simp [h]

def union (a b : TokenSet) : TokenSet := b.foldl (fun set token ↦ insert token set) a

@[simp]
theorem mem_union {token : Token} {a b : TokenSet} : token ∈ union a b ↔ token ∈ a ∨ token ∈ b := by
  unfold union
  induction b generalizing a with
  | nil => simp
  | cons head tail ih =>
    simp only [List.foldl_cons, ih, mem_insert, List.mem_cons]
    constructor
    · rintro ((h | h) | h) <;> simp [h]
    · rintro (h | h | h) <;> simp [h]

end TokenSet

end ProtocolIR
