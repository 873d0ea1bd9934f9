import Mathlib.Data.List.Perm.Subperm
import ProtocolIR.Grammar.Token

/-!
# Sets of tokens

Insertion keeps lists of tokens in ascending order, and an ascending list is determined by its
members. So two sets that have been computed in different ways are the same list as soon as they
have the same members.
-/

namespace ProtocolIR

open List

namespace Token

variable {a b c : Token}

theorem not_isBefore_self (a : Token) : ¬ a.isBefore a := by
  cases a <;> simp [isBefore]

theorem isBefore_trans (hab : a.isBefore b) (hbc : b.isBefore c) : a.isBefore c := by
  cases a <;> cases b <;> cases c <;>
    simp only [isBefore, decide_eq_true_eq, Bool.false_eq_true] at hab hbc ⊢
  all_goals exact String.lt_trans hab hbc

theorem text_lt_of_ne {x y : String} (hne : x ≠ y) (hxy : ¬ x < y) : y < x :=
  Std.not_le.1 fun hle ↦ hne (String.le_antisymm hle (Std.not_lt.1 hxy))

theorem isBefore_of_ne (hne : a ≠ b) (hab : ¬ a.isBefore b) : b.isBefore a := by
  cases a <;> cases b <;> simp only [isBefore, decide_eq_true_eq] at hab ⊢
  case literal.literal => exact text_lt_of_ne (fun h ↦ hne (congrArg _ h)) hab
  case literal.value => exact absurd trivial hab
  case value.value => exact text_lt_of_ne (fun h ↦ hne (congrArg _ h)) hab

end Token

namespace TokenSet

variable {a b : TokenSet} {token : Token}

/-- The tokens are in ascending order without repetitions. -/
def Ascending (set : TokenSet) : Prop := set.Pairwise fun a b ↦ a.isBefore b = true

theorem Ascending.nil : Ascending [] := List.Pairwise.nil

theorem Ascending.insert (h : Ascending a) : Ascending (insert token a) := by
  induction a with
  | nil => simp [TokenSet.insert, Ascending]
  | cons head tail ih =>
    obtain ⟨hhead, htail⟩ := pairwise_cons.1 h
    unfold TokenSet.insert
    split
    · exact h
    split
    · next hlt =>
      refine pairwise_cons.2 ⟨fun other hother ↦ ?_, h⟩
      obtain rfl | hother := mem_cons.1 hother
      · exact hlt
      · exact Token.isBefore_trans hlt (hhead other hother)
    · next hne hlt =>
      refine pairwise_cons.2 ⟨fun other hother ↦ ?_, ih htail⟩
      obtain rfl | hother := mem_insert.1 hother
      · exact Token.isBefore_of_ne hne hlt
      · exact hhead other hother

theorem Ascending.union (h : Ascending a) : Ascending (union a b) := by
  unfold TokenSet.union
  induction b generalizing a with
  | nil => exact h
  | cons head tail ih => exact ih h.insert

theorem Ascending.nodup (h : Ascending a) : a.Nodup := by
  refine List.Pairwise.imp (fun {x y} hlt ↦ ?_) h
  rintro rfl
  exact Token.not_isBefore_self x hlt

theorem Ascending.length_le (h : Ascending a) (hab : a ⊆ b) : a.length ≤ b.length :=
  (subperm_of_subset h.nodup hab).length_le

theorem Ascending.eq_of_subset (ha : Ascending a) (hb : Ascending b) (hab : a ⊆ b) (hba : b ⊆ a) :
    a = b := by
  have hperm : a.Perm b := (perm_ext_iff_of_nodup ha.nodup hb.nodup).2 fun _ ↦ ⟨@hab _, @hba _⟩
  refine hperm.eq_of_pairwise (fun x y _ _ hxy hyx ↦ ?_) ha hb
  exact absurd (Token.isBefore_trans hxy hyx) (Token.not_isBefore_self x)

/-- A set that grows gets longer, unless it stays the same. -/
theorem Ascending.length_lt (ha : Ascending a) (hb : Ascending b) (hab : a ⊆ b) (hne : a ≠ b) :
    a.length < b.length := by
  have hsub := subperm_of_subset ha.nodup hab
  refine Nat.lt_of_le_of_ne hsub.length_le fun hlen ↦ hne ?_
  have hperm := hsub.perm_of_length_le (Nat.le_of_eq hlen.symm)
  exact ha.eq_of_subset hb hab hperm.symm.subset

theorem union_of_subset (h : Ascending a) (hsub : b ⊆ a) : union a b = a := by
  refine h.union.eq_of_subset h (fun other hother ↦ ?_) fun other hother ↦ ?_
  · exact (mem_union.1 hother).elim id fun hb ↦ hsub hb
  · exact mem_union.2 (.inl hother)

end TokenSet

end ProtocolIR
