import Std.Data.String.ToInt
import Mathlib.Data.List.Nodup

/-!
Numbers joined into one text.

A list of integers as a text has a comma between any two.  No numeral has a comma in it and none is
empty, so the list can be read off the text again: two lists that have the same text are the same
list (`keyText_inj`), also if one of them is empty.
-/

namespace BatchGraph

/-- The numbers one after the other, with commas between them. -/
def keyText (numbers : List Int) : String := ",".intercalate (numbers.map Int.repr)

theorem toList_keyText (numbers : List Int) :
    (keyText numbers).toList = [','].intercalate (numbers.map fun n => n.repr.toList) := by
  rw [keyText, String.toList_intercalate, List.map_map]
  rfl

theorem comma_not_mem_repr (n : Int) : ',' ∉ n.repr.toList := by
  have digits (m : Nat) : ',' ∉ m.repr.toList := by
    rw [Nat.toList_repr]
    intro member
    have isDigit := Nat.isDigit_of_mem_toDigits (by decide) (by decide) member
    exact absurd isDigit (by decide)
  rw [Int.repr_eq_if]
  split
  case isTrue => exact digits _
  case isFalse =>
    rw [String.toList_append, List.mem_append]
    exact not_or.2 ⟨by decide, digits _⟩

theorem repr_toList_ne_nil (n : Int) : n.repr.toList ≠ [] := by
  rw [Int.repr_eq_if]
  split <;> simp

/-- Only the empty list has the empty text. -/
theorem eq_nil_of_toList_keyText_eq_nil {numbers : List Int}
    (empty : (keyText numbers).toList = []) : numbers = [] := by
  rw [toList_keyText] at empty
  match numbers with
  | [] => rfl
  | [n] => exact absurd empty (by simpa using repr_toList_ne_nil n)
  | n :: m :: rest => simp [List.intercalate] at empty

theorem splitOn_keyText {numbers : List Int} (some_ : numbers ≠ []) :
    (keyText numbers).toList.splitOn ',' = numbers.map fun n => n.repr.toList := by
  rw [toList_keyText]
  refine List.splitOn_intercalate _ (fun numeral member => ?_) (by simpa using some_)
  obtain ⟨n, -, rfl⟩ := List.mem_map.1 member
  exact comma_not_mem_repr n

theorem keyText_inj {a b : List Int} : keyText a = keyText b ↔ a = b := by
  refine ⟨fun same => ?_, congrArg keyText⟩
  have texts := congrArg String.toList same
  by_cases none_ : a = []
  case pos =>
    subst none_
    exact (eq_nil_of_toList_keyText_eq_nil texts.symm).symm
  case neg =>
    have some_ : b ≠ [] := by
      rintro rfl
      exact none_ (eq_nil_of_toList_keyText_eq_nil texts)
    have numerals := congrArg (List.splitOn ',') texts
    rw [splitOn_keyText none_, splitOn_keyText some_] at numerals
    have distinct {m n : Int} (equal : m.repr.toList = n.repr.toList) : m = n :=
      Int.repr_inj.1 (String.toList_inj.1 equal)
    exact (List.map_inj_right fun m n => distinct).1 numerals

/-- A list of natural numbers can be read off its text as well. -/
theorem keyText_ofNat_inj {a b : List Nat} :
    keyText (a.map Int.ofNat) = keyText (b.map Int.ofNat) ↔ a = b :=
  keyText_inj.trans (List.map_inj_right fun _ _ => Int.ofNat.inj)

/-- Ascending lists have the same text if and only if they have the same numbers. -/
theorem keyText_eq_iff {a b : List Nat} (ascending : a.Pairwise (· < ·))
    (ascending' : b.Pairwise (· < ·)) :
    keyText (a.map Int.ofNat) = keyText (b.map Int.ofNat) ↔ ∀ i, i ∈ a ↔ i ∈ b := by
  rw [keyText_ofNat_inj]
  refine ⟨fun same i => by rw [same], fun same => ?_⟩
  have perm := (List.perm_ext_iff_of_nodup ascending.nodup ascending'.nodup).2 same
  exact perm.eq_of_pairwise (fun i j _ _ less more => absurd less (Nat.lt_asymm more)) ascending
    ascending'

end BatchGraph
