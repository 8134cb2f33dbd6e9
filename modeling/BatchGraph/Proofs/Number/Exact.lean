import Mathlib.Algebra.Order.Ring.Rat
import Mathlib.Data.Rat.Lemmas
import Mathlib.Tactic.Ring
import BatchGraph.Shape

/-!
Arithmetic on numbers that stand for natural numbers.

`x.Denotes n` says that `x` has the value `n`, whichever zero it is.  Below `2 ^ 53` such a number
is not rounded, so sums, differences, products and quotients of numbers denote those of the natural
numbers, as long as the result is below that bound.
-/

namespace BatchGraph

namespace Number

/-- The number has the value of a natural number. -/
def Denotes (x : Number) (n : Nat) : Prop := x.value? = some (n : Rat)

instance (x : Number) (n : Nat) : Decidable (x.Denotes n) :=
  inferInstanceAs (Decidable (x.value? = some (n : Rat)))

variable {x y : Number} {m n : Nat}

theorem denotes_iff : x.Denotes n ↔ x = finite n ∨ (x = negativeZero ∧ n = 0) := by
  cases x <;> simp [Denotes, value?, eq_comm]

theorem countBelow_place (x : Number) : x.place.countBelow = x.countBelow := by
  cases x <;> rfl

/-! ## Rounding -/

theorem ofRat_natCast (small : n < 2 ^ 53) : ofRat n = finite n := by
  have digits : n.log2 < 53 := by
    by_cases zero : n = 0
    · simp [zero]
    · exact (Nat.log2_lt zero).2 small
  have cast : ((n : Int) : Rat) = (n : Rat) := Int.cast_natCast n
  rw [ofRat, ← cast]
  exact Format.round_intCast (by simpa [binary64] using digits)

theorem denotes_ofRat (small : n < 2 ^ 53) : (ofRat n).Denotes n := by
  rw [ofRat_natCast small]
  rfl

theorem denotes_ofNat (small : n < 2 ^ 53) : (ofNat n).Denotes n := by
  have cast : ofNat n = ofRat n := by simp [ofNat, ofInt]
  rw [cast]
  exact denotes_ofRat small

theorem denotes_count (n : Nat) : (count n).Denotes n := rfl

theorem count_inj : count m = count n ↔ m = n := by
  simp [count]

theorem denotes_zero : (0 : Number).Denotes 0 := denotes_ofNat (by decide)

theorem denotes_one : (1 : Number).Denotes 1 := denotes_ofNat (by decide)

/-! ## Order -/

theorem Denotes.le_iff (hx : x.Denotes m) (hy : y.Denotes n) : x.le y = true ↔ m ≤ n := by
  rw [denotes_iff] at hx hy
  rcases hx with rfl | ⟨rfl, rfl⟩ <;> rcases hy with rfl | ⟨rfl, rfl⟩ <;> simp [le, value?]

theorem Denotes.same_iff (hx : x.Denotes m) (hy : y.Denotes n) : x.same y = true ↔ m = n := by
  rw [same, Bool.and_eq_true, hx.le_iff hy, hy.le_iff hx]
  omega

theorem Denotes.same_self (hx : x.Denotes n) : x.same x = true :=
  (hx.same_iff hx).2 rfl

theorem Denotes.lt_iff (hx : x.Denotes m) (hy : y.Denotes n) : x.lt y = true ↔ m < n := by
  rw [lt, Bool.and_eq_true, Bool.not_eq_true', Bool.eq_false_iff, Ne, hx.le_iff hy, hy.le_iff hx]
  omega

theorem Denotes.isZero_iff (hx : x.Denotes n) : x.isZero = true ↔ n = 0 := by
  rw [isZero, hx, decide_eq_true_eq, Option.some.injEq, Nat.cast_eq_zero]

/-! ## Natural numbers -/

theorem Denotes.toNat?_eq (hx : x.Denotes n) : x.toNat? = some n := by
  simp [toNat?, toInt?, show x.value? = some (n : Rat) from hx]

theorem Denotes.toInt?_eq (hx : x.Denotes n) : x.toInt? = some (n : Int) := by
  simp [toInt?, show x.value? = some (n : Rat) from hx]

theorem Denotes.isInteger (hx : x.Denotes n) : x.isInteger = true := by
  rw [Number.isInteger, hx.toInt?_eq, Option.isSome_some]

theorem Denotes.unique (hx : x.Denotes m) (hx' : x.Denotes n) : m = n :=
  Option.some.inj (hx.toNat?_eq.symm.trans hx'.toNat?_eq)

theorem Denotes.countBelow_eq (hx : x.Denotes n) : x.countBelow = n := by
  rcases denotes_iff.1 hx with rfl | ⟨rfl, rfl⟩
  · have whole : (n : Rat).ceil = n := Rat.ceil_intCast n
    simp [countBelow, value?, whole]
  · rfl

theorem denotes_of_toNat?_eq_some (isNat : x.toNat? = some n) : x.Denotes n := by
  rw [toNat?, Option.bind_eq_some_iff] at isNat
  obtain ⟨i, isInt, isNat⟩ := isNat
  rw [toInt?, Option.bind_eq_some_iff] at isInt
  obtain ⟨q, value, isInt⟩ := isInt
  split at isInt
  case isFalse => cases isInt
  case isTrue whole =>
    split at isNat
    case isFalse => cases isNat
    case isTrue nonneg =>
      cases isInt
      cases isNat
      rw [Denotes, value, Option.some.injEq]
      have cast : ((q.num.toNat : Nat) : Rat) = (q.num : Rat) := by
        exact_mod_cast Int.toNat_of_nonneg nonneg
      rw [cast]
      exact (Rat.den_eq_one_iff q).1 whole |>.symm

theorem exists_denotes_of_isNatural (natural : x.isNatural = true) : ∃ n, x.Denotes n :=
  (Option.isSome_iff_exists.1 natural).imp fun _ => denotes_of_toNat?_eq_some

theorem Denotes.max (hx : x.Denotes m) (hy : y.Denotes n) :
    (Number.max x y).Denotes (Max.max m n) := by
  rcases denotes_iff.1 hx with rfl | ⟨rfl, rfl⟩
  · have greater : Number.max (finite m) y = if (finite m).lt y then y else finite m := by
      rcases denotes_iff.1 hy with rfl | ⟨rfl, -⟩ <;> rfl
    have less := hx.lt_iff hy
    rw [greater]
    split
    case isTrue below => rwa [Nat.max_eq_right (less.1 below).le]
    case isFalse notBelow => rwa [Nat.max_eq_left (not_lt.1 fun h => notBelow (less.2 h))]
  · have greater : Number.max negativeZero y = if y.lt negativeZero then negativeZero else y := by
      rcases denotes_iff.1 hy with rfl | ⟨rfl, -⟩ <;> rfl
    rw [greater, if_neg fun below => Nat.not_lt_zero n ((hy.lt_iff hx).1 below),
      Nat.max_eq_right (Nat.zero_le n)]
    exact hy

/-! ## Sums and products -/

theorem Denotes.add (hx : x.Denotes m) (hy : y.Denotes n) (small : m + n < 2 ^ 53) :
    (x + y).Denotes (m + n) := by
  have exact : (ofRat ((m : Rat) + n)).Denotes (m + n) := by
    exact_mod_cast denotes_ofRat small
  change (Number.add x y).Denotes (m + n)
  rcases denotes_iff.1 hx with rfl | ⟨rfl, rfl⟩ <;> rcases denotes_iff.1 hy with rfl | ⟨rfl, rfl⟩
  · exact exact
  · exact exact
  · exact exact
  · rfl

theorem Denotes.sub (hx : x.Denotes m) (hy : y.Denotes n) (less : n ≤ m) (small : m < 2 ^ 53) :
    (x - y).Denotes (m - n) := by
  have exact : (ofRat ((m : Rat) + -n)).Denotes (m - n) := by
    have cast : (m : Rat) + -n = ((m - n : Nat) : Rat) := by
      rw [Nat.cast_sub less]
      ring
    rw [cast]
    exact denotes_ofRat (by omega)
  change (Number.add x y.neg).Denotes (m - n)
  rcases denotes_iff.1 hy with rfl | ⟨rfl, rfl⟩
  · by_cases zero : n = 0
    · subst zero
      rcases denotes_iff.1 hx with rfl | ⟨rfl, rfl⟩
      · simpa [neg, Number.add, value?] using exact
      · rfl
    · have nonzero : (n : Rat) ≠ 0 := by exact_mod_cast zero
      rw [neg, if_neg nonzero]
      rcases denotes_iff.1 hx with rfl | ⟨rfl, rfl⟩
      · exact exact
      · exact exact
  · rcases denotes_iff.1 hx with rfl | ⟨rfl, rfl⟩
    · simpa [neg, Number.add, value?] using exact
    · simpa [neg, Number.add, value?] using exact

theorem denotes_zero_of_sign (negative : Bool) : (zero negative).Denotes 0 := by
  cases negative <;> rfl

theorem Denotes.mul (hx : x.Denotes m) (hy : y.Denotes n) (small : m * n < 2 ^ 53) :
    (x * y).Denotes (m * n) := by
  have exact : (ofRat ((m : Rat) * n)).Denotes (m * n) := by
    exact_mod_cast denotes_ofRat small
  change (Number.mul x y).Denotes (m * n)
  rcases denotes_iff.1 hx with rfl | ⟨rfl, rfl⟩ <;> rcases denotes_iff.1 hy with rfl | ⟨rfl, rfl⟩
  · have finite_mul : Number.mul (finite m) (finite n) =
        if (m : Rat) * n = 0 then zero ((finite (m : Rat)).isNegative != (finite n).isNegative)
        else ofRat (m * n) := rfl
    rw [finite_mul]
    split
    case isTrue isZero =>
      have isZero' : m * n = 0 := by exact_mod_cast isZero
      rw [isZero']
      exact denotes_zero_of_sign _
    case isFalse => exact exact
  all_goals
    simp only [Number.mul, value?, Option.getD_some, mul_zero, zero_mul, if_true]
    exact denotes_zero_of_sign _

/-! ## Quotients -/

theorem Denotes.div_eq (hx : x.Denotes m) (hy : y.Denotes n) (positive : 0 < n) (some_ : 0 < m) :
    x / y = ofRat ((m : Rat) / n) := by
  have nonzero : (n : Rat) ≠ 0 := by exact_mod_cast positive.ne'
  have nonzero' : (m : Rat) ≠ 0 := by exact_mod_cast some_.ne'
  change Number.div x y = _
  rcases denotes_iff.1 hx with rfl | ⟨rfl, rfl⟩
  · rcases denotes_iff.1 hy with rfl | ⟨rfl, rfl⟩
    · simp [Number.div, isZero, value?, positive.ne', some_.ne']
    · cases positive
  · cases some_

theorem denotes_div_zero (hx : x.Denotes 0) (hy : y.Denotes n) (positive : 0 < n) :
    (x / y).Denotes 0 := by
  have isZero : x.isZero = true := hx.isZero_iff.2 rfl
  have notZero : ¬ y.isZero = true := fun zero => positive.ne' (hy.isZero_iff.1 zero)
  change (Number.div x y).Denotes 0
  rcases denotes_iff.1 hx with rfl | ⟨rfl, -⟩ <;>
    rcases denotes_iff.1 hy with rfl | ⟨rfl, rfl⟩ <;>
    simp only [Number.div, isZero, notZero, if_true, if_false, Bool.false_eq_true]
  all_goals first | exact denotes_zero_of_sign _ | cases positive

theorem Denotes.div (hx : x.Denotes (m * n)) (hy : y.Denotes n) (positive : 0 < n)
    (small : m < 2 ^ 53) : (x / y).Denotes m := by
  by_cases zero : m = 0
  · subst zero
    rw [Nat.zero_mul] at hx
    exact denotes_div_zero hx hy positive
  · rw [hx.div_eq hy positive (Nat.mul_pos (Nat.pos_of_ne_zero zero) positive)]
    have nonzero : (n : Rat) ≠ 0 := by exact_mod_cast positive.ne'
    rw [Nat.cast_mul, mul_div_cancel_right₀ _ nonzero]
    exact denotes_ofRat small

theorem Denotes.isMultiple_iff (hx : x.Denotes m) (hy : y.Denotes n) :
    x.isMultiple y = true ↔ 0 < n ∧ n ∣ m := by
  have whole (positive : 0 < n) : ((m : Rat) / n).den = 1 ↔ n ∣ m :=
    Rat.den_div_natCast_eq_one_iff m n positive.ne'
  rcases denotes_iff.1 hx with rfl | ⟨rfl, rfl⟩ <;>
    rcases denotes_iff.1 hy with rfl | ⟨rfl, rfl⟩ <;>
    simp [isMultiple, isZero, value?, Nat.pos_iff_ne_zero]
  exact fun nonzero => whole (Nat.pos_of_ne_zero nonzero)

end Number

end BatchGraph
