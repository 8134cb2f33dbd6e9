import BatchGraph.Proofs.Number.Monotone

/-!
Arithmetic of integers.

A number of the format that is so large that it is rounded is rounded to an integer, because its
unit is one (`exists_roundMagnitude_eq`).  Sums and products of integers are therefore integers, or
infinite, and small ones are exact.
-/

namespace BatchGraph

namespace Number

variable {x y : Number} {n : Nat} {a b : Int}

/-- The integer that a number denotes, or zero. -/
def integer (x : Number) : Int := x.toInt?.getD 0

theorem toInt?_of_value (value : x.value? = some (a : Rat)) : x.toInt? = some a := by
  simp [toInt?, value]

theorem integer_of_value (value : x.value? = some (a : Rat)) : x.integer = a := by
  rw [integer, toInt?_of_value value, Option.getD_some]

theorem isInteger_of_value (value : x.value? = some (a : Rat)) : x.isInteger = true := by
  rw [isInteger, toInt?_of_value value, Option.isSome_some]

theorem value?_of_isInteger (isInt : x.isInteger = true) : x.value? = some (x.integer : Rat) := by
  obtain ⟨a, isInt⟩ := Option.isSome_iff_exists.1 isInt
  rw [integer, isInt, Option.getD_some]
  rw [toInt?, Option.bind_eq_some_iff] at isInt
  obtain ⟨q, value, isInt⟩ := isInt
  split at isInt
  case isTrue whole =>
    cases isInt
    rw [value, (Rat.den_eq_one_iff q).1 whole]
  case isFalse => cases isInt

theorem value?_of_toInt? (isInt : x.toInt? = some a) : x.value? = some (a : Rat) := by
  have value := value?_of_isInteger (Option.isSome_of_eq_some isInt)
  rwa [integer, isInt, Option.getD_some] at value

theorem countBelow_of_toInt? (isInt : x.toInt? = some a) : x.countBelow = a.toNat := by
  have value := value?_of_toInt? isInt
  cases x with
  | nan => cases value
  | infinity negative => cases value
  | negativeZero =>
    rw [value?, Option.some.injEq] at value
    have zero : a = 0 := by exact_mod_cast value.symm
    rw [zero]
    rfl
  | finite q =>
    rw [value?, Option.some.injEq] at value
    rw [value]
    exact congrArg Int.toNat (Rat.ceil_intCast a)

theorem Denotes.integer_eq (hx : x.Denotes n) : x.integer = n :=
  integer_of_value (by rwa [Int.cast_natCast])

theorem isInteger_neg (hx : x.isInteger = true) : x.neg.isInteger = true := by
  have value := value?_neg (value?_of_isInteger hx)
  rw [← Int.cast_neg] at value
  exact isInteger_of_value value

/-- The unit of a large number is an integer. -/
theorem exists_roundMagnitude_eq (large : 2 ^ 53 ≤ n) :
    ∃ k : Nat, binary64.roundMagnitude n = k := by
  have positive : (0 : Rat) < n := Nat.cast_pos.2 ((Nat.two_pow_pos 53).trans_le large)
  have leading : (53 : Int) < leadingExponent (n : Rat) + 1 := by
    refine (zpow_lt_zpow_iff_right₀ (one_lt_two (α := Rat))).1 ?_
    refine lt_of_le_of_lt ?_ (lt_two_zpow_leadingExponent positive)
    exact_mod_cast large
  have coarse : 0 ≤ binary64.unitExponent (n : Rat) := by
    rw [unitExponent_eq]
    omega
  have unit := two_zpow_eq_mul coarse
  rw [zpow_zero, mul_one] at unit
  unfold Format.roundMagnitude
  simp only
  rw [unit, ← Nat.cast_mul]
  exact ⟨_, rfl⟩

theorem isInteger_ofRat_natCast (isFinite : (ofRat n).value?.isSome = true) :
    (ofRat n).isInteger = true := by
  rcases Nat.lt_or_ge n (2 ^ 53) with small | large
  · exact (denotes_ofRat small).isInteger
  · have positive : (0 : Rat) < n := Nat.cast_pos.2 ((Nat.two_pow_pos 53).trans_le large)
    obtain ⟨k, magnitude⟩ := exists_roundMagnitude_eq large
    rw [ofRat_eq_of_pos positive, magnitude] at isFinite ⊢
    split at isFinite
    case isTrue => cases isFinite
    case isFalse below =>
      rw [if_neg below]
      exact (denotes_finite k).isInteger

/-- A rounded integer is an integer, unless it is infinite. -/
theorem isInteger_ofRat (isFinite : (ofRat a).value?.isSome = true) :
    (ofRat a).isInteger = true := by
  rcases le_or_gt 0 a with nonneg | negative
  · obtain ⟨n, rfl⟩ := Int.eq_ofNat_of_zero_le nonneg
    rw [Int.cast_natCast] at isFinite ⊢
    exact isInteger_ofRat_natCast isFinite
  · obtain ⟨n, rfl⟩ := Int.exists_eq_neg_ofNat negative.le
    have positive : (0 : Rat) < n := Nat.cast_pos.2 (by omega)
    rw [Int.cast_neg, Int.cast_natCast, ofRat_neg positive] at isFinite ⊢
    refine isInteger_neg (isInteger_ofRat_natCast ?_)
    cases rounded : ofRat (n : Rat) with
    | nan => rw [rounded] at isFinite; cases isFinite
    | infinity sign => rw [rounded] at isFinite; cases isFinite
    | negativeZero => rfl
    | finite q => rfl

theorem isInteger_add (hx : x.isInteger = true) (hy : y.isInteger = true)
    (isFinite : (x + y).value?.isSome = true) : (x + y).isInteger = true := by
  rcases add_eq (value?_of_isInteger hx) (value?_of_isInteger hy) with sum | ⟨sum, -⟩
  · rw [sum, ← Int.cast_add] at isFinite ⊢
    exact isInteger_ofRat isFinite
  · rw [sum]
    rfl

/-- A sum that has a value is one of numbers with values. -/
theorem isSome_of_add (isFinite : (x + y).value?.isSome = true) : y.value?.isSome = true := by
  change (Number.add x y).value?.isSome = true at isFinite
  cases y with
  | nan => cases x <;> cases isFinite
  | infinity negative =>
    cases x with
    | infinity negative' =>
      rw [Number.add] at isFinite
      split at isFinite <;> cases isFinite
    | _ => cases isFinite
  | negativeZero => rfl
  | finite q => rfl

theorem isInteger_mul (hx : x.isInteger = true) (hy : y.isInteger = true)
    (isFinite : (x * y).value?.isSome = true) : (x * y).isInteger = true := by
  rcases mul_eq (value?_of_isInteger hx) (value?_of_isInteger hy) with ⟨-, zero⟩ | ⟨-, product⟩
  · exact Denotes.isInteger (n := 0) zero
  · rw [product, ← Int.cast_mul] at isFinite ⊢
    exact isInteger_ofRat isFinite

/-- A small sum of integers is exact. -/
theorem value?_add (hx : x.value? = some (a : Rat)) (hy : y.value? = some (b : Rat))
    (small : (a + b).natAbs < 2 ^ 53) : (x + y).value? = some ((a + b : Int) : Rat) := by
  rcases add_eq hx hy with sum | ⟨sum, zero⟩
  · rw [sum, ← Int.cast_add, ofRat_intCast small]
    rfl
  · rw [sum, Int.cast_add, zero]
    rfl

/-- A small product of integers is exact. -/
theorem value?_mul (hx : x.value? = some (a : Rat)) (hy : y.value? = some (b : Rat))
    (small : (a * b).natAbs < 2 ^ 53) : (x * y).value? = some ((a * b : Int) : Rat) := by
  rcases mul_eq hx hy with ⟨zero, isZero⟩ | ⟨-, product⟩
  · rw [Int.cast_mul, zero]
    exact isZero
  · rw [product, ← Int.cast_mul, ofRat_intCast small]
    rfl

theorem integer_mul (hx : x.isInteger = true) (hy : y.isInteger = true)
    (small : (x.integer * y.integer).natAbs < 2 ^ 53) :
    (x * y).integer = x.integer * y.integer :=
  integer_of_value (value?_mul (value?_of_isInteger hx) (value?_of_isInteger hy) small)

end Number

end BatchGraph
