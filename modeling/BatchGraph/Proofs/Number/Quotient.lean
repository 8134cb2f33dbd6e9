import Mathlib.Tactic
import BatchGraph.Proofs.Number.Exact

/-!
Quotients of natural numbers, rounded up.

A quotient is rounded to the format before it is rounded up to an integer.  For natural numbers
below `2 ^ 53` that makes no difference (`Denotes.ceil_div`): a quotient that is no natural number
is too far from its lower neighbour to be rounded to it.
-/

namespace BatchGraph

namespace Number

variable {x y : Number} {m n : Nat}

/-! ## Rounding to the format -/

theorem nearestQuotient_le (a b : Nat) : 2 * (nearestQuotient a b * b) ≤ 2 * a + b := by
  have split := Nat.div_add_mod a b
  have product : (a / b + 1) * b = b * (a / b) + b := by ring
  have product' : a / b * b = b * (a / b) := Nat.mul_comm _ _
  unfold nearestQuotient
  simp only
  split_ifs <;> omega

theorem le_nearestQuotient (a : Nat) {b : Nat} (positive : 0 < b) :
    2 * a ≤ 2 * (nearestQuotient a b * b) + b := by
  have split := Nat.div_add_mod a b
  have less := Nat.mod_lt a positive
  have product : (a / b + 1) * b = b * (a / b) + b := by ring
  have product' : a / b * b = b * (a / b) := Nat.mul_comm _ _
  unfold nearestQuotient
  simp only
  split_ifs <;> omega

theorem natAbs_num_eq {q : Rat} (positive : 0 < q) :
    ((q.num.natAbs : Nat) : Rat) = q * q.den := by
  have nonneg : ((q.num.natAbs : Nat) : Int) = q.num :=
    Int.natAbs_of_nonneg (Rat.num_pos.2 positive).le
  rw [Rat.mul_den_eq_num, ← nonneg, Int.cast_natCast]
  simp

/-- The nearest natural number to a positive number is not more than a half away. -/
theorem abs_nearestQuotient_sub_le {q : Rat} (positive : 0 < q) :
    |(nearestQuotient q.num.natAbs q.den : Rat) - q| ≤ 1 / 2 := by
  have den : (0 : Rat) < q.den := by exact_mod_cast q.den_pos
  have num := natAbs_num_eq positive
  have upper : 2 * ((nearestQuotient q.num.natAbs q.den : Rat) * q.den) ≤
      2 * (q * q.den) + q.den := by
    rw [← num]
    exact_mod_cast nearestQuotient_le q.num.natAbs q.den
  have lower : 2 * (q * q.den) ≤
      2 * ((nearestQuotient q.num.natAbs q.den : Rat) * q.den) + q.den := by
    rw [← num]
    exact_mod_cast le_nearestQuotient q.num.natAbs q.den_pos
  rw [abs_le]
  constructor <;> nlinarith

theorem two_zpow_leadingExponent_le {q : Rat} (positive : 0 < q) :
    (2 : Rat) ^ leadingExponent q ≤ q := by
  have den : (0 : Rat) < q.den := by exact_mod_cast q.den_pos
  have numPositive : q.num.natAbs ≠ 0 := by
    rw [Int.natAbs_ne_zero]
    exact (Rat.num_pos.2 positive).ne'
  have num := natAbs_num_eq positive
  have numLower : (2 : Rat) ^ q.num.natAbs.log2 ≤ q * q.den := by
    rw [← num]
    exact_mod_cast Nat.log2_self_le numPositive
  have denUpper : (q.den : Rat) < 2 ^ (q.den.log2 + 1) := by
    exact_mod_cast Nat.lt_log2_self
  unfold leadingExponent
  simp only
  split
  case isFalse above => exact not_lt.1 above
  case isTrue =>
    rw [zpow_sub_one₀ two_ne_zero, zpow_sub₀ two_ne_zero, zpow_natCast, zpow_natCast,
      div_mul_eq_mul_div, div_le_iff₀ (by positivity)]
    rw [pow_succ] at denUpper
    nlinarith

/-- The unit in which a quotient is rounded is less than twice its distance from a natural
number. -/
theorem exists_unitExponent_div {m n : Nat} (positive : 0 < n) (nonzero : 0 < m)
    (small : m < 2 ^ 53) (small' : n < 2 ^ 53) :
    ∃ k : Nat, binary64.unitExponent ((m : Rat) / n) = -k ∧ (n : Rat) < 2 ^ (k + 1) := by
  have denominator : (0 : Rat) < n := by exact_mod_cast positive
  have leading := two_zpow_leadingExponent_le (q := (m : Rat) / n)
    (div_pos (by exact_mod_cast nonzero) denominator)
  have unitExponent : binary64.unitExponent ((m : Rat) / n) =
      Max.max (leadingExponent ((m : Rat) / n) + 1 - 53) (-1074) := rfl
  rw [unitExponent]
  generalize leadingExponent ((m : Rat) / n) = t at leading
  have below : (n : Rat) * 2 ^ t < 2 ^ (53 : Int) := by
    have bound : (2 : Rat) ^ t * n ≤ m := (le_div_iff₀ denominator).1 leading
    have bound' : (m : Rat) < 2 ^ (53 : Int) := by exact_mod_cast small
    linarith [mul_comm ((2 : Rat) ^ t) (n : Rat)]
  have exponent : t < 53 := by
    by_contra large
    have grows : (2 : Rat) ^ (53 : Int) ≤ 2 ^ t := zpow_le_zpow_right₀ one_le_two (not_lt.1 large)
    have least : (1 : Rat) ≤ n := by exact_mod_cast positive
    nlinarith [zpow_pos (two_pos : (0 : Rat) < 2) t]
  rcases le_total (t + 1 - 53) (-1074) with tiny | normal
  · refine ⟨1074, by rw [max_eq_right tiny]; rfl, ?_⟩
    exact_mod_cast small'.trans (Nat.pow_lt_pow_right one_lt_two (by norm_num))
  · refine ⟨(52 - t).toNat, by rw [max_eq_left normal]; omega, ?_⟩
    have power : (2 : Rat) ^ ((52 - t).toNat + 1) = 2 ^ (53 : Int) / 2 ^ t := by
      rw [← zpow_sub₀ two_ne_zero, ← zpow_natCast]
      congr 1
      omega
    rwa [power, lt_div_iff₀ (zpow_pos two_pos t)]

/-- A quotient between two neighbouring natural numbers is not rounded down to the lower one. -/
theorem roundMagnitude_div {m n : Nat} (positive : 0 < n) (small : m < 2 ^ 53)
    (small' : n < 2 ^ 53) (split : ¬ n ∣ m) :
    ((m / n : Nat) : Rat) < binary64.roundMagnitude ((m : Rat) / n) ∧
      binary64.roundMagnitude ((m : Rat) / n) ≤ ((m / n + 1 : Nat) : Rat) := by
  have denominator : (0 : Rat) < n := by exact_mod_cast positive
  have nonzero : 0 < m := Nat.pos_of_ne_zero fun zero => split (zero ▸ Nat.dvd_zero n)
  have quotient : (0 : Rat) < m / n := div_pos (by exact_mod_cast nonzero) denominator
  obtain ⟨k, unit, half⟩ := exists_unitExponent_div positive nonzero small small'
  have scale : (0 : Rat) < 2 ^ k := by positivity
  obtain ⟨nearest, isNearest⟩ : ∃ nearest : Nat, nearest = nearestQuotient
    ((m : Rat) / n * 2 ^ k).num.natAbs ((m : Rat) / n * 2 ^ k).den := ⟨_, rfl⟩
  have near := abs_le.1 (abs_nearestQuotient_sub_le (mul_pos quotient scale))
  have magnitude : binary64.roundMagnitude ((m : Rat) / n) = nearest / 2 ^ k := by
    rw [Format.roundMagnitude, unit, neg_neg, zpow_neg, zpow_natCast, ← div_eq_mul_inv, isNearest]
  rw [magnitude, lt_div_iff₀ scale, div_le_iff₀ scale]
  rw [← isNearest] at near
  -- The quotient is at least `1 / n` above the lower neighbour, which is more than half a unit.
  have division : (m : Rat) = n * ((m / n : Nat) : Rat) + ((m % n : Nat) : Rat) := by
    exact_mod_cast (Nat.div_add_mod m n).symm
  have rest : (1 : Rat) ≤ ((m % n : Nat) : Rat) := by
    exact_mod_cast Nat.pos_of_ne_zero fun zero => split (Nat.dvd_of_mod_eq_zero zero)
  have rest' : ((m % n : Nat) : Rat) < n := by exact_mod_cast Nat.mod_lt m positive
  have fraction : (m : Rat) / n = ((m / n : Nat) : Rat) + ((m % n : Nat) : Rat) / n := by
    rw [div_eq_iff denominator.ne', add_mul, div_mul_cancel₀ _ denominator.ne', mul_comm]
    exact division
  have upper : ((m % n : Nat) : Rat) / n < 1 := (div_lt_one denominator).2 rest'
  have lower : 1 / 2 < ((m % n : Nat) : Rat) / n * 2 ^ k := by
    rw [div_mul_eq_mul_div, lt_div_iff₀ denominator]
    rw [pow_succ] at half
    nlinarith
  rw [fraction, add_mul] at near
  constructor
  · linarith [near.1]
  · have bound : (nearest : Rat) < (((m / n + 1) * 2 ^ k + 1 : Nat) : Rat) := by
      push_cast
      nlinarith [near.2]
    have bound' : nearest ≤ (m / n + 1) * 2 ^ k := Nat.lt_succ_iff.1 (by exact_mod_cast bound)
    exact_mod_cast bound'

/-- Quotients of natural numbers that are not natural numbers stay between their neighbours. -/
theorem exists_ofRat_div {m n : Nat} (positive : 0 < n) (small : m < 2 ^ 53)
    (small' : n < 2 ^ 53) (split : ¬ n ∣ m) :
    ∃ q : Rat, ofRat ((m : Rat) / n) = finite q ∧ ((m / n : Nat) : Rat) < q ∧
      q ≤ ((m / n + 1 : Nat) : Rat) := by
  obtain ⟨lower, upper⟩ := roundMagnitude_div positive small small' split
  refine ⟨_, ?_, lower, upper⟩
  have fractional : ¬ ((m : Rat) / n).den = 1 := fun one =>
    split ((Rat.den_div_natCast_eq_one_iff m n positive.ne').1 one)
  have nonneg : ¬ (m : Rat) / n < 0 := not_lt.2 (by positivity)
  have limit : ¬ (2 : Rat) ^ binary64.limit ≤ binary64.roundMagnitude ((m : Rat) / n) := by
    have below : m / n + 1 ≤ 2 ^ 53 := Nat.lt_of_le_of_lt (Nat.div_le_self m n) small
    have bound : m / n + 1 < 2 ^ binary64.limit :=
      below.trans_lt (Nat.pow_lt_pow_right one_lt_two (by decide))
    exact not_le.2 (upper.trans_lt (by exact_mod_cast bound))
  simp only [ofRat, Format.round, fractional, false_and, if_false, nonneg, limit]

/-! ## Large numbers -/

/-- Rounding neither halves a number nor adds a half of it. -/
theorem abs_roundMagnitude_sub_le {q : Rat} (large : 1 ≤ q) :
    |binary64.roundMagnitude q - q| ≤ q / 2 := by
  have positive : 0 < q := lt_of_lt_of_le one_pos large
  have leading := two_zpow_leadingExponent_le positive
  have unitExponent : binary64.unitExponent q = Max.max (leadingExponent q + 1 - 53) (-1074) := rfl
  have unit : (2 : Rat) ^ binary64.unitExponent q ≤ q := by
    rw [unitExponent]
    rcases le_total (leadingExponent q + 1 - 53) (-1074) with tiny | normal
    · rw [max_eq_right tiny]
      exact (zpow_le_one_of_nonpos₀ one_le_two (by norm_num)).trans large
    · rw [max_eq_left normal]
      exact (zpow_le_zpow_right₀ one_le_two (by omega)).trans leading
  have scale : (0 : Rat) < 2 ^ binary64.unitExponent q := zpow_pos two_pos _
  have inverse : (2 : Rat) ^ (-binary64.unitExponent q) * 2 ^ binary64.unitExponent q = 1 := by
    rw [← zpow_add₀ two_ne_zero, neg_add_cancel, zpow_zero]
  have near := abs_le.1 (abs_nearestQuotient_sub_le
    (mul_pos positive (zpow_pos two_pos (-binary64.unitExponent q))))
  unfold Format.roundMagnitude
  rw [abs_le]
  constructor
  · nlinarith [near.1]
  · nlinarith [near.2]

theorem half_le_roundMagnitude {q : Rat} (large : 1 ≤ q) :
    q / 2 ≤ binary64.roundMagnitude q := by
  linarith [(abs_le.1 (abs_roundMagnitude_sub_le large)).1]

/-- Counts that look equal after rounding are equal, if one of them is small. -/
theorem eq_of_ofNat_same {x : Number} {m n : Nat} (hx : x.Denotes n) (small : n < 2 ^ 52)
    (same : (ofNat m).same x = true) : m = n := by
  by_cases exact : m < 2 ^ 53
  · exact ((denotes_ofNat exact).same_iff hx).1 same
  · have large : 2 ^ 53 ≤ m := not_lt.1 exact
    have digits : ¬ m.log2 < 53 := by
      rwa [Nat.log2_lt (by omega)]
    have magnitude : (n : Rat) < binary64.roundMagnitude m := by
      have half := half_le_roundMagnitude (q := (m : Rat)) (by exact_mod_cast (by omega : 1 ≤ m))
      have bound : 2 * n < m := by omega
      have bound' : 2 * (n : Rat) < m := by exact_mod_cast bound
      linarith
    have rounded : ofNat m = infinity false ∨
        ofNat m = finite (binary64.roundMagnitude m) := by
      have nonneg : ¬ (m : Rat) < 0 := not_lt.2 m.cast_nonneg
      have cast : ofNat m = binary64.round m := by simp [ofNat, ofInt, ofRat]
      simp only [cast, Format.round, nonneg, if_false, Rat.den_natCast, Rat.num_natCast,
        Int.natAbs_natCast, binary64, digits, and_false, decide_false]
      split
      · exact .inl rfl
      · exact .inr rfl
    exfalso
    rw [Number.same, Bool.and_eq_true] at same
    rcases rounded with infinite | isFinite
    · rw [infinite] at same
      rcases denotes_iff.1 hx with rfl | ⟨rfl, rfl⟩ <;> simp [le] at same
    · rw [isFinite] at same
      have le : binary64.roundMagnitude m ≤ n := by
        rcases denotes_iff.1 hx with rfl | ⟨rfl, rfl⟩
        · exact of_decide_eq_true same.1
        · exact_mod_cast of_decide_eq_true same.1
      exact absurd magnitude (not_lt.2 le)

/-! ## Rounding up -/

theorem Denotes.ceil (hx : x.Denotes n) : x.ceil.Denotes n := by
  rcases denotes_iff.1 hx with rfl | ⟨rfl, rfl⟩
  · have whole : (n : Rat).ceil = n := Rat.ceil_intCast n
    have nonneg : ¬ (n : Rat) < 0 := not_lt.2 n.cast_nonneg
    rw [Number.ceil, if_neg fun h => nonneg h.1, whole]
    rfl
  · rfl

theorem denotes_ceil_of_between {q : Rat} (lower : (n : Rat) < q)
    (upper : q ≤ ((n + 1 : Nat) : Rat)) : (finite q).ceil.Denotes (n + 1) := by
  have nonneg : ¬ q < 0 := not_lt.2 ((Nat.cast_nonneg n).trans lower.le)
  have up : q.ceil = ((n + 1 : Nat) : Int) := by
    apply le_antisymm (Rat.ceil_le_iff.2 (by exact_mod_cast upper))
    by_contra less
    have less' : q.ceil ≤ ((n : Nat) : Int) := by
      push_cast at less ⊢
      omega
    exact absurd lower (not_lt.2 (by exact_mod_cast Rat.ceil_le_iff.1 less'))
  rw [Number.ceil, if_neg fun h => nonneg h.1, up]
  rfl

theorem Denotes.ceil_div (hx : x.Denotes m) (hy : y.Denotes n) (positive : 0 < n)
    (small : m < 2 ^ 53) (small' : n < 2 ^ 53) : (x / y).ceil.Denotes ((m + n - 1) / n) := by
  by_cases whole : n ∣ m
  · obtain ⟨c, rfl⟩ := whole
    have quotient : (n * c + n - 1) / n = c := by
      rw [Nat.add_sub_assoc positive, Nat.mul_add_div positive, Nat.div_eq_of_lt (by omega),
        Nat.add_zero]
    rw [quotient]
    rw [Nat.mul_comm] at hx
    exact (hx.div hy positive (lt_of_le_of_lt (Nat.le_mul_of_pos_left c positive) small)).ceil
  · have quotient : (m + n - 1) / n = m / n + 1 := by
      have rest : m % n ≠ 0 := fun zero => whole (Nat.dvd_of_mod_eq_zero zero)
      have division := Nat.div_add_mod m n
      have less := Nat.mod_lt m positive
      have shift : m + n - 1 = m % n - 1 + n * (m / n + 1) := by
        rw [Nat.mul_add, Nat.mul_one]
        omega
      rw [shift, Nat.add_mul_div_left _ _ positive, Nat.div_eq_of_lt (by omega), Nat.zero_add]
    have nonzero : 0 < m := Nat.pos_of_ne_zero fun zero => whole (zero ▸ Nat.dvd_zero n)
    obtain ⟨q, rounded, lower, upper⟩ := exists_ofRat_div positive small small' whole
    rw [hx.div_eq hy positive nonzero, rounded, quotient]
    exact denotes_ceil_of_between lower upper

end Number

end BatchGraph
