import BatchGraph.Proofs.Number.Signed

/-!
Rounding keeps the order.

A greater number is rounded in the same unit or in a coarser one.  In the same unit the nearest
multiple cannot be smaller; in a coarser one the power of two between the two numbers is a multiple
of both units, so it stays between the results (`roundMagnitude_le_roundMagnitude`).  A number below
one that does not overflow therefore does not overflow either (`exists_ofRat_of_le`), and neither do
products and quotients of smaller numbers.

With that, quotients are rounded up as they should be also where the divisor is too large to be
counted exactly (`Denotes.ceil_div_of_isBinary64`).
-/

namespace BatchGraph

namespace Number

variable {x y : Number} {m n : Nat} {p q : Rat}

/-! ## Multiples of a unit -/

theorem nearestQuotient_natCast (n : Nat) :
    nearestQuotient (n : Rat).num.natAbs (n : Rat).den = n := by
  simp [nearestQuotient, Nat.mod_one]

theorem nearestQuotient_le_nearestQuotient (positive : 0 < p) (le : p ≤ q) :
    nearestQuotient p.num.natAbs p.den ≤ nearestQuotient q.num.natAbs q.den := by
  by_contra less
  have near := abs_le.1 (abs_nearestQuotient_sub_le positive)
  have near' := abs_le.1 (abs_nearestQuotient_sub_le (positive.trans_le le))
  have apart : (nearestQuotient q.num.natAbs q.den : Rat) + 1 ≤
      nearestQuotient p.num.natAbs p.den := by
    exact_mod_cast not_le.1 less
  have equal : p = q := by linarith [near.2, near'.1]
  exact less (equal ▸ le_rfl)

theorem nearestQuotient_le_of_le (positive : 0 < q) (below : q ≤ n) :
    nearestQuotient q.num.natAbs q.den ≤ n := by
  have nearest := nearestQuotient_le_nearestQuotient positive below
  rwa [nearestQuotient_natCast] at nearest

/-! ## Units -/

theorem lt_two_zpow_leadingExponent (positive : 0 < q) :
    q < (2 : Rat) ^ (leadingExponent q + 1) := by
  have den : (0 : Rat) < q.den := by exact_mod_cast q.den_pos
  have numUpper : q * q.den < 2 ^ (q.num.natAbs.log2 + 1) := by
    rw [← natAbs_num_eq positive]
    exact_mod_cast Nat.lt_log2_self
  have denLower : (2 : Rat) ^ q.den.log2 ≤ q.den := by
    exact_mod_cast Nat.log2_self_le q.den_pos.ne'
  unfold leadingExponent
  simp only
  split
  case isTrue below => rwa [sub_add_cancel]
  case isFalse =>
    rw [zpow_add_one₀ two_ne_zero, zpow_sub₀ two_ne_zero, zpow_natCast, zpow_natCast,
      div_mul_eq_mul_div, lt_div_iff₀ (by positivity), ← pow_succ]
    exact (mul_le_mul_of_nonneg_left denLower positive.le).trans_lt numUpper

theorem leadingExponent_le_leadingExponent (positive : 0 < p) (le : p ≤ q) :
    leadingExponent p ≤ leadingExponent q := by
  have power : (2 : Rat) ^ leadingExponent p < 2 ^ (leadingExponent q + 1) :=
    (two_zpow_leadingExponent_le positive).trans_lt
      (le.trans_lt (lt_two_zpow_leadingExponent (positive.trans_le le)))
  exact Int.lt_add_one_iff.1 ((zpow_lt_zpow_iff_right₀ one_lt_two).1 power)

theorem unitExponent_eq (q : Rat) :
    binary64.unitExponent q = Max.max (leadingExponent q - 52) (-1074) := by
  have unit : binary64.unitExponent q = Max.max (leadingExponent q + 1 - 53) (-1074) := rfl
  rw [unit]
  congr 1
  omega

/-- A natural number of units that is not above a number is not above the rounded one. -/
theorem mul_le_roundMagnitude (positive : 0 < q)
    (below : (n : Rat) * 2 ^ binary64.unitExponent q ≤ q) :
    (n : Rat) * 2 ^ binary64.unitExponent q ≤ binary64.roundMagnitude q := by
  unfold Format.roundMagnitude
  simp only
  generalize binary64.unitExponent q = e at below
  have inside : (n : Rat) ≤ q * 2 ^ (-e) := by
    rwa [zpow_neg, ← div_eq_mul_inv, le_div_iff₀ (zpow_pos two_pos e)]
  have nearest := le_nearestQuotient_of_le (mul_pos positive (zpow_pos two_pos (-e))) inside
  exact mul_le_mul_of_nonneg_right (Nat.cast_le.2 nearest) (zpow_pos two_pos e).le

/-- A natural number of units that is not below a number is not below the rounded one. -/
theorem roundMagnitude_le_mul (positive : 0 < q)
    (above : q ≤ (n : Rat) * 2 ^ binary64.unitExponent q) :
    binary64.roundMagnitude q ≤ (n : Rat) * 2 ^ binary64.unitExponent q := by
  unfold Format.roundMagnitude
  simp only
  generalize binary64.unitExponent q = e at above
  have inside : q * 2 ^ (-e) ≤ n := by
    rwa [zpow_neg, ← div_eq_mul_inv, div_le_iff₀ (zpow_pos two_pos e)]
  have nearest := nearestQuotient_le_of_le (mul_pos positive (zpow_pos two_pos (-e))) inside
  exact mul_le_mul_of_nonneg_right (Nat.cast_le.2 nearest) (zpow_pos two_pos e).le

/-- A power of two that is not below the unit is a natural number of units. -/
theorem two_zpow_eq_mul {e t : Int} (le : e ≤ t) :
    (2 : Rat) ^ t = ((2 ^ (t - e).toNat : Nat) : Rat) * 2 ^ e := by
  obtain ⟨k, rfl⟩ := Int.le.dest le
  have exponent : (e + k - e).toNat = k := by omega
  rw [exponent, zpow_add₀ two_ne_zero, zpow_natCast, Nat.cast_pow, Nat.cast_ofNat, Rat.mul_comm]

theorem roundMagnitude_le_roundMagnitude (positive : 0 < p) (le : p ≤ q) :
    binary64.roundMagnitude p ≤ binary64.roundMagnitude q := by
  have positive' := positive.trans_le le
  have unit := unitExponent_eq p
  have unit' := unitExponent_eq q
  have leading := leadingExponent_le_leadingExponent positive le
  rcases eq_or_ne (binary64.unitExponent p) (binary64.unitExponent q) with same | differ
  · unfold Format.roundMagnitude
    simp only
    rw [same]
    have scale : (0 : Rat) < 2 ^ (-binary64.unitExponent q) := zpow_pos two_pos _
    refine mul_le_mul_of_nonneg_right (Nat.cast_le.2 ?_) (zpow_pos two_pos _).le
    exact nearestQuotient_le_nearestQuotient (mul_pos positive scale)
      (mul_le_mul_of_nonneg_right le scale.le)
  · -- The leading power of the greater number separates the two.
    have apart : leadingExponent p + 1 ≤ leadingExponent q := by omega
    have lower : p ≤ 2 ^ leadingExponent q :=
      (lt_two_zpow_leadingExponent positive).le.trans (zpow_le_zpow_right₀ one_le_two apart)
    have upper := two_zpow_leadingExponent_le positive'
    have units := two_zpow_eq_mul (e := binary64.unitExponent p) (t := leadingExponent q) (by omega)
    have units' := two_zpow_eq_mul (e := binary64.unitExponent q) (t := leadingExponent q) (by omega)
    rw [units] at lower
    rw [units'] at upper
    have below := roundMagnitude_le_mul positive lower
    have above := mul_le_roundMagnitude positive' upper
    rw [← units] at below
    rw [← units'] at above
    exact below.trans above

/-- What is not below the smallest unit is not rounded to zero. -/
theorem roundMagnitude_pos (least : (2 : Rat) ^ (-1074 : Int) ≤ q) :
    0 < binary64.roundMagnitude q := by
  have positive : 0 < q := (zpow_pos two_pos _).trans_le least
  have unit : ((1 : Nat) : Rat) * 2 ^ binary64.unitExponent q ≤ q := by
    rw [Nat.cast_one, one_mul, unitExponent_eq]
    rcases le_total (leadingExponent q - 52) (-1074) with tiny | normal
    · rwa [max_eq_right tiny]
    · rw [max_eq_left normal]
      exact (zpow_le_zpow_right₀ one_le_two (by omega)).trans (two_zpow_leadingExponent_le positive)
  exact (mul_pos (by norm_num) (zpow_pos two_pos _)).trans_le (mul_le_roundMagnitude positive unit)

/-! ## Rounding -/

theorem roundMagnitude_natCast (positive : 0 < n) (small : n < 2 ^ 53) :
    binary64.roundMagnitude n = n := by
  have positive' : (0 : Rat) < n := Nat.cast_pos.2 positive
  have leading : leadingExponent (n : Rat) < 53 := by
    have power : (2 : Rat) ^ leadingExponent (n : Rat) < 2 ^ (53 : Int) :=
      (two_zpow_leadingExponent_le positive').trans_lt (by exact_mod_cast small)
    exact (zpow_lt_zpow_iff_right₀ one_lt_two).1 power
  have fine : binary64.unitExponent (n : Rat) ≤ 0 := by
    rw [unitExponent_eq]
    omega
  have units : (n : Rat) = ((n * 2 ^ (0 - binary64.unitExponent (n : Rat)).toNat : Nat) : Rat) *
      2 ^ binary64.unitExponent (n : Rat) := by
    rw [Nat.cast_mul, mul_assoc, ← two_zpow_eq_mul fine, zpow_zero, mul_one]
  exact le_antisymm ((roundMagnitude_le_mul positive' units.le).trans units.ge)
    (units.le.trans (mul_le_roundMagnitude positive' units.ge))

theorem ofRat_eq_of_pos (positive : 0 < q) :
    ofRat q = if (2 : Rat) ^ 1024 ≤ binary64.roundMagnitude q then infinity false
      else finite (binary64.roundMagnitude q) := by
  have notNegative : ¬ q < 0 := not_lt.2 positive.le
  have limit : binary64.limit = 1024 := rfl
  simp only [ofRat, Format.round, notNegative, if_false, decide_false, limit]
  split
  case isFalse => rfl
  case isTrue small =>
    -- A small integer is returned as it is, and is also what rounding gives.
    have nonzero : q.num.natAbs ≠ 0 := Int.natAbs_ne_zero.2 (Rat.num_pos.2 positive).ne'
    have digits : q.num.natAbs < 2 ^ 53 := (Nat.log2_lt nonzero).1 small.2
    have whole : ((q.num.natAbs : Nat) : Rat) = q := by
      rw [natAbs_num_eq positive, small.1, Nat.cast_one, mul_one]
    have rounded := roundMagnitude_natCast (Nat.pos_of_ne_zero nonzero) digits
    rw [whole] at rounded
    have below : q < 2 ^ 1024 := by
      rw [← whole]
      exact_mod_cast digits.trans (Nat.pow_lt_pow_right one_lt_two (by norm_num))
    rw [rounded, if_neg (not_le.2 below)]

theorem ofRat_zero : ofRat 0 = finite 0 := by
  have rounded := ofRat_natCast (n := 0) (by norm_num)
  rwa [Nat.cast_zero] at rounded

/-- What is below a number that does not overflow does not overflow either. -/
theorem exists_ofRat_of_le {r : Rat} (nonneg : 0 ≤ p) (le : p ≤ q) (rounded : ofRat q = finite r) :
    ∃ s, ofRat p = finite s ∧ 0 ≤ s ∧ s ≤ r := by
  have least (positive : 0 < q) : binary64.roundMagnitude q = r ∧ ¬ (2 : Rat) ^ 1024 ≤ r := by
    rw [ofRat_eq_of_pos positive] at rounded
    split at rounded
    case isTrue => cases rounded
    case isFalse below =>
      cases rounded
      exact ⟨rfl, below⟩
  have magnitude (q : Rat) : 0 ≤ binary64.roundMagnitude q := by
    unfold Format.roundMagnitude
    positivity
  rcases nonneg.eq_or_lt with rfl | positive
  · refine ⟨0, ofRat_zero, le_rfl, ?_⟩
    rcases le.eq_or_lt with rfl | positive'
    · cases ofRat_zero.symm.trans rounded
      exact le_rfl
    · rw [← (least positive').1]
      exact magnitude q
  · obtain ⟨rfl, below⟩ := least (positive.trans_le le)
    have mono := roundMagnitude_le_roundMagnitude positive le
    refine ⟨_, ?_, magnitude p, mono⟩
    rw [ofRat_eq_of_pos positive, if_neg fun above => below (above.trans mono)]

/-! ## Numbers of the format -/

theorem Denotes.isBinary64 (hx : x.Denotes n) (small : n < 2 ^ 53) : x.isBinary64 = true := by
  rcases denotes_iff.1 hx with rfl | ⟨rfl, -⟩
  · exact decide_eq_true (ofRat_natCast small)
  · rfl

/-- A product that is not rounded is a number of the format. -/
theorem Denotes.isBinary64_mul (hx : x.Denotes m) (hy : y.Denotes n)
    (exact : (x * y).Denotes (m * n)) : (x * y).isBinary64 = true := by
  rcases mul_eq hx hy with ⟨-, zero⟩ | ⟨-, product⟩
  · exact zero.isBinary64 (by norm_num)
  · rcases denotes_iff.1 exact with isFinite | ⟨negative, -⟩
    · have rounded : ofRat ((m * n : Nat) : Rat) = finite ((m * n : Nat) : Rat) := by
        rw [← isFinite, product, Nat.cast_mul]
      rw [isFinite]
      exact decide_eq_true rounded
    · rw [negative]
      rfl

theorem Denotes.ofRat_eq (hx : x.Denotes n) (format : x.isBinary64 = true) :
    ofRat n = finite n := by
  rcases denotes_iff.1 hx with rfl | ⟨-, rfl⟩
  · exact of_decide_eq_true format
  · exact_mod_cast ofRat_zero

/-! ## Sums, products and quotients -/

theorem value?_neg (hx : x.value? = some p) : x.neg.value? = some (-p) := by
  cases x with
  | nan => cases hx
  | infinity negative => cases hx
  | negativeZero =>
    cases hx
    rfl
  | finite q =>
    obtain rfl := Option.some.inj hx
    rw [neg]
    split
    case isTrue zero => rw [zero, neg_zero]; rfl
    case isFalse => rfl

/-- A difference of natural numbers is not rounded above the greater one. -/
theorem exists_sub_value (hx : x.Denotes m) (format : x.isBinary64 = true) (hy : y.Denotes n)
    (less : n ≤ m) : ∃ s, (x - y).value? = some s ∧ 0 ≤ s ∧ s ≤ m := by
  have nonneg : (0 : Rat) ≤ m + -n := by
    rw [← sub_eq_add_neg, sub_nonneg]
    exact Nat.cast_le.2 less
  have below : (m : Rat) + -n ≤ m := by linarith [Nat.cast_nonneg (α := Rat) n]
  obtain ⟨s, rounded, nonneg', bound⟩ := exists_ofRat_of_le nonneg below (hx.ofRat_eq format)
  rcases add_eq hx (value?_neg hy) with sum | ⟨sum, -⟩
  · exact ⟨s, (congrArg value? sum).trans (congrArg value? rounded), nonneg', bound⟩
  · exact ⟨0, congrArg value? sum, le_rfl, Nat.cast_nonneg m⟩

/-- A quotient of numbers with values, as long as the divisor is a natural number. -/
theorem div_value_eq (hx : x.value? = some p) (hy : y.Denotes n) (positive : 0 < n) :
    (p = 0 ∧ (x / y).Denotes 0) ∨ x / y = ofRat (p / n) := by
  have nonzero : (n : Rat) ≠ 0 := Nat.cast_ne_zero.2 positive.ne'
  have scaled : x.value? = some (p / n * n) := by rwa [div_mul_cancel₀ _ nonzero]
  refine (div_eq scaled hy positive).imp (fun ⟨zero, denotes⟩ => ⟨?_, denotes⟩) And.right
  exact (div_eq_zero_iff.1 zero).resolve_right nonzero

/-- A quotient by a natural number is not rounded above a number of the format that the dividend
does not exceed. -/
theorem exists_div_value_of_le (hx : x.value? = some p) (nonneg : 0 ≤ p) (le : p ≤ q)
    (format : ofRat q = finite q) (hy : y.Denotes n) (positive : 0 < n) :
    ∃ s, (x / y).value? = some s ∧ 0 ≤ s ∧ s ≤ q := by
  have least : (1 : Rat) ≤ n := Nat.one_le_cast.2 positive
  rcases div_value_eq hx hy positive with ⟨-, zero⟩ | quotient
  · exact ⟨0, zero, le_rfl, nonneg.trans le⟩
  · obtain ⟨s, rounded, nonneg', bound⟩ := exists_ofRat_of_le (div_nonneg nonneg n.cast_nonneg)
      ((div_le_self nonneg least).trans le) format
    exact ⟨s, (congrArg value? quotient).trans (congrArg value? rounded), nonneg', bound⟩

/-- A number without a value does not get one by multiplication. -/
theorem value?_mul_of_none (hx : x.value? = none) (y : Number) : (x * y).value? = none := by
  change (Number.mul x y).value? = none
  cases x with
  | nan => rfl
  | infinity negative =>
    cases y <;> simp only [Number.mul] <;> first | rfl | (split <;> rfl)
  | negativeZero => cases hx
  | finite q => cases hx

/-- What is below the factors of a product that does not overflow does not overflow either. -/
theorem exists_mul_value_of_le {x' y' : Number} {p' r : Rat} (hx : x.value? = some p)
    (hx' : x'.value? = some p') (nonneg : 0 ≤ p) (le : p ≤ p') (hy : y.Denotes m)
    (hy' : y'.Denotes n) (le' : m ≤ n) (product : (x' * y').value? = some r) :
    ∃ s, (x * y).value? = some s ∧ 0 ≤ s ∧ s ≤ r := by
  have nonneg' : (0 : Rat) ≤ p * m := mul_nonneg nonneg m.cast_nonneg
  have below : p * m ≤ p' * n :=
    mul_le_mul le (Nat.cast_le.2 le') m.cast_nonneg (nonneg.trans le)
  rcases mul_eq hx' hy' with ⟨zero, denotes⟩ | ⟨-, product'⟩
  · have least : r = 0 := by
      rw [denotes] at product
      exact_mod_cast (Option.some.inj product).symm
    rcases mul_eq hx hy with ⟨-, denotes'⟩ | ⟨nonzero, -⟩
    · exact ⟨0, denotes', le_rfl, least.ge⟩
    · exact absurd (le_antisymm (below.trans zero.le) nonneg') nonzero
  · rw [product'] at product
    have rounded : ofRat (p' * n) = finite r ∨ ofRat (p' * n) = negativeZero ∧ r = 0 := by
      cases isNumber : ofRat (p' * n) <;> rw [isNumber] at product <;> cases product
      · exact .inr ⟨rfl, rfl⟩
      · exact .inl rfl
    have isFinite : ofRat (p' * n) = finite r := by
      refine rounded.resolve_right fun ⟨negative, _⟩ => ?_
      rcases (nonneg'.trans below).eq_or_lt with zero | positive
      · rw [← zero, ofRat_zero] at negative
        cases negative
      · rw [ofRat_eq_of_pos positive] at negative
        split at negative <;> cases negative
    obtain ⟨s, rounded', nonneg'', bound⟩ := exists_ofRat_of_le nonneg' below isFinite
    rcases mul_eq hx hy with ⟨-, denotes⟩ | ⟨-, product''⟩
    · exact ⟨0, denotes, le_rfl, nonneg''.trans bound⟩
    · exact ⟨s, (congrArg value? product'').trans (congrArg value? rounded'), nonneg'', bound⟩

/-! ## Rounding up -/

/-- The next integer is not above a natural number that the number does not exceed. -/
theorem exists_denotes_ceil (hx : x.value? = some p) (nonneg : 0 ≤ p) (below : p ≤ n) :
    ∃ c ≤ n, x.ceil.Denotes c := by
  cases x with
  | nan => cases hx
  | infinity negative => cases hx
  | negativeZero => exact ⟨0, Nat.zero_le n, rfl⟩
  | finite q =>
    obtain rfl := Option.some.inj hx
    have up : q.ceil ≤ ((n : Nat) : Int) := Rat.ceil_le_iff.2 (by exact_mod_cast below)
    have nonneg' : 0 ≤ q.ceil := by
      have least : (0 : Rat) ≤ (q.ceil : Rat) := nonneg.trans Rat.le_ceil
      exact_mod_cast least
    obtain ⟨c, isCeil⟩ := Int.eq_ofNat_of_zero_le nonneg'
    refine ⟨c, by omega, ?_⟩
    rw [ceil, if_neg fun h => not_lt.2 nonneg h.1, isCeil]
    rfl

/-- A quotient by a greater number of the format is rounded up to one. -/
theorem Denotes.ceil_div_of_lt (hx : x.Denotes m) (hy : y.Denotes n) (format : y.isBinary64 = true)
    (some_ : 0 < m) (less : m < n) : (x / y).ceil.Denotes 1 := by
  have positive : 0 < n := some_.trans less
  have positive' : (0 : Rat) < n := Nat.cast_pos.2 positive
  have below : (m : Rat) / n ≤ 1 := (div_le_one positive').2 (Nat.cast_le.2 less.le)
  have one : ofRat 1 = finite 1 := by exact_mod_cast ofRat_natCast (n := 1) (by norm_num)
  obtain ⟨s, rounded, -, bound⟩ := exists_ofRat_of_le (by positivity) below one
  have least : (2 : Rat) ^ (-1074 : Int) ≤ (m : Rat) / n := by
    have limit := lt_of_isBinary64 (hy.ofRat_eq format) positive'
    have inverse : (2 : Rat) ^ (-1074 : Int) ≤ 1 / 2 ^ 1024 := by
      rw [one_div, ← zpow_natCast, ← zpow_neg]
      exact zpow_le_zpow_right₀ one_le_two (by norm_num)
    refine inverse.trans (div_le_div₀ (Nat.cast_nonneg m) (Nat.one_le_cast.2 some_) positive' ?_)
    exact limit.le
  have nonzero : 0 < s := by
    have quotient : (0 : Rat) < m / n := (zpow_pos two_pos _).trans_le least
    rw [ofRat_eq_of_pos quotient] at rounded
    split at rounded <;> cases rounded
    exact roundMagnitude_pos least
  rw [hx.div_eq hy positive some_, rounded]
  exact denotes_ceil_of_between (n := 0) (by exact_mod_cast nonzero) (by exact_mod_cast bound)

theorem Denotes.ceil_div_of_isBinary64 (hx : x.Denotes m) (hy : y.Denotes n)
    (format : y.isBinary64 = true) (positive : 0 < n) (small : m < 2 ^ 53) :
    (x / y).ceil.Denotes ((m + n - 1) / n) := by
  rcases Nat.lt_or_ge n (2 ^ 53) with small' | large
  · exact hx.ceil_div hy positive small small'
  rcases Nat.eq_zero_or_pos m with rfl | some_
  · have none : (0 + n - 1) / n = 0 := Nat.div_eq_of_lt (by omega)
    rw [none]
    exact (denotes_div_zero hx hy positive).ceil
  · have single : (m + n - 1) / n = 1 := by
      rw [Nat.div_eq_iff positive]
      omega
    rw [single]
    exact hx.ceil_div_of_lt hy format some_ (by omega)

end Number

namespace Shape

/-- A product has a value only if it has started from one. -/
theorem exists_value_of_foldl_mul {shape : List Number} {x : Number} {r : Rat}
    (product : (shape.foldl (· * ·) x).value? = some r) : ∃ q, x.value? = some q := by
  induction shape generalizing x with
  | nil => exact ⟨r, product⟩
  | cons extent inner ih =>
    obtain ⟨q, value⟩ := ih product
    cases start : x.value? with
    | none =>
      rw [Number.value?_mul_of_none start] at value
      cases value
    | some q => exact ⟨q, rfl⟩

/-- A product of extents stays zero where one of the factors gets smaller. -/
theorem denotes_foldl_mul_zero_of_le {inner : List Number} {ns : List Nat}
    (extents : Denotes inner ns) {x y : Number} {p q : Rat} (hx : x.value? = some p)
    (hy : y.value? = some q) (nonneg : 0 ≤ p) (le : p ≤ q)
    (zero : (inner.foldl (· * ·) y).Denotes 0) : (inner.foldl (· * ·) x).Denotes 0 := by
  induction extents generalizing x y p q with
  | nil =>
    have least : q = 0 := by
      rw [List.foldl_nil, Number.Denotes, hy] at zero
      exact_mod_cast Option.some.inj zero
    rw [List.foldl_nil, Number.Denotes, hx, le_antisymm (le.trans least.le) nonneg, Nat.cast_zero]
  | cons first _ ih =>
    rw [List.foldl_cons] at zero ⊢
    obtain ⟨r, product⟩ := exists_value_of_foldl_mul zero
    obtain ⟨s, product', nonneg', bound⟩ :=
      Number.exists_mul_value_of_le hx hy nonneg le first first le_rfl product
    exact ih product' product nonneg' bound zero

theorem denotes_size_zero_of_le {leading leading' : Number} {inner : List Number} {m n : Nat}
    {ns : List Nat} (extents : Denotes inner ns) (hm : leading.Denotes m) (hn : leading'.Denotes n)
    (le : m ≤ n) (zero : (size (leading' :: inner)).Denotes 0) :
    (size (leading :: inner)).Denotes 0 := by
  have split : size (leading' :: inner) = inner.foldl (· * ·) (1 * leading') := rfl
  rw [split] at zero
  obtain ⟨r, product⟩ := exists_value_of_foldl_mul zero
  obtain ⟨s, product', nonneg, bound⟩ := Number.exists_mul_value_of_le Number.denotes_one
    Number.denotes_one (by norm_num) le_rfl hm hn le product
  exact denotes_foldl_mul_zero_of_le extents product' product nonneg bound zero

end Shape

end BatchGraph
