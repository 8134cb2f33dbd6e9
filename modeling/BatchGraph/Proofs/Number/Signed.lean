import BatchGraph.Proofs.Number.Product

/-!
Integers of either sign, and where their sums come to lie.

Rounding keeps the bounds of a negative number as it keeps those of a positive one (`ofRat_le`).  An
offset and a number of strides, all of them integers, is therefore either a natural number below
`2 ^ 53`, which is exact, or visibly outside that range (`Number.Lands`), although the product in it
may have been rounded (`lands_add_mul`).  A quotient of two such numbers that is an integer is exact
if it is small (`div_eq`).
-/

namespace BatchGraph

namespace Number

variable {x y : Number} {m n : Nat} {a b : Int}

/-! ## Rounding of negative numbers -/

theorem ofRat_neg {q : Rat} (positive : 0 < q) : ofRat (-q) = (ofRat q).neg := by
  have negative : -q < 0 := neg_lt_zero.2 positive
  have notNegative : ¬ q < 0 := not_lt.2 positive.le
  have nonzero : -q ≠ 0 := negative.ne
  simp only [ofRat, Format.round, negative, notNegative, if_true, if_false, neg_neg, Rat.neg_den,
    Rat.neg_num, Int.natAbs_neg, decide_true, decide_false]
  split
  · rw [neg, if_neg positive.ne']
  · split
    · rfl
    · rw [neg]

theorem neg_le_finite_neg {q : Rat} (h : (finite q).le x = true) :
    x.neg.le (finite (-q)) = true := by
  cases x with
  | nan => cases h
  | infinity negative =>
    cases negative with
    | true => cases h
    | false => rfl
  | negativeZero =>
    have below : q ≤ 0 := of_decide_eq_true h
    exact finite_le_finite.2 (neg_nonneg.2 below)
  | finite p =>
    have below : q ≤ p := finite_le_finite.1 h
    by_cases zero : p = 0
    · have nonneg : (0 : Rat) ≤ -q := neg_nonneg.2 (zero ▸ below)
      rw [neg, if_pos zero]
      exact decide_eq_true nonneg
    · rw [neg, if_neg zero]
      exact finite_le_finite.2 (neg_le_neg below)

/-- A number that is not above a negative integer of the format is not rounded above it. -/
theorem ofRat_le {q : Rat} (small : n ≤ 2 ^ 53) (positive : 0 < n) (below : q ≤ -n) :
    (ofRat q).le (finite (-n)) = true := by
  have least : (0 : Rat) < n := Nat.cast_pos.2 positive
  have negated : (n : Rat) ≤ -q := le_neg_of_le_neg below
  have reflected := neg_le_finite_neg (le_ofRat small negated)
  rwa [← ofRat_neg (least.trans_le negated), neg_neg] at reflected

theorem ofRat_intCast (small : a.natAbs < 2 ^ 53) : ofRat a = finite a := by
  refine Format.round_intCast ?_
  by_cases zero : a.natAbs = 0
  · rw [zero]
    decide
  · exact (Nat.log2_lt zero).2 small

/-! ## Landing -/

/-- Where a number comes to lie that stands for an integer: at a natural number below `2 ^ 53`,
behind all of these, or in front of them. -/
inductive Lands (x : Number) (a : Int) : Prop
  | inside {k : Nat} (denotes : x.Denotes k) (small : k < 2 ^ 53) (isNat : a = k)
  | behind (above : (finite (2 ^ 53 : Nat)).le x = true) (large : 2 ^ 53 ≤ a)
  | before (below : x.le (finite (-1)) = true) (negative : a < 0)

/-- In the range of exact numbers a number has landed at the integer. -/
theorem Lands.denotes (lands : x.Lands n) (small : n < 2 ^ 53) : x.Denotes n := by
  cases lands with
  | inside denotes _ isNat => rwa [Nat.cast_inj.1 isNat]
  | behind _ large => omega
  | before _ negative => omega

theorem lands_ofRat (a : Int) : (ofRat a).Lands a := by
  rcases lt_or_ge a 0 with negative | nonneg
  · refine .before ?_ negative
    have below : (a : Rat) ≤ -(1 : Nat) := by exact_mod_cast Int.le_sub_one_of_lt negative
    have bound := ofRat_le (by norm_num) one_pos below
    rwa [Nat.cast_one] at bound
  · obtain ⟨n, rfl⟩ := Int.eq_ofNat_of_zero_le nonneg
    rw [Int.cast_natCast]
    rcases Nat.lt_or_ge n (2 ^ 53) with small | large
    · exact .inside (denotes_ofRat small) small rfl
    · exact .behind (le_ofRat le_rfl (Nat.cast_le.2 large)) (by exact_mod_cast large)

theorem lands_of_value (hx : x.value? = some (a : Rat)) : x.Lands a := by
  rcases lt_or_ge a 0 with negative | nonneg
  · refine .before ?_ negative
    cases x with
    | nan => cases hx
    | infinity negative => cases hx
    | negativeZero => exact absurd (Option.some.inj hx).symm (Int.cast_ne_zero.2 negative.ne)
    | finite q =>
      rw [Option.some.inj hx]
      exact finite_le_finite.2 (by exact_mod_cast Int.le_sub_one_of_lt negative)
  · obtain ⟨n, rfl⟩ := Int.eq_ofNat_of_zero_le nonneg
    have denotes : x.Denotes n := by rwa [Int.cast_natCast] at hx
    rcases Nat.lt_or_ge n (2 ^ 53) with small | large
    · exact .inside denotes small rfl
    · exact .behind (((denotes_finite _).le_iff denotes).2 large) (by exact_mod_cast large)

/-- Sums of numbers with values. -/
theorem add_eq {p q : Rat} (hx : x.value? = some p) (hy : y.value? = some q) :
    x + y = ofRat (p + q) ∨ x + y = negativeZero ∧ p + q = 0 := by
  change Number.add x y = _ ∨ Number.add x y = _ ∧ _
  cases x <;> cases y <;> cases hx <;> cases hy <;> simp [Number.add, value?]

theorem lands_add (hx : x.value? = some (a : Rat)) (hy : y.value? = some (b : Rat)) :
    (x + y).Lands (a + b) := by
  rcases add_eq hx hy with sum | ⟨sum, zero⟩
  · rw [sum, ← Int.cast_add]
    exact lands_ofRat (a + b)
  · rw [sum]
    refine .inside (denotes_zero_of_sign true) (by norm_num) ?_
    exact_mod_cast zero

/-- Adding a zero does not move a number. -/
theorem Lands.add_denotes_zero (lands : x.Lands a) (hy : y.Denotes 0) : (x + y).Lands a := by
  have sum {p : Rat} (hx : x.value? = some p) (nonzero : p ≠ 0) : x + y = ofRat p := by
    have zero : y.value? = some ((0 : Nat) : Rat) := hy
    rcases add_eq hx zero with sum | ⟨-, cancels⟩
    · rwa [Nat.cast_zero, add_zero] at sum
    · rw [Nat.cast_zero, add_zero] at cancels
      exact absurd cancels nonzero
  have infinite (negative : Bool) : infinity negative + y = infinity negative := by
    rcases denotes_iff.1 hy with rfl | ⟨rfl, -⟩ <;> rfl
  cases lands with
  | inside denotes small isNat => exact .inside (denotes.add hy small) small isNat
  | behind above large =>
    refine .behind ?_ large
    rcases finite_le_iff.1 above with rfl | ⟨q, rfl, bound⟩ | ⟨-, zero⟩
    · rw [infinite]
      rfl
    · have positive : 0 < q := (Nat.cast_pos.2 (Nat.two_pow_pos 53)).trans_le bound
      rw [sum rfl positive.ne']
      exact le_ofRat le_rfl bound
    · cases zero
  | before below negative =>
    refine .before ?_ negative
    cases x with
    | nan => cases below
    | infinity negative =>
      cases negative with
      | true =>
        rw [infinite]
        rfl
      | false => cases below
    | negativeZero =>
      have impossible : negativeZero.le (finite (-1)) = false := by decide +kernel
      rw [impossible] at below
      cases below
    | finite q =>
      have bound : q ≤ -(1 : Nat) := by
        rw [Nat.cast_one]
        exact finite_le_finite.1 below
      have nonzero : q ≠ 0 := by
        rintro rfl
        norm_num at bound
      rw [sum rfl nonzero]
      have rounded := ofRat_le (by norm_num) one_pos bound
      rwa [Nat.cast_one] at rounded

/-! ## Products -/

/-- Products of numbers with values. -/
theorem mul_eq {p q : Rat} (hx : x.value? = some p) (hy : y.value? = some q) :
    (p * q = 0 ∧ (x * y).Denotes 0) ∨ p * q ≠ 0 ∧ x * y = ofRat (p * q) := by
  by_cases zero : p * q = 0
  · refine .inl ⟨zero, ?_⟩
    change (Number.mul x y).Denotes 0
    cases x <;> cases y <;> cases hx <;> cases hy <;>
      simp only [Number.mul, value?, Option.getD_some, zero, if_true] <;>
      exact denotes_zero_of_sign _
  · refine .inr ⟨zero, ?_⟩
    change Number.mul x y = _
    cases x <;> cases y <;> cases hx <;> cases hy <;>
      simp only [Number.mul, value?, Option.getD_some, zero, if_false]

theorem Denotes.zero_mul {q : Rat} (hx : x.Denotes 0) (hy : y.value? = some q) :
    (x * y).Denotes 0 := by
  refine (mul_eq hx hy).elim And.right fun nonzero => absurd ?_ nonzero.1
  simp

theorem denotes_zero_mul {q : Rat} (hx : x.value? = some q) : (ofNat 0 * x).Denotes 0 :=
  denotes_zero.zero_mul hx

/-- Adding a number that is large, of either sign, to a natural number. -/
theorem denotes_add_large {y : Number} (hx : x.Denotes m) (small : m < 2 ^ 53) :
    ((finite (2 ^ 53 : Nat)).le y = true → (finite (2 ^ 53 : Nat)).le (x + y) = true) ∧
      (y.le (finite (-(2 ^ 53 : Nat))) = true → (x + y).le (finite (-1)) = true) := by
  have infinite (negative : Bool) : x + infinity negative = infinity negative := by
    rcases denotes_iff.1 hx with rfl | ⟨rfl, -⟩ <;> rfl
  have sum {q : Rat} (nonzero : m + q ≠ 0) : x + finite q = ofRat (m + q) :=
    (add_eq hx rfl).resolve_right fun ⟨_, zero⟩ => nonzero zero
  have nonneg : (0 : Rat) ≤ m := m.cast_nonneg
  have bound : (m : Rat) + 1 ≤ (2 ^ 53 : Nat) := by exact_mod_cast small
  constructor
  · intro above
    rcases finite_le_iff.1 above with rfl | ⟨q, rfl, large⟩ | ⟨-, zero⟩
    · rw [infinite]
      rfl
    · rw [sum (by linarith)]
      exact le_ofRat le_rfl (by linarith)
    · cases zero
  · intro below
    cases y with
    | nan => cases below
    | infinity negative =>
      cases negative with
      | true =>
        rw [infinite]
        rfl
      | false => cases below
    | negativeZero =>
      have impossible : negativeZero.le (finite (-(2 ^ 53 : Nat))) = false := by decide +kernel
      rw [impossible] at below
      cases below
    | finite q =>
      have large : q ≤ -(2 ^ 53 : Nat) := finite_le_finite.1 below
      rw [sum (by linarith)]
      have rounded := ofRat_le (q := m + q) (by norm_num) one_pos (by rw [Nat.cast_one]; linarith)
      rwa [Nat.cast_one] at rounded

/-- An offset and a number of strides.  The product may be rounded where it is large, but then the
sum is out of range. -/
theorem lands_add_mul {z : Number} (hx : x.Denotes m) (small : m < 2 ^ 53) (hz : z.Denotes n)
    (hy : y.value? = some (b : Rat)) : (x + z * y).Lands (m + n * b) := by
  rcases mul_eq hz hy with ⟨zero, product⟩ | ⟨nonzero, product⟩
  · have zero' : (n : Int) * b = 0 := by exact_mod_cast zero
    rw [zero', add_zero]
    exact (Lands.inside hx small rfl).add_denotes_zero product
  · have cast : (n : Rat) * b = (((n : Int) * b : Int) : Rat) := by push_cast; rfl
    rw [product, cast]
    generalize (n : Int) * b = c
    rcases lt_or_ge c.natAbs (2 ^ 53) with exact | large
    · rw [ofRat_intCast exact]
      have value : x.value? = some ((m : Int) : Rat) := by rwa [Int.cast_natCast]
      exact lands_add value rfl
    · rcases le_total 0 c with nonneg | negative
      · have large' : ((2 ^ 53 : Nat) : Int) ≤ c := by omega
        refine .behind ((denotes_add_large hx small).1 (le_ofRat le_rfl ?_)) (by omega)
        exact_mod_cast large'
      · have large' : c ≤ -((2 ^ 53 : Nat) : Int) := by omega
        refine .before ((denotes_add_large hx small).2 (ofRat_le le_rfl (by norm_num) ?_)) (by omega)
        exact_mod_cast large'

/-! ## Whole numbers of units -/

theorem exists_of_isMultiple (multiple : x.isMultiple y = true) (hy : y.Denotes n) :
    0 < n ∧ ∃ c : Int, x.value? = some ((c * n : Int) : Rat) := by
  rcases denotes_iff.1 hy with rfl | ⟨rfl, rfl⟩
  · have whole {q : Rat} (hx : x.value? = some q)
        (multiple : (!(finite (n : Rat)).isZero && (q / n).den == 1) = true) :
        0 < n ∧ ∃ c : Int, x.value? = some ((c * n : Int) : Rat) := by
      rw [Bool.and_eq_true, Bool.not_eq_true', beq_iff_eq] at multiple
      have nonzero : n ≠ 0 := by
        rintro rfl
        exact absurd multiple.1 (by simp [isZero, value?])
      have nonzero' : (n : Rat) ≠ 0 := Nat.cast_ne_zero.2 nonzero
      refine ⟨Nat.pos_of_ne_zero nonzero, (q / n).num, ?_⟩
      rw [hx, Int.cast_mul, Int.cast_natCast, (Rat.den_eq_one_iff _).1 multiple.2,
        div_mul_cancel₀ _ nonzero']
    cases x with
    | nan => cases multiple
    | infinity negative => cases multiple
    | negativeZero => exact whole rfl multiple
    | finite q => exact whole rfl multiple
  · cases x <;> cases multiple

/-- A whole number of units, counted in units. -/
theorem div_eq {p : Rat} (hx : x.value? = some (p * n)) (hy : y.Denotes n) (positive : 0 < n) :
    (p = 0 ∧ (x / y).Denotes 0) ∨ p ≠ 0 ∧ x / y = ofRat p := by
  have nonzero : (n : Rat) ≠ 0 := Nat.cast_ne_zero.2 positive.ne'
  have notZero : ¬ y.isZero = true := fun zero => positive.ne' (hy.isZero_iff.1 zero)
  have value : y = finite n := (denotes_iff.1 hy).resolve_right fun zero => positive.ne' zero.2
  by_cases zero : p = 0
  · refine .inl ⟨zero, denotes_div_zero ?_ hy positive⟩
    rw [Denotes, hx, zero, zero_mul, Nat.cast_zero]
  · have nonzero' : p * n ≠ 0 := mul_ne_zero zero nonzero
    refine .inr ⟨zero, ?_⟩
    change Number.div x y = _
    have isZero : ¬ x.isZero = true := by
      rw [isZero, hx, decide_eq_true_eq, Option.some.injEq]
      exact nonzero'
    have quotient : Number.div x (finite n) = ofRat (p * n / n) := by
      rw [value] at notZero
      cases x with
      | nan => cases hx
      | infinity negative => cases hx
      | negativeZero => exact absurd rfl isZero
      | finite q =>
        obtain rfl : q = p * n := Option.some.inj hx
        simp only [Number.div, notZero, isZero, if_false, Bool.false_eq_true]
        rfl
    rw [value, quotient, mul_div_cancel_right₀ _ nonzero]

/-! ## Numbers of the format -/

/-- The number is one of the 64-bit format. -/
def isBinary64 : Number → Bool
  | finite q => ofRat q = finite q
  | _ => true

/-- What becomes of a positive number: a small integer is kept, all else is rounded, and from the
limit on to infinity. -/
theorem ofRat_of_pos {q : Rat} (positive : 0 < q) :
    (q < 2 ^ 53 ∧ ofRat q = finite q) ∨
      (binary64.roundMagnitude q < 2 ^ 1024 ∧ ofRat q = finite (binary64.roundMagnitude q)) ∨
        (2 ^ 1024 ≤ binary64.roundMagnitude q ∧ ofRat q = infinity false) := by
  have notNegative : ¬ q < 0 := not_lt.2 positive.le
  simp only [ofRat, Format.round, notNegative, if_false, decide_false]
  split
  case isTrue small =>
    have nonzero : q.num.natAbs ≠ 0 := Int.natAbs_ne_zero.2 (Rat.num_pos.2 positive).ne'
    have digits : q.num.natAbs < 2 ^ 53 := (Nat.log2_lt nonzero).1 small.2
    have whole := natAbs_num_eq positive
    rw [small.1, Nat.cast_one, mul_one] at whole
    refine .inl ⟨?_, rfl⟩
    rw [← whole]
    exact_mod_cast digits
  case isFalse =>
    split
    case isTrue above => exact .inr (.inr ⟨above, rfl⟩)
    case isFalse below => exact .inr (.inl ⟨not_le.1 below, rfl⟩)

theorem lt_of_isBinary64 {q : Rat} (ofFormat : ofRat q = finite q) (positive : 0 < q) :
    q < 2 ^ 1024 := by
  rcases ofRat_of_pos positive with ⟨small, -⟩ | ⟨below, rounded⟩ | ⟨-, rounded⟩
  · exact small.trans (pow_lt_pow_right₀ one_lt_two (by norm_num))
  · rw [ofFormat, finite.injEq] at rounded
    rwa [rounded]
  · cases ofFormat.symm.trans rounded

theorem two_pow_limit : (2 : Rat) ^ 1024 = 2 * 2 ^ 1023 := pow_succ' 2 1023

theorem isFinite_ofRat {q : Rat} (large : 1 ≤ q) (below : q < 2 ^ 1023) :
    ∃ p, ofRat q = finite p := by
  rcases ofRat_of_pos (one_pos.trans_le large) with ⟨-, rounded⟩ | ⟨-, rounded⟩ | ⟨above, -⟩
  · exact ⟨_, rounded⟩
  · exact ⟨_, rounded⟩
  · have near := (abs_le.1 (abs_roundMagnitude_sub_le large)).2
    rw [two_pow_limit] at above
    generalize (2 : Rat) ^ 1023 = half at above below
    linarith

theorem ofRat_neg_eq_iff {q : Rat} (positive : 0 < q) :
    ofRat (-q) = finite (-q) ↔ ofRat q = finite q := by
  rw [ofRat_neg positive]
  cases ofRat q with
  | finite p =>
    rw [neg]
    split
    case isTrue zero => simp [zero, positive.ne]
    case isFalse => simp
  | negativeZero => simp [neg, positive.ne']
  | _ => simp [neg]

/-- A natural number of units that is one of the format is a finite number of them. -/
theorem isFinite_of_units {k : Nat} (some_ : 0 < k) (positive : 0 < n)
    (ofFormat : ofRat ((k : Rat) * n) = finite (k * n)) : ∃ q, ofRat k = finite q := by
  rcases Nat.lt_or_ge n 2 with one | two
  · obtain rfl : n = 1 := by omega
    rw [Nat.cast_one, mul_one] at ofFormat
    exact ⟨_, ofFormat⟩
  · have least : (1 : Rat) ≤ k := Nat.one_le_cast.2 some_
    have least' : (2 : Rat) ≤ n := Nat.ofNat_le_cast.2 two
    have below := lt_of_isBinary64 ofFormat (by positivity)
    refine isFinite_ofRat least ?_
    rw [two_pow_limit] at below
    generalize (2 : Rat) ^ 1023 = half at below ⊢
    nlinarith

/-- A number of the format that is a whole number of units is a finite number of them. -/
theorem exists_div_value (ofFormat : x.isBinary64 = true) (hy : y.Denotes n) (positive : 0 < n)
    (hx : x.value? = some ((a * n : Int) : Rat)) : ∃ q, (x / y).value? = some q := by
  have scaled : x.value? = some ((a : Rat) * n) := by rw [hx]; push_cast; rfl
  have positive' : (0 : Rat) < n := Nat.cast_pos.2 positive
  rcases div_eq scaled hy positive with ⟨-, zero⟩ | ⟨nonzero, quotient⟩
  · exact ⟨_, zero⟩
  · have isFinite : x = finite (a * n) := by
      cases x with
      | nan => cases scaled
      | infinity negative => cases scaled
      | negativeZero =>
        exact absurd (Option.some.inj scaled).symm (mul_ne_zero nonzero positive'.ne')
      | finite q => rw [Option.some.inj scaled]
    have rounded : ofRat ((a : Rat) * n) = finite (a * n) := by
      rw [isFinite] at ofFormat
      exact of_decide_eq_true ofFormat
    rw [quotient]
    rcases lt_or_ge a 0 with negative | nonneg
    · obtain ⟨k, rfl⟩ := Int.exists_eq_neg_ofNat negative.le
      have some_ : 0 < k := by omega
      have product : (((-(k : Int) : Int) : Rat) * n) = -((k : Rat) * n) := by push_cast; ring
      have some' : (0 : Rat) < k := Nat.cast_pos.2 some_
      rw [product, ofRat_neg_eq_iff (mul_pos some' positive')] at rounded
      obtain ⟨q, isFinite⟩ := isFinite_of_units some_ positive rounded
      rw [Int.cast_neg, Int.cast_natCast, ofRat_neg some', isFinite, neg]
      split <;> exact ⟨_, rfl⟩
    · obtain ⟨k, rfl⟩ := Int.eq_ofNat_of_zero_le nonneg
      rw [Int.cast_natCast] at rounded nonzero ⊢
      obtain ⟨q, isFinite⟩ := isFinite_of_units
        (Nat.pos_of_ne_zero (Nat.cast_ne_zero.1 nonzero)) positive rounded
      exact ⟨q, by rw [isFinite]; rfl⟩

/-- An offset and a number of strides, all of them whole numbers of units, counted in units. -/
theorem denotes_div_add_mul_div {k r : Nat} (hx : x.Denotes (m * n))
    (hy : y.value? = some ((a * n : Int) : Rat)) (ofFormat : y.isBinary64 = true) {unit : Number}
    (isUnit : unit.Denotes n) (positive : 0 < n) (small : m < 2 ^ 53) (few : k < 2 ^ 53)
    (small' : r < 2 ^ 53) (sum : (m : Int) + k * a = r) :
    (x / unit + ofNat k * (y / unit)).Denotes r := by
  have first := hx.div isUnit positive small
  rcases Nat.eq_zero_or_pos k with rfl | some_
  · obtain ⟨q, quotient⟩ := exists_div_value ofFormat isUnit positive hy
    have start : m = r := by omega
    rw [← start]
    exact first.add (denotes_zero_mul quotient) small
  · have exact : a.natAbs < 2 ^ 53 := by
      have product : ((k : Int) * a).natAbs = k * a.natAbs := by
        rw [Int.natAbs_mul, Int.natAbs_natCast]
      have least : a.natAbs ≤ k * a.natAbs := Nat.le_mul_of_pos_left _ some_
      generalize (k : Int) * a = c at sum product
      omega
    have scaled : y.value? = some ((a : Rat) * n) := by rw [hy]; push_cast; rfl
    have quotient : (y / unit).value? = some (a : Rat) := by
      rcases div_eq scaled isUnit positive with ⟨zero, quotient⟩ | ⟨-, quotient⟩
      · rw [zero]
        exact quotient
      · rw [quotient, ofRat_intCast exact]
        rfl
    have lands := lands_add_mul first small (denotes_ofNat few) quotient
    rw [sum] at lands
    exact lands.denotes small'

end Number

end BatchGraph
