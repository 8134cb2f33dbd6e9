import BatchGraph.Proofs.Number.Order
import BatchGraph.Proofs.Number.Quotient
import BatchGraph.Proofs.Shape

/-!
Products of natural numbers, however large.

A product is exact as long as it is below `2 ^ 53`, and stays at least `2 ^ 53` from there on, except
that an infinite product has no value once it is multiplied with zero.  `Number.Tracks` says all
this of a number, and is kept by multiplication (`Tracks.mul`), so it holds of the size of any shape
(`Shape.tracks_size`).  A size that has a small value is therefore the product of its extents.
-/

namespace BatchGraph

namespace Number

variable {x y : Number} {m n : Nat}

/-! ## Rounding keeps lower bounds -/

theorem le_nearestQuotient_of_le {q : Rat} (positive : 0 < q) (below : (n : Rat) ≤ q) :
    n ≤ nearestQuotient q.num.natAbs q.den := by
  have product : n * q.den ≤ q.num.natAbs := by
    have scaled : (n : Rat) * q.den ≤ q.num.natAbs := by
      rw [natAbs_num_eq positive]
      exact mul_le_mul_of_nonneg_right below q.den.cast_nonneg
    exact_mod_cast scaled
  have quotient : n ≤ q.num.natAbs / q.den := (Nat.le_div_iff_mul_le q.den_pos).2 product
  unfold nearestQuotient
  simp only
  split_ifs <;> omega

/-- A natural number of the format that is not above a number is not above the rounded one. -/
theorem le_roundMagnitude {q : Rat} (small : n ≤ 2 ^ 53) (positive : 0 < q)
    (below : (n : Rat) ≤ q) : (n : Rat) ≤ binary64.roundMagnitude q := by
  have leading := two_zpow_leadingExponent_le positive
  have unitExponent : binary64.unitExponent q = Max.max (leadingExponent q + 1 - 53) (-1074) := rfl
  unfold Format.roundMagnitude
  simp only
  generalize binary64.unitExponent q = e at unitExponent
  have scale : (0 : Rat) < 2 ^ e := zpow_pos two_pos e
  have scale' : (0 : Rat) < 2 ^ (-e) := zpow_pos two_pos (-e)
  rcases le_or_gt e 0 with fine | coarse
  · -- The unit divides every natural number.
    obtain ⟨k, rfl⟩ := Int.exists_eq_neg_ofNat fine
    have inside : ((n * 2 ^ k : Nat) : Rat) ≤ q * 2 ^ (-(-(k : Int))) := by
      rw [neg_neg, zpow_natCast]
      push_cast
      exact mul_le_mul_of_nonneg_right below (by positivity)
    have nearest := le_nearestQuotient_of_le (mul_pos positive scale') inside
    have nearest' : ((n * 2 ^ k : Nat) : Rat) ≤ _ := Nat.cast_le.2 nearest
    calc (n : Rat) = ((n * 2 ^ k : Nat) : Rat) * 2 ^ (-(k : Int)) := by
          push_cast
          rw [zpow_neg, zpow_natCast, mul_assoc, mul_inv_cancel₀ (by positivity), mul_one]
      _ ≤ _ := mul_le_mul_of_nonneg_right nearest' scale.le
  · -- The unit is so large that the number has all digits of the format.
    have exponent : e = leadingExponent q - 52 := by omega
    have inside : ((2 ^ 52 : Nat) : Rat) ≤ q * 2 ^ (-e) := by
      calc ((2 ^ 52 : Nat) : Rat) = 2 ^ leadingExponent q * 2 ^ (-e) := by
            rw [← zpow_add₀ two_ne_zero, exponent]
            norm_num
        _ ≤ _ := mul_le_mul_of_nonneg_right leading scale'.le
    have nearest := le_nearestQuotient_of_le (mul_pos positive scale') inside
    have nearest' : ((2 ^ 52 : Nat) : Rat) ≤ _ := Nat.cast_le.2 nearest
    have two : (2 : Rat) ≤ 2 ^ e := by
      calc (2 : Rat) = 2 ^ (1 : Int) := (zpow_one 2).symm
        _ ≤ 2 ^ e := zpow_le_zpow_right₀ one_le_two coarse
    calc (n : Rat) ≤ ((2 ^ 53 : Nat) : Rat) := Nat.cast_le.2 small
      _ = ((2 ^ 52 : Nat) : Rat) * 2 := by norm_num
      _ ≤ _ := mul_le_mul nearest' two two_pos.le (by positivity)

theorem le_ofRat {q : Rat} (small : n ≤ 2 ^ 53) (below : (n : Rat) ≤ q) :
    (finite n).le (ofRat q) = true := by
  have nonneg : ¬ q < 0 := not_lt.2 ((Nat.cast_nonneg n).trans below)
  simp only [ofRat, Format.round, nonneg, if_false]
  split
  case isTrue => exact finite_le_finite.2 below
  case isFalse =>
    split
    case isTrue => rfl
    case isFalse =>
      refine finite_le_finite.2 ?_
      rcases (not_lt.1 nonneg).eq_or_lt with zero | positive
      · rw [← zero] at below ⊢
        exact below.trans (by unfold Format.roundMagnitude; positivity)
      · exact le_roundMagnitude small positive below

theorem Denotes.of_same {x y : Number} {n : Nat} (hx : x.Denotes n) (same : x.same y = true) :
    y.Denotes n := value?_of_same hx same

/-! ## Products -/

/-- The number is a product of natural numbers that is `n`: exactly if that is small, and large
otherwise.  Only a product that is zero can have lost its value. -/
inductive Tracks (x : Number) (n : Nat) : Prop
  | exact (denotes : x.Denotes n) (small : n < 2 ^ 53)
  | large (above : (finite (2 ^ 53 : Nat)).le x = true) (large : 2 ^ 53 ≤ n)
  | lost (noValue : x = nan) (zero : n = 0)

theorem tracks_ofNat (n : Nat) : (ofNat n).Tracks n := by
  rcases Nat.lt_or_ge n (2 ^ 53) with small | large
  · exact .exact (denotes_ofNat small) small
  · have cast : ofNat n = ofRat n := by simp [ofNat, ofInt]
    rw [cast]
    exact .large (le_ofRat le_rfl (Nat.cast_le.2 large)) large

/-- A number that is not below a natural number is infinite or has a value. -/
theorem finite_le_iff : (finite n).le x = true ↔
    x = infinity false ∨ (∃ q : Rat, x = finite q ∧ n ≤ q) ∨ (x = negativeZero ∧ n = 0) := by
  cases x with
  | nan => simp [le]
  | infinity negative => cases negative <;> simp [le]
  | negativeZero => simp [le, value?]
  | finite q => rw [finite_le_finite]; simp

theorem mul_comm (x y : Number) : x * y = y * x := by
  change mul x y = mul y x
  have sign := bne_comm (a := x.isNegative) (b := y.isNegative)
  have product := Rat.mul_comm (x.value?.getD 0) (y.value?.getD 0)
  cases x <;> cases y <;> simp only [mul, sign, product]
  rfl

theorem mul_finite {p q : Rat} (hp : 0 < p) (hq : 0 < q) : finite p * finite q = ofRat (p * q) :=
  if_neg (mul_pos hp hq).ne'

/-- A large number times a natural number that is not zero, or another large one, is large. -/
theorem le_mul {k : Nat} (hx : (finite (2 ^ 53 : Nat)).le x = true) (positive : 0 < k)
    (hy : (finite k).le y = true) : (finite (2 ^ 53 : Nat)).le (x * y) = true := by
  have bound : (0 : Rat) < (2 ^ 53 : Nat) := by norm_num
  have least : (1 : Rat) ≤ k := by exact_mod_cast positive
  have infinite (q : Rat) (large : 0 < q) : infinity false * finite q = infinity false := by
    have notZero : ¬ (finite q).isZero = true := by simpa [isZero, value?] using large.ne'
    have notNegative : (finite q).isNegative = false := by simpa [isNegative] using large.le
    change mul (infinity false) (finite q) = infinity false
    simp only [mul, notZero, notNegative]
    rfl
  rcases finite_le_iff.1 hx with rfl | ⟨p, rfl, above⟩ | ⟨-, zero⟩
  · rcases finite_le_iff.1 hy with rfl | ⟨q, rfl, above'⟩ | ⟨-, rfl⟩
    · rfl
    · rw [infinite q (one_pos.trans_le (least.trans above'))]
      rfl
    · cases positive
  · rcases finite_le_iff.1 hy with rfl | ⟨q, rfl, above'⟩ | ⟨-, rfl⟩
    · rw [mul_comm, infinite p (bound.trans_le above)]
      rfl
    · have large := least.trans above'
      rw [mul_finite (bound.trans_le above) (one_pos.trans_le large)]
      exact le_ofRat le_rfl (above.trans (le_mul_of_one_le_right (bound.trans_le above).le large))
    · cases positive
  · cases zero

/-- A large number times zero is zero or has no value. -/
theorem mul_zero_tracks (hx : (finite (2 ^ 53 : Nat)).le x = true) (hy : y.Denotes 0) :
    (x * y).Tracks 0 := by
  have isZero : y.isZero = true := hy.isZero_iff.2 rfl
  rcases finite_le_iff.1 hx with rfl | ⟨q, rfl, -⟩ | ⟨-, zero⟩
  · refine .lost ?_ rfl
    change mul (infinity false) y = nan
    rcases denotes_iff.1 hy with rfl | ⟨rfl, -⟩ <;> simp only [mul, isZero, if_true]
  · refine .exact ?_ (by norm_num)
    change (mul (finite q) y).Denotes 0
    rcases denotes_iff.1 hy with rfl | ⟨rfl, -⟩ <;> simp [mul, value?, denotes_zero_of_sign]
  · cases zero

theorem nan_mul (x : Number) : nan * x = nan := rfl

theorem denotes_finite (n : Nat) : (finite n).Denotes n := rfl

theorem Denotes.le (hx : x.Denotes n) : (finite n).le x = true :=
  ((denotes_finite n).le_iff hx).2 le_rfl

theorem Denotes.tracks (hx : x.Denotes n) : x.Tracks n := by
  rcases Nat.lt_or_ge n (2 ^ 53) with small | large
  · exact .exact hx small
  · exact .large (((denotes_finite (2 ^ 53)).le_iff hx).2 large) large

theorem Tracks.mul (hx : x.Tracks m) (hy : y.Tracks n) : (x * y).Tracks (m * n) := by
  have large_mul {x y : Number} {m n : Nat} (above : (finite (2 ^ 53 : Nat)).le x = true)
      (large : 2 ^ 53 ≤ m) (hy : y.Tracks n) : (x * y).Tracks (m * n) := by
    cases hy with
    | exact denotes =>
      rcases Nat.eq_zero_or_pos n with rfl | positive
      · exact mul_zero_tracks above denotes
      · exact .large (le_mul above positive denotes.le)
          (large.trans (Nat.le_mul_of_pos_right m positive))
    | large above' large' =>
      have positive : 0 < n := (Nat.two_pow_pos 53).trans_le large'
      exact .large (le_mul above (Nat.two_pow_pos 53) above')
        (large.trans (Nat.le_mul_of_pos_right m positive))
    | lost noValue zero =>
      rw [noValue, zero, mul_comm, nan_mul]
      exact .lost rfl rfl
  cases hx with
  | large above large => exact large_mul above large hy
  | lost noValue zero =>
    rw [noValue, zero, nan_mul, Nat.zero_mul]
    exact .lost rfl rfl
  | exact hx small =>
    cases hy with
    | large above large =>
      rw [mul_comm, Nat.mul_comm]
      exact large_mul above large (.exact hx small)
    | lost noValue zero =>
      rw [noValue, zero, mul_comm, nan_mul]
      exact .lost rfl rfl
    | exact hy small' =>
      rcases Nat.lt_or_ge (m * n) (2 ^ 53) with exact | large
      · exact .exact (hx.mul hy exact) exact
      · refine .large ?_ large
        obtain ⟨positive, positive'⟩ : 0 < m ∧ 0 < n :=
          CanonicallyOrderedAdd.mul_pos.1 ((Nat.two_pow_pos 53).trans_le large)
        have xEq := (denotes_iff.1 hx).resolve_right fun zero => positive.ne' zero.2
        have yEq := (denotes_iff.1 hy).resolve_right fun zero => positive'.ne' zero.2
        rw [xEq, yEq, mul_finite (Nat.cast_pos.2 positive) (Nat.cast_pos.2 positive')]
        exact le_ofRat le_rfl (by exact_mod_cast large)

/-- A product with a small value is that value. -/
theorem Tracks.eq_of_denotes (hx : x.Tracks n) (denotes : x.Denotes m) (small : m < 2 ^ 53) :
    n = m := by
  cases hx with
  | exact denotes' => exact denotes'.unique denotes
  | large above =>
    have bound := ((denotes_finite (2 ^ 53)).le_iff denotes).1 above
    omega
  | lost noValue =>
    rw [noValue] at denotes
    cases denotes

/-- A small product has the value that it looks equal to, if it looks equal to anything. -/
theorem Tracks.denotes_of_same (hx : x.Tracks n) (small : n < 2 ^ 53) (same : x.same y = true) :
    x.Denotes n := by
  cases hx with
  | exact denotes => exact denotes
  | large _ large => omega
  | lost noValue =>
    rw [noValue] at same
    cases y <;> cases same

/-- A small product is counted exactly, whether or not it has lost its value. -/
theorem Tracks.countBelow_eq (hx : x.Tracks n) (small : n < 2 ^ 53) : x.countBelow = n := by
  cases hx with
  | exact denotes => exact denotes.countBelow_eq
  | large _ large => omega
  | lost noValue zero =>
    rw [noValue, zero]
    rfl

theorem Tracks.denotes (hx : x.Tracks n) (small : n < 2 ^ 53) (positive : 0 < n) : x.Denotes n := by
  cases hx with
  | exact denotes => exact denotes
  | large _ large => omega
  | lost _ zero => omega

theorem two_pow_le_countBelow (above : (finite (2 ^ 53 : Nat)).le x = true) :
    2 ^ 53 ≤ x.countBelow := by
  rcases finite_le_iff.1 above with rfl | ⟨q, rfl, bound⟩ | ⟨-, zero⟩
  · have count : (infinity false).countBelow = 2 ^ binary64.limit := Nat.one_shiftLeft _
    rw [count]
    exact Nat.pow_le_pow_right Nat.two_pos (by decide)
  · have below : ((2 ^ 53 : Nat) : Int) ≤ q.ceil := by
      have ceil : ((2 ^ 53 : Nat) : Rat) ≤ (q.ceil : Rat) := bound.trans Rat.le_ceil
      exact_mod_cast ceil
    have count : (finite q).countBelow = q.ceil.toNat := rfl
    omega
  · cases zero

/-- Nothing is counted below a product only if it is zero. -/
theorem Tracks.countBelow_eq_zero_iff (hx : x.Tracks n) : x.countBelow = 0 ↔ n = 0 := by
  cases hx with
  | exact denotes => rw [denotes.countBelow_eq]
  | large above large =>
    have many := two_pow_le_countBelow above
    omega
  | lost noValue zero => rw [noValue, zero]; exact iff_of_true rfl rfl

/-- A product below which little is counted is small. -/
theorem Tracks.lt_of_countBelow_lt (hx : x.Tracks n) (few : x.countBelow < 2 ^ 53) : n < 2 ^ 53 := by
  cases hx with
  | exact _ small => exact small
  | large above =>
    have many := two_pow_le_countBelow above
    omega
  | lost _ zero => rw [zero]; norm_num

end Number

namespace Shape

variable {shape : List Number} {ns : List Nat}

theorem tracks_foldl_mul {x : Number} {n : Nat} (start : x.Tracks n)
    (extents : List.Forall₂ Number.Tracks shape ns) :
    (shape.foldl (· * ·) x).Tracks (n * ns.prod) := by
  induction extents generalizing x n with
  | nil => simpa using start
  | cons first _ ih =>
    rw [List.foldl_cons, List.prod_cons, ← Nat.mul_assoc]
    exact ih (start.mul first)

theorem tracks_size (extents : List.Forall₂ Number.Tracks shape ns) :
    (size shape).Tracks ns.prod := by
  have product := tracks_foldl_mul (Number.tracks_ofNat 1) extents
  rwa [Nat.one_mul] at product

theorem Denotes.tracks_size (extents : Denotes shape ns) : (size shape).Tracks ns.prod :=
  Shape.tracks_size (extents.imp fun _ _ extent => extent.tracks)

end Shape

end BatchGraph
