import Mathlib.Tactic
import BatchGraph.Proofs.Number.Exact
import BatchGraph.Proofs.Number.Order

/-!
Every number with a value is close to itself (`isClose_self`) and to what looks equal to it
(`isClose_of_same`).

The tolerance is a sum of rounded numbers, none of which is below zero.
-/

namespace BatchGraph

namespace Number

theorem zero_le_finite {q : Rat} : (finite 0).le (finite q) = true ↔ 0 ≤ q :=
  decide_eq_true_iff

theorem zero_le_ofRat {q : Rat} (nonneg : 0 ≤ q) : (finite 0).le (ofRat q) = true := by
  have notNegative : ¬ q < 0 := not_lt.2 nonneg
  have magnitude : 0 ≤ binary64.roundMagnitude q := by
    unfold Format.roundMagnitude
    positivity
  simp only [ofRat, Format.round, notNegative, if_false]
  split
  · exact zero_le_finite.2 nonneg
  · split
    · rfl
    · exact zero_le_finite.2 magnitude

theorem zero_le_add {x y : Number} (hx : (finite 0).le x = true) (hy : (finite 0).le y = true) :
    (finite 0).le (x + y) = true := by
  have sum (p r : Rat) (hp : 0 ≤ p) (hr : 0 ≤ r) : (finite 0).le (ofRat (p + r)) = true :=
    zero_le_ofRat (add_nonneg hp hr)
  change (finite 0).le (Number.add x y) = true
  cases x with
  | nan => cases hx
  | infinity negative =>
    cases negative with
    | true => cases hx
    | false =>
      cases y with
      | nan => cases hy
      | infinity negative =>
        cases negative with
        | true => cases hy
        | false => rfl
      | negativeZero => rfl
      | finite r => rfl
  | negativeZero =>
    cases y with
    | nan => cases hy
    | infinity negative =>
      cases negative with
      | true => cases hy
      | false => rfl
    | negativeZero => rfl
    | finite r => exact sum 0 r le_rfl (zero_le_finite.1 hy)
  | finite p =>
    cases y with
    | nan => cases hy
    | infinity negative =>
      cases negative with
      | true => cases hy
      | false => rfl
    | negativeZero => exact sum p 0 (zero_le_finite.1 hx) le_rfl
    | finite r => exact sum p r (zero_le_finite.1 hx) (zero_le_finite.1 hy)

theorem zero_le_mul {p r : Rat} (hp : 0 ≤ p) (hr : 0 ≤ r) :
    (finite 0).le (finite p * finite r) = true := by
  have finite_mul : Number.mul (finite p) (finite r) =
      if p * r = 0 then zero ((finite p).isNegative != (finite r).isNegative)
      else ofRat (p * r) := rfl
  change (finite 0).le (Number.mul (finite p) (finite r)) = true
  rw [finite_mul]
  split
  · cases (finite p).isNegative != (finite r).isNegative <;> rfl
  · exact zero_le_ofRat (mul_nonneg hp hr)

theorem abs_finite (q : Rat) : (finite q).abs = finite |q| := by
  by_cases negative : q < 0
  · have isNegative : (finite q).isNegative = true := decide_eq_true negative
    rw [Number.abs, if_pos isNegative, neg, if_neg negative.ne, abs_of_neg negative]
  · have isNegative : ¬ (finite q).isNegative = true := by simpa [isNegative] using negative
    rw [Number.abs, if_neg isNegative, abs_of_nonneg (not_lt.1 negative)]

theorem sub_self_finite (q : Rat) : finite q - finite q = finite 0 := by
  have zero : ofRat 0 = finite 0 := by exact_mod_cast ofRat_natCast (n := 0) (by decide)
  change Number.add (finite q) (finite q).neg = finite 0
  by_cases isZero : q = 0
  · subst isZero
    simpa [neg, Number.add, value?] using zero
  · rw [neg, if_neg isZero]
    simpa [Number.add, value?] using zero

/-- A number with a value is within the tolerance of itself. -/
theorem isClose_self {x : Number} (isFinite : x.value?.isSome = true) :
    x.isClose x = true := by
  obtain ⟨p, relative, nonneg⟩ : ∃ p, ofRat (1 / 100000) = finite p ∧ 0 ≤ p := by
    have nonneg : (finite 0).le (ofRat (1 / 100000)) = true := zero_le_ofRat (by norm_num)
    have hasValue : (ofRat (1 / 100000)).value?.isSome = true := by decide +kernel
    have notZero : ofRat (1 / 100000) ≠ negativeZero := by decide +kernel
    cases relative : ofRat (1 / 100000) with
    | nan => cases relative ▸ hasValue
    | infinity negative => cases relative ▸ hasValue
    | negativeZero => exact absurd relative notZero
    | finite p => exact ⟨p, rfl, zero_le_finite.1 (relative ▸ nonneg)⟩
  have tolerance (q : Rat) : (finite 0).le
      (ofRat (1 / 100000000) + ofRat (1 / 100000) * finite |q|) = true := by
    rw [relative]
    exact zero_le_add (zero_le_ofRat (by norm_num)) (zero_le_mul nonneg (abs_nonneg q))
  unfold isClose
  cases x with
  | nan => cases isFinite
  | infinity negative => cases isFinite
  | negativeZero =>
    have difference : negativeZero - negativeZero = finite 0 := by decide +kernel
    have magnitude : negativeZero.abs = finite 0 := by decide +kernel
    rw [difference, magnitude, abs_finite, abs_zero]
    simpa only [abs_zero] using tolerance 0
  | finite q =>
    rw [sub_self_finite, abs_finite, abs_finite, abs_zero]
    exact tolerance q

/-- What looks equal to a number with a value is close to it; only the zeros look equal without
being so. -/
theorem isClose_of_same {x y : Number} (isFinite : x.value?.isSome = true)
    (same : x.same y = true) : y.isClose x = true := by
  obtain ⟨q, isValue⟩ := Option.isSome_iff_exists.1 isFinite
  have isValue' := value?_of_same isValue same
  cases x with
  | nan => cases isFinite
  | infinity negative => cases isFinite
  | negativeZero =>
    cases y with
    | nan => cases isValue'
    | infinity negative => cases isValue'
    | negativeZero => exact isClose_self rfl
    | finite r =>
      cases isValue.trans isValue'.symm
      decide +kernel
  | finite p =>
    cases y with
    | nan => cases isValue'
    | infinity negative => cases isValue'
    | negativeZero =>
      cases isValue'.trans isValue.symm
      decide +kernel
    | finite r =>
      cases isValue.trans isValue'.symm
      exact isClose_self rfl

end Number

end BatchGraph
