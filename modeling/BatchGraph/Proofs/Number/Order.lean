import Mathlib.Data.List.Forall2
import Mathlib.Algebra.Order.Ring.Rat
import BatchGraph.Shape

/-!
The numeric order and the equality that comes with it.

`Number.le` is transitive, although `nan` is related to nothing, so `Number.same` is symmetric and
transitive.  It is reflexive on everything but `nan`.
-/

namespace BatchGraph

namespace Number

theorem le_eq_decide {x y : Number} {p q : Rat} (isValue : x.value? = some p)
    (isValue' : y.value? = some q) : x.le y = decide (p ≤ q) := by
  cases x <;> cases y <;> cases isValue <;> cases isValue' <;> rfl

theorem same_iff_of_value {x y : Number} {p q : Rat} (isValue : x.value? = some p)
    (isValue' : y.value? = some q) : x.same y = true ↔ p = q := by
  rw [same, le_eq_decide isValue isValue', le_eq_decide isValue' isValue, Bool.and_eq_true,
    decide_eq_true_iff, decide_eq_true_iff, ← le_antisymm_iff]

theorem finite_le_finite {p q : Rat} : (finite p).le (finite q) = true ↔ p ≤ q :=
  decide_eq_true_iff

theorem le_trans {x y z : Number} (first : x.le y = true) (second : y.le z = true) :
    x.le z = true := by
  -- A number between two values has a value, so there the order is that of the values.
  have between {p r : Rat} (isX : x.value? = some p) (isZ : z.value? = some r) :
      x.le z = true := by
    obtain ⟨q, isY⟩ : ∃ q, y.value? = some q := by
      cases y with
      | nan => cases x <;> cases isX <;> cases first
      | infinity negative =>
        cases negative with
        | true => cases x <;> cases isX <;> cases first
        | false => cases z <;> cases isZ <;> cases second
      | negativeZero => exact ⟨0, rfl⟩
      | finite q => exact ⟨q, rfl⟩
    rw [le_eq_decide isX isY, decide_eq_true_eq] at first
    rw [le_eq_decide isY isZ, decide_eq_true_eq] at second
    rw [le_eq_decide isX isZ, decide_eq_true_eq]
    exact first.trans second
  have fromValue {p : Rat} (isX : x.value? = some p) : x.le z = true := by
    cases z with
    | nan => cases y <;> cases second
    | infinity negative =>
      cases negative with
      | true =>
        cases y with
        | infinity negative =>
          cases negative with
          | true => exact first
          | false => cases second
        | nan => cases second
        | negativeZero => cases second
        | finite q => cases second
      | false => cases x <;> cases isX <;> rfl
    | negativeZero => exact between isX rfl
    | finite r => exact between isX rfl
  cases x with
  | nan => cases y <;> cases first
  | infinity negative =>
    cases negative with
    | true =>
      cases z with
      | nan => cases y <;> cases second
      | infinity _ => rfl
      | negativeZero => rfl
      | finite r => rfl
    | false =>
      cases y with
      | infinity negative =>
        cases negative with
        | true => cases first
        | false => exact second
      | nan => cases first
      | negativeZero => cases first
      | finite q => cases first
  | negativeZero => exact fromValue rfl
  | finite p => exact fromValue rfl

/-- Numbers that are not `nan` compare. -/
theorem le_or_le {x y : Number} (isNumber : x ≠ nan) (isNumber' : y ≠ nan) :
    x.le y = true ∨ y.le x = true := by
  have ofValues {p q : Rat} (isValue : x.value? = some p) (isValue' : y.value? = some q) :
      x.le y = true ∨ y.le x = true := by
    rw [le_eq_decide isValue isValue', le_eq_decide isValue' isValue, decide_eq_true_eq,
      decide_eq_true_eq]
    exact le_total p q
  cases x with
  | nan => exact absurd rfl isNumber
  | infinity negative =>
    cases y with
    | nan => exact absurd rfl isNumber'
    | infinity negative' => cases negative <;> cases negative' <;> decide
    | negativeZero => cases negative <;> decide
    | finite q => cases negative <;> simp [le]
  | negativeZero =>
    cases y with
    | nan => exact absurd rfl isNumber'
    | infinity negative => cases negative <;> decide
    | negativeZero => exact ofValues rfl rfl
    | finite q => exact ofValues rfl rfl
  | finite p =>
    cases y with
    | nan => exact absurd rfl isNumber'
    | infinity negative => cases negative <;> simp [le]
    | negativeZero => exact ofValues rfl rfl
    | finite q => exact ofValues rfl rfl

/-- Of numbers that compare, one is not below the other exactly if that one is not above it. -/
theorem lt_eq_false_iff {x y : Number} (isNumber : x ≠ nan) (isNumber' : y ≠ nan) :
    y.lt x = false ↔ x.le y = true := by
  have total := le_or_le isNumber isNumber'
  rw [lt]
  cases below : x.le y <;> cases above : y.le x <;> simp_all

theorem lt_asymm {x y : Number} (less : x.lt y = true) : y.lt x = false := by
  rw [lt, Bool.and_eq_true] at less
  rw [lt, less.1, Bool.not_true, Bool.and_false]

theorem same_comm (x y : Number) : x.same y = y.same x := Bool.and_comm _ _

theorem same_trans {x y z : Number} (first : x.same y = true) (second : y.same z = true) :
    x.same z = true := by
  simp only [same, Bool.and_eq_true] at *
  exact ⟨le_trans first.1 second.1, le_trans second.2 first.2⟩

/-- What looks equal to a number with a value has the same value. -/
theorem value?_of_same {x y : Number} {q : Rat} (isValue : x.value? = some q)
    (same : x.same y = true) : y.value? = some q := by
  rw [Number.same, Bool.and_eq_true] at same
  obtain ⟨r, isValue'⟩ : ∃ r, y.value? = some r := by
    cases y with
    | nan => cases x <;> cases same.1
    | infinity negative => cases x <;> cases negative <;> simp_all [le, value?]
    | negativeZero => exact ⟨0, rfl⟩
    | finite r => exact ⟨r, rfl⟩
  rw [le_eq_decide isValue isValue', le_eq_decide isValue' isValue, decide_eq_true_eq,
    decide_eq_true_eq] at same
  rw [isValue', le_antisymm same.2 same.1]

/-- Only the zeros look equal without being so. -/
theorem eq_or_isZero_of_same {x y : Number} (same : x.same y = true) :
    x = y ∨ x.isZero = true ∧ y.isZero = true := by
  have other := same_comm x y ▸ same
  cases x with
  | nan => cases same
  | infinity negative =>
    cases y with
    | nan => cases other
    | infinity negative' => cases negative <;> cases negative' <;> cases same <;> exact .inl rfl
    | negativeZero => cases value?_of_same rfl other
    | finite q => cases value?_of_same rfl other
  | negativeZero => exact .inr ⟨rfl, decide_eq_true (value?_of_same rfl same)⟩
  | finite p =>
    cases y with
    | nan => cases other
    | infinity negative => cases value?_of_same rfl same
    | negativeZero => exact .inr ⟨decide_eq_true (value?_of_same rfl other), rfl⟩
    | finite q => exact .inl (congrArg finite (Option.some.inj (value?_of_same rfl other)))

/-- A number is positive if and only if there are natural numbers below it. -/
theorem zero_lt_iff {x : Number} : lt 0 x = true ↔ x.countBelow ≠ 0 := by
  have zero : (0 : Number) = finite 0 := by decide
  rw [zero]
  cases x with
  | nan => decide +kernel
  | infinity negative =>
    cases negative with
    | true => decide +kernel
    | false =>
      have count : (infinity false).countBelow = 2 ^ binary64.limit := Nat.one_shiftLeft _
      simp [count, lt, le]
  | negativeZero => decide +kernel
  | finite q =>
    have positive : lt (finite 0) (finite q) = true ↔ 0 < q := by
      rw [lt, Bool.and_eq_true, Bool.not_eq_true', ← Bool.not_eq_true, finite_le_finite,
        finite_le_finite, lt_iff_le_not_ge]
    have count : (finite q).countBelow = q.ceil.toNat := rfl
    rw [positive, count, Ne, Int.toNat_eq_zero, Rat.ceil_le_iff, Int.cast_zero, not_le]

end Number

/-- What passes on from two steps to their composition does so along lists. -/
theorem forall₂_trans {α β γ : Type} {R : α → β → Prop} {S : β → γ → Prop} {T : α → γ → Prop}
    {as : List α} {bs : List β} {cs : List γ} (first : List.Forall₂ R as bs)
    (second : List.Forall₂ S bs cs) (compose : ∀ {a b c}, R a b → S b c → T a c) :
    List.Forall₂ T as cs := by
  induction first generalizing cs with
  | nil =>
    cases second
    exact .nil
  | cons head _ ih =>
    cases second with
    | cons head' tail' => exact .cons (compose head head') (ih tail')

namespace Shape

theorem same_iff {a b : List Number} :
    same a b = true ↔ List.Forall₂ (fun x y => x.same y = true) a b := by
  simp [same, List.forall₂_iff_zip]

theorem same_comm (a b : List Number) : same a b = same b a := by
  rw [Bool.eq_iff_iff, same_iff, same_iff]
  exact ⟨fun h => h.flip.imp fun _ _ => by rw [Number.same_comm]; exact id,
    fun h => h.flip.imp fun _ _ => by rw [Number.same_comm]; exact id⟩

theorem same_trans {a b c : List Number} (first : same a b = true) (second : same b c = true) :
    same a c = true := by
  rw [same_iff] at *
  exact forall₂_trans first second Number.same_trans

end Shape

end BatchGraph
