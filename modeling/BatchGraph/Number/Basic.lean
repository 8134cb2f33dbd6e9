/-!
Signal values, extents, offsets and strides are binary floating-point numbers.

`Number` separates the values that are no real number (`nan`, the two infinities) and the negative
zero from the rest, which carry their exact rational value.  Every value has one form, so `=` on
`Number` is identity of values: `nan = nan` holds and `negativeZero` differs from zero.  The
numeric order, where the two zeros are equal and `nan` is related to nothing, is `Number.le`, and
`Number.same` is equality in that order.

Arithmetic takes the exact result and rounds it; see `BatchGraph.Number.Rounding`.
-/

namespace BatchGraph

inductive Number where
  | nan
  | infinity (negative : Bool)
  | negativeZero
  | finite (value : Rat)
  deriving DecidableEq

namespace Number

/-! ## Value and sign -/

/-- The exact value of a number that has one; both zeros have the value `0`. -/
def value? : Number → Option Rat
  | finite q => some q
  | negativeZero => some 0
  | _ => none

def isNegative : Number → Bool
  | infinity negative => negative
  | negativeZero => true
  | finite q => q < 0
  | nan => false

def isZero (x : Number) : Bool := x.value? = some 0

/-! ## Order -/

/-- The numeric order, in which `nan` is unordered. -/
def le : Number → Number → Bool
  | nan, _ => false
  | _, nan => false
  | infinity true, _ => true
  | _, infinity false => true
  | infinity false, _ => false
  | _, infinity true => false
  | x, y => x.value?.getD 0 ≤ y.value?.getD 0

/-- Below in the numeric order; `nan` is below nothing, and nothing is below it. -/
def lt (x y : Number) : Bool := x.le y && !y.le x

instance : LT Number := ⟨fun x y => x.lt y⟩

instance : DecidableLT Number := fun x y => inferInstanceAs (Decidable (x.lt y = true))

/-- Equality as the numeric order sees it: the zeros agree and `nan` differs from itself. -/
def same (x y : Number) : Bool := x.le y && y.le x

/-- The place that a number marks: both zeros mark that of zero, and `nan` has one of its own. -/
def place : Number → Number
  | negativeZero => finite 0
  | x => x

/-- The greater number, `nan` if there is one; positive zero counts as the greater zero. -/
def max : Number → Number → Number
  | nan, _ => nan
  | _, nan => nan
  | negativeZero, y => if y.lt negativeZero then negativeZero else y
  | x, y => if x.lt y then y else x

/-! ## Integers -/

/-- The integer that a number denotes, if it denotes one. -/
def toInt? (x : Number) : Option Int :=
  x.value?.bind fun q => if q.den = 1 then some q.num else none

def isInteger (x : Number) : Bool := x.toInt?.isSome

def toNat? (x : Number) : Option Nat :=
  x.toInt?.bind fun n => if 0 ≤ n then some n.toNat else none

def isNatural (x : Number) : Bool := x.toNat?.isSome

/-- A count of what is at hand is taken as it is, however large. -/
def count (n : Nat) : Number := finite n

/-- The next integer that is not below a number, which between minus one and zero is negative
zero. -/
def ceil : Number → Number
  | finite q => if q < 0 ∧ q.ceil = 0 then negativeZero else finite q.ceil
  | x => x

/-- A number is a whole number of units.  Only a zero is a whole number of infinite units. -/
def isMultiple (x unit : Number) : Bool :=
  match x, unit with
  | nan, _ => false
  | _, nan => false
  | infinity _, _ => false
  | x, infinity _ => x.isZero
  | x, unit => !unit.isZero && (x.value?.getD 0 / unit.value?.getD 0).den == 1

/-- The integer next to a number in the direction of zero; `nan` and the infinities give `0`. -/
def truncate (x : Number) : Int :=
  let q := x.value?.getD 0
  q.num.tdiv q.den

end Number

end BatchGraph
