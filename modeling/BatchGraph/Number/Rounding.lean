import BatchGraph.Number.Basic

/-!
Rounding to a binary format, and the arithmetic built on it.

A `Format` has a number of significant binary digits, a smallest unit and a limit.  `Format.round`
takes a rational number to the nearest multiple of the unit that its magnitude allows, the even one
of two equally near, and to an infinity from the limit on.  `Number` arithmetic is the exact
operation followed by `binary64.round`; only the sign of a zero result needs a rule of its own.
-/

namespace BatchGraph

/-- Values of the format are `m * 2 ^ e` with `m < 2 ^ digits`, `lowest ≤ e`, below `2 ^ limit`. -/
structure Format where
  digits : Nat
  lowest : Int
  limit : Nat

def binary64 : Format := ⟨53, -1074, 1024⟩

def binary32 : Format := ⟨24, -149, 128⟩

/-! ## Rounding -/

/-- The natural number nearest to `a / b`, the even one of two equally near. -/
def nearestQuotient (a b : Nat) : Nat :=
  let q := a / b
  let r := a % b
  if 2 * r < b then q
  else if b < 2 * r then q + 1
  else if q % 2 = 0 then q else q + 1

/-- The exponent `t` with `2 ^ t ≤ q < 2 ^ (t + 1)`, for a positive `q`. -/
def leadingExponent (q : Rat) : Int :=
  let estimate : Int := (q.num.natAbs.log2 : Int) - (q.den.log2 : Int)
  if q < (2 : Rat) ^ estimate then estimate - 1 else estimate

namespace Format

/-- The exponent of the unit in which a positive `q` is rounded. -/
def unitExponent (f : Format) (q : Rat) : Int :=
  max (leadingExponent q + 1 - (f.digits : Int)) f.lowest

/-- The nearest value of the format to a positive `q`, before the limit is looked at. -/
def roundMagnitude (f : Format) (q : Rat) : Rat :=
  let e := f.unitExponent q
  let scaled := q * (2 : Rat) ^ (-e)
  (nearestQuotient scaled.num.natAbs scaled.den : Rat) * (2 : Rat) ^ e

/-- The nearest number of the format.  An integer of no more binary digits than the format has is
one of its values.  A negative value too small for the format becomes negative zero. -/
def round (f : Format) (q : Rat) : Number :=
  if q.den = 1 ∧ q.num.natAbs.log2 < f.digits then .finite q
  else
    let magnitude := f.roundMagnitude (if q < 0 then -q else q)
    if (2 : Rat) ^ f.limit ≤ magnitude then .infinity (decide (q < 0))
    else if q < 0 then (if magnitude = 0 then .negativeZero else .finite (-magnitude))
    else .finite magnitude

theorem round_intCast {f : Format} {n : Int} (h : n.natAbs.log2 < f.digits) :
    f.round n = .finite n := by
  simp [round, h]

end Format

namespace Number

/-! ## Arithmetic -/

def ofRat (q : Rat) : Number := binary64.round q

def ofInt (n : Int) : Number := ofRat n

def ofNat (n : Nat) : Number := ofInt n

instance (n : Nat) : OfNat Number n := ⟨ofNat n⟩

def zero (negative : Bool) : Number := if negative then negativeZero else finite 0

def neg : Number → Number
  | nan => nan
  | infinity negative => infinity !negative
  | negativeZero => finite 0
  | finite q => if q = 0 then negativeZero else finite (-q)

def abs (x : Number) : Number := if x.isNegative then x.neg else x

def add : Number → Number → Number
  | nan, _ => nan
  | _, nan => nan
  | infinity a, infinity b => if a = b then infinity a else nan
  | infinity a, _ => infinity a
  | _, infinity b => infinity b
  | negativeZero, negativeZero => negativeZero
  | x, y => ofRat (x.value?.getD 0 + y.value?.getD 0)

/-- A zero factor against an infinite one has no value; a zero product has the sign of a product. -/
def mul (x y : Number) : Number :=
  let negative := x.isNegative != y.isNegative
  match x, y with
  | nan, _ => nan
  | _, nan => nan
  | infinity _, y => if y.isZero then nan else infinity negative
  | x, infinity _ => if x.isZero then nan else infinity negative
  | x, y =>
    let product := x.value?.getD 0 * y.value?.getD 0
    if product = 0 then zero negative else ofRat product

/-- A quotient of two infinities or of two zeros has no value; a zero quotient has the sign of a
quotient. -/
def div (x y : Number) : Number :=
  let negative := x.isNegative != y.isNegative
  match x, y with
  | nan, _ => nan
  | _, nan => nan
  | infinity _, infinity _ => nan
  | infinity _, _ => infinity negative
  | _, infinity _ => zero negative
  | x, y =>
    if y.isZero then (if x.isZero then nan else infinity negative)
    else if x.isZero then zero negative
    else ofRat (x.value?.getD 0 / y.value?.getD 0)

instance : Add Number := ⟨add⟩
instance : Neg Number := ⟨neg⟩
instance : Sub Number := ⟨fun x y => add x (neg y)⟩
instance : Mul Number := ⟨mul⟩
instance : Div Number := ⟨div⟩

/-- How many natural numbers lie below a number.  No finite number reaches the limit of the format,
which is the count for an infinite one. -/
def countBelow : Number → Nat
  | infinity false => 1 <<< binary64.limit
  | x => (x.value?.getD 0).ceil.toNat

/-- `a` is within one part in a hundred thousand of `e`, give or take a hundred-millionth. -/
def isClose (a e : Number) : Bool :=
  (a - e).abs.le (ofRat (1 / 100000000) + ofRat (1 / 100000) * e.abs)

end Number

end BatchGraph
