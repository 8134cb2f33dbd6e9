import BatchGraph.Number.Rounding

/-!
Decimal text of numbers.

`Number.ofDecimal` reads `m * 10 ^ e` as the nearest number.  `shortestDigits` goes the other way:
the fewest decimal digits that read back to the same number, and of those the nearest.
`DecimalStyle` fixes how the digits are laid out; `Number.text` uses the style `plain` and shows no
sign on zero.
-/

namespace BatchGraph

/-- The number nearest to `mantissa * 10 ^ exponent`. -/
def Number.ofDecimal (mantissa exponent : Int) : Number :=
  Number.ofRat ((mantissa : Rat) * (10 : Rat) ^ exponent)

/-! ## Fewest digits -/

/-- The position `p` of the decimal point with `10 ^ (p - 1) ≤ q < 10 ^ p`, for a positive `q`. -/
def pointPosition (q : Rat) : Int :=
  if 1 ≤ q then ((Nat.toDigits 10 q.floor.toNat).length : Int)
  else 1 - ((Nat.toDigits 10 (q⁻¹.ceil.toNat - 1)).length : Int)

/-- The multiples of `10 ^ g` next to `q`, as multipliers: one if `q` is on the grid, else two. -/
def gridNeighbours (q : Rat) (g : Int) : List Nat :=
  let scaled := q * (10 : Rat) ^ (-g)
  let low := scaled.floor.toNat
  if scaled = (low : Rat) then [low] else [low, low + 1]

/-- The neighbour of `q` on the grid `10 ^ g` that reads back as `q`: of two the nearer, and the
even one of two equally near. -/
def readBack? (q : Rat) (g : Int) : Option Nat :=
  match (gridNeighbours q g).filter fun (m : Nat) => Number.ofDecimal m g = .finite q with
  | [] => none
  | [m] => some m
  | low :: high :: _ =>
    let twice := 2 * (q * (10 : Rat) ^ (-g))
    let middle : Rat := (low : Rat) + high
    if twice < middle then some low
    else if middle < twice then some high
    else some (if low % 2 = 0 then low else high)

/-- Digits of a positive number without trailing zeros, and the position of the decimal point
relative to the first digit.  Seventeen digits always read back. -/
def shortestDigits (q : Rat) : List Char × Int :=
  let p := pointPosition q
  let found := (List.range 17).findSome? fun (n : Nat) =>
    (readBack? q (p - 1 - n)).map fun m => (m, p - 1 - (n : Int))
  let (m, g) := found.getD ((gridNeighbours q (p - 17)).headD 0, p - 17)
  let digits := Nat.toDigits 10 m
  ((digits.reverse.dropWhile (· = '0')).reverse, (digits.length : Int) + g)

/-! ## Layout of the digits -/

/-- Point positions above `least` and up to `greatest` are written without an exponent. -/
structure DecimalStyle where
  least : Int
  greatest : Int

def plain : DecimalStyle := ⟨-6, 21⟩

def zeros (n : Int) : List Char := List.replicate n.toNat '0'

def DecimalStyle.write (style : DecimalStyle) (digits : List Char) (point : Int) : String :=
  let count := (digits.length : Int)
  if style.least < point ∧ point ≤ style.greatest then
    if point ≤ 0 then String.ofList ('0' :: '.' :: zeros (-point) ++ digits)
    else if count ≤ point then String.ofList (digits ++ zeros (point - count))
    else String.ofList (digits.take point.toNat ++ '.' :: digits.drop point.toNat)
  else
    let exponent := point - 1
    let sign := if exponent < 0 then "-" else "+"
    let fraction := if digits.length ≤ 1 then [] else '.' :: digits.drop 1
    String.ofList (digits.take 1 ++ fraction) ++ "e" ++ sign ++ toString exponent.natAbs

namespace Number

/-- The text of a number: shortest digits, no sign on zero. -/
def text : Number → String
  | nan => "NaN"
  | infinity negative => if negative then "-Infinity" else "Infinity"
  | negativeZero => "0"
  | finite q =>
    if q = 0 then "0"
    else
      let (digits, point) := shortestDigits (if q < 0 then -q else q)
      let magnitude := plain.write digits point
      if q < 0 then "-" ++ magnitude else magnitude

end Number

end BatchGraph
