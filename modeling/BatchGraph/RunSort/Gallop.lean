/-!
Counting the elements at the front of a list that pass a test, with few tests.

`gallop` tests elements at growing distances until one fails, and then halves the stretch that is
left.  If the elements that pass all stand in front of those that fail, the result is their number.
If not, the result depends on which elements are tested, so the places are part of the definition:
an even stretch has two middle places, and `Middle` says which of them is tested.
-/

namespace BatchGraph

namespace RunSort

/-- The one of two middle places that is tested. -/
inductive Middle where
  | lower
  | upper
  deriving DecidableEq

/-- The distance of the middle from the first of `count` places. -/
def Middle.distance (count : Nat) : Middle → Nat
  | lower => (count - 1) / 2
  | upper => count / 2

variable {α : Type} (passes : α → Bool)

/-- The first place from `low` on, and not behind `high`, whose element fails, found in up to
`steps` halvings. -/
def halve (middle : Middle) (xs : List α) : (steps low high : Nat) → Nat
  | 0, low, _ => low
  | steps + 1, low, high =>
    if low < high then
      let i := low + middle.distance (high - low)
      if xs[i]?.any passes then halve middle xs steps (i + 1) high else halve middle xs steps low i
    else low

/-- The last tested place whose element passes and a place at which to stop, found in up to `steps`
leaps of about double length. -/
def leap (xs : List α) : (steps last next : Nat) → Nat × Nat
  | 0, last, next => (last, next)
  | steps + 1, last, next =>
    if xs[next]?.any passes then leap xs steps next (2 * next + 1) else (last, min next xs.length)

/-- How many elements at the front pass. -/
def gallop (middle : Middle) (xs : List α) : Nat :=
  if xs.head?.any passes then
    let (last, next) := leap passes xs xs.length 0 1
    halve passes middle xs xs.length (last + 1) next
  else 0

theorem halve_le {middle : Middle} {xs : List α} {steps low high : Nat} (h : low ≤ high) :
    halve passes middle xs steps low high ≤ high := by
  induction steps generalizing low high with
  | zero => exact h
  | succ steps ih =>
    unfold halve
    by_cases hlt : low < high
    · have inside : middle.distance (high - low) < high - low := by
        cases middle <;> simp only [Middle.distance] <;> omega
      simp only [hlt, if_true]
      split
      · exact ih (by omega)
      · exact Nat.le_trans (ih (by omega)) (by omega)
    · simp [hlt, h]

end RunSort

end BatchGraph
