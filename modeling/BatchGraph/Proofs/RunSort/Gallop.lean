import BatchGraph.RunSort.Gallop

/-!
Counting by galloping ends at a border.

Both the leaps and the halving keep an element that passes in front of the place they search and one
that fails at or behind it; so a count ends between two such elements, whether or not all elements
that pass stand in front (`gallop_border`).
-/

namespace BatchGraph

namespace RunSort

variable {α : Type} {passes : α → Bool} {xs : List α}

/-- The element in front of a place passes and the one at the place does not; either may be
missing. -/
structure Border (passes : α → Bool) (xs : List α) (place : Nat) : Prop where
  front : place = 0 ∨ xs[place - 1]?.any passes = true
  behind : xs[place]?.any passes = false

theorem halve_border {middle : Middle} {steps low high : Nat} (enough : high ≤ low + steps)
    (le : low ≤ high) (front : low = 0 ∨ xs[low - 1]?.any passes = true)
    (behind : xs[high]?.any passes = false) :
    Border passes xs (halve passes middle xs steps low high) := by
  induction steps generalizing low high with
  | zero =>
    cases Nat.le_antisymm le enough
    exact ⟨front, behind⟩
  | succ steps ih =>
    unfold halve
    by_cases less : low < high
    case pos =>
      have inside : middle.distance (high - low) < high - low := by
        cases middle <;> simp only [Middle.distance] <;> omega
      simp only [less, if_true]
      split
      case isTrue passed => exact ih (by omega) (by omega) (.inr passed) behind
      case isFalse failed => exact ih (by omega) (by omega) front (by simpa using failed)
    case neg =>
      cases Nat.le_antisymm le (Nat.not_lt.1 less)
      simp only [less, if_false]
      exact ⟨front, behind⟩

theorem lt_length_of_passes {i : Nat} (passed : xs[i]?.any passes = true) : i < xs.length := by
  cases found : xs[i]? with
  | none =>
    rw [found] at passed
    cases passed
  | some x => exact (List.getElem?_eq_some_iff.1 found).1

/-- A leap stops behind an element that passes, at one that does not. -/
theorem leap_border {steps last next : Nat} (enough : xs.length ≤ next + steps)
    (double : next = 2 * last + 1) (passed : xs[last]?.any passes = true) :
    let stop := leap passes xs steps last next
    xs[stop.1]?.any passes = true ∧ xs[stop.2]?.any passes = false ∧
      stop.1 + 1 ≤ stop.2 ∧ stop.2 ≤ 2 * stop.1 + 1 := by
  induction steps generalizing last next with
  | zero =>
    have missing : xs[next]? = none := List.getElem?_eq_none enough
    exact ⟨passed, by rw [leap, missing]; rfl, by simp only [leap]; omega,
      by simp only [leap]; omega⟩
  | succ steps ih =>
    unfold leap
    split
    case isTrue passed' => exact ih (by omega) rfl passed'
    case isFalse failed =>
      have bound := lt_length_of_passes passed
      refine ⟨passed, ?_, by dsimp only; omega, by dsimp only; omega⟩
      dsimp only
      rcases Nat.lt_or_ge next xs.length with within | outside
      · rw [Nat.min_eq_left (Nat.le_of_lt within)]
        simpa using failed
      · rw [Nat.min_eq_right outside, List.getElem?_eq_none (Nat.le_refl _)]
        rfl

theorem gallop_border (passes : α → Bool) (middle : Middle) (xs : List α) :
    Border passes xs (gallop passes middle xs) := by
  unfold gallop
  split
  case isTrue passed =>
    rw [List.head?_eq_getElem?] at passed
    have enough : xs.length ≤ 1 + xs.length := Nat.le_add_left _ _
    have double : 1 = 2 * 0 + 1 := rfl
    obtain ⟨passed', failed, le, bound⟩ := leap_border enough double passed
    have within := lt_length_of_passes passed'
    exact halve_border (by omega) le (.inr (by rwa [Nat.add_sub_cancel])) failed
  case isFalse failed =>
    rw [List.head?_eq_getElem?] at failed
    exact ⟨.inl rfl, by simpa using failed⟩

/-- The last of the elements that are counted passes. -/
theorem Border.getLast?_take {place : Nat} (border : Border passes xs place) {x : α}
    (isLast : (xs.take place).getLast? = some x) : passes x = true := by
  rw [List.getLast?_take] at isLast
  split at isLast
  case isTrue => cases isLast
  case isFalse some_ =>
    have passed := border.front.resolve_left some_
    cases found : xs[place - 1]? with
    | none =>
      rw [found] at passed
      cases passed
    | some y =>
      rw [found] at passed isLast
      cases isLast
      exact passed

/-- The first of the other elements fails. -/
theorem Border.head?_drop {place : Nat} (border : Border passes xs place) {x : α}
    (isFirst : (xs.drop place).head? = some x) : passes x = false := by
  rw [List.head?_drop] at isFirst
  have failed := border.behind
  rw [isFirst] at failed
  exact failed

end RunSort

end BatchGraph
