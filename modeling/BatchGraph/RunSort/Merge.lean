import BatchGraph.RunSort.Gallop

/-!
Merging two neighbouring runs.

`mergeRuns` leaves alone what already stands in its place at the outer ends of the two runs, and
merges the rest from the end that has the shorter remainder.  While neither run wins often, elements
are compared one by one; when one of them has won `patience` times in a row, whole stretches are
counted with `gallop`.  Patience falls while that pays off, rises when it stops to do so, and is
handed on from one merge to the next.

One element of the shorter remainder is known to go last, so a merge is settled when the other run
is used up or only this element is left.  `mergeRuns_perm` says that the result has the elements of
both runs, for every comparison.
-/

namespace BatchGraph

namespace RunSort

variable {α : Type}

/-! ## The state of a merge -/

/-- The end at which a merge starts.  From the back, both runs and the result are reversed. -/
inductive Side where
  | front
  | back
  deriving DecidableEq

/-- How a merge goes on: element by element, with the number of elements that each run has won in a
row, or by stretches. -/
inductive Pace where
  | single (first second : Nat)
  | stretch

/-- What is merged and what is left of the two runs. -/
structure Merge (α : Type) where
  merged : List α
  first : List α
  second : List α
  pace : Pace
  patience : Nat

namespace Merge

def takeFirst (m : Merge α) (count : Nat) : Merge α :=
  { m with merged := m.merged ++ m.first.take count, first := m.first.drop count }

def takeSecond (m : Merge α) (count : Nat) : Merge α :=
  { m with merged := m.merged ++ m.second.take count, second := m.second.drop count }

/-- Nothing is left to compare. -/
def isSettled (m : Merge α) : Side → Bool
  | .front => m.second.isEmpty || (m.first.drop 1).isEmpty
  | .back => m.first.isEmpty || (m.second.drop 1).isEmpty

/-- The merged elements when nothing is left to compare. -/
def result (m : Merge α) : Side → List α
  | .front => m.merged ++ (m.second ++ m.first)
  | .back => m.merged ++ (m.first ++ m.second)

end Merge

/-! ## Steps -/

/-- A run that wins so many elements at once is worth going on by stretches. -/
def longStretch : Nat := 7

variable (before : α → α → Bool)

/-- An element of the first run leaves before one of the second.  Of elements that are not told
apart, the one of the first run is to stand in front. -/
def firstWins : Side → α → α → Bool
  | .front, a, b => !before b a
  | .back, a, b => before b a

/-- The middle place that is tested, which from the back is the other one. -/
def Side.middle : Side → Middle
  | .front => .upper
  | .back => .lower

namespace Merge

/-- The wins of the two runs in a row decide the pace. -/
def atPace (m : Merge α) (first second : Nat) : Merge α :=
  { m with pace := if m.patience ≤ max first second then .stretch else .single first second }

/-- Compares one element of each run, given how many elements each has won in a row. -/
def compareOne (side : Side) (m : Merge α) (first second : Nat) : Merge α :=
  match m.first, m.second with
  | a :: _, b :: _ =>
    if firstWins before side a b then (m.takeFirst 1).atPace (first + 1) 0
    else (m.takeSecond 1).atPace 0 (second + 1)
  | _, _ => m

/-- Takes a stretch of the first run and the element that ends it, then the same of the second. -/
def takeStretches (side : Side) (m : Merge α) : Merge α :=
  let first := m.second.head?.elim 0 fun b =>
    gallop (firstWins before side · b) side.middle m.first
  let m := m.takeFirst first
  if m.isSettled side then m
  else
    let m := m.takeSecond 1
    if m.isSettled side then m
    else
      let second := m.first.head?.elim 0 fun a =>
        gallop (!firstWins before side a ·) side.middle m.second
      let m := m.takeSecond second
      if m.isSettled side then m
      else
        let m := m.takeFirst 1
        if m.isSettled side then m
        else if longStretch ≤ max first second then { m with patience := max 1 (m.patience - 1) }
        else { m with pace := .single 0 0, patience := m.patience + 1 }

def advance (side : Side) (m : Merge α) : Merge α :=
  match m.pace with
  | .single first second => m.compareOne before side first second
  | .stretch => m.takeStretches before side

/-- Up to `steps` steps; each takes at least one element. -/
def run (side : Side) : (steps : Nat) → Merge α → Merge α
  | 0, m => m
  | steps + 1, m => if m.isSettled side then m else run side steps (m.advance before side)

end Merge

/-- Merges two runs that begin with an element of the second one, or end with one of the first. -/
def mergeFrom (side : Side) (patience : Nat) (first second : List α) : List α × Nat :=
  let start : Merge α := ⟨[], first, second, .single 0 0, patience⟩
  let start := match side with
    | .front => start.takeSecond 1
    | .back => start.takeFirst 1
  let m := start.run before side (first.length + second.length)
  (m.result side, m.patience)

/-- Merges two neighbouring runs, and says how much patience is left. -/
def mergeRuns (patience : Nat) (first second : List α) : List α × Nat :=
  let settled := second.head?.elim first.length fun b =>
    gallop (fun a => !before b a) .upper first
  let front := first.take settled
  let first := first.drop settled
  let behind := second.length - first.getLast?.elim second.length fun a =>
    gallop (fun b => !before b a) .lower second.reverse
  let back := second.drop behind
  let second := second.take behind
  if first.isEmpty || second.isEmpty then (front ++ (first ++ second) ++ back, patience)
  else if first.length ≤ second.length then
    let (merged, patience) := mergeFrom before .front patience first second
    (front ++ merged ++ back, patience)
  else
    let (merged, patience) := mergeFrom before .back patience first.reverse second.reverse
    (front ++ merged.reverse ++ back, patience)

/-! ## The same elements -/

namespace Merge

/-- All elements of a merge. -/
def elements (m : Merge α) : List α := m.merged ++ (m.first ++ m.second)

theorem takeFirst_perm (m : Merge α) (count : Nat) :
    (m.takeFirst count).elements.Perm m.elements := by
  have split : m.first.take count ++ (m.first.drop count ++ m.second) = m.first ++ m.second := by
    rw [← List.append_assoc, List.take_append_drop]
  simp only [elements, takeFirst, List.append_assoc, split]
  exact List.Perm.refl _

theorem takeSecond_perm (m : Merge α) (count : Nat) :
    (m.takeSecond count).elements.Perm m.elements := by
  simp only [elements, takeSecond, List.append_assoc]
  refine List.Perm.append_left _ ((List.perm_append_comm_assoc _ _ _).trans ?_)
  rw [List.take_append_drop]

theorem result_perm (m : Merge α) (side : Side) : (m.result side).Perm m.elements := by
  cases side with
  | front => exact List.perm_append_comm.append_left _
  | back => exact List.Perm.refl _

@[simp] theorem elements_atPace (m : Merge α) (first second : Nat) :
    (m.atPace first second).elements = m.elements := rfl

theorem compareOne_perm (side : Side) (m : Merge α) (first second : Nat) :
    (m.compareOne before side first second).elements.Perm m.elements := by
  unfold compareOne
  split
  · split
    · simpa using m.takeFirst_perm 1
    · simpa using m.takeSecond_perm 1
  · exact List.Perm.refl _

theorem takeStretches_perm (side : Side) (m : Merge α) :
    (m.takeStretches before side).elements.Perm m.elements := by
  have one := fun (n : Merge α) (count : Nat) => n.takeFirst_perm count
  have two := fun (n : Merge α) (count : Nat) => n.takeSecond_perm count
  unfold takeStretches
  dsimp only
  split
  · exact one _ _
  · split
    · exact (two _ _).trans (one _ _)
    · split
      · exact (two _ _).trans ((two _ _).trans (one _ _))
      · split
        · exact (one _ _).trans ((two _ _).trans ((two _ _).trans (one _ _)))
        · split <;> exact (one _ _).trans ((two _ _).trans ((two _ _).trans (one _ _)))

theorem run_perm (side : Side) (steps : Nat) (m : Merge α) :
    (m.run before side steps).elements.Perm m.elements := by
  induction steps generalizing m with
  | zero => exact List.Perm.refl _
  | succ steps ih =>
    unfold run
    split
    · exact List.Perm.refl _
    · refine (ih _).trans ?_
      unfold advance
      split
      · exact m.compareOne_perm before side _ _
      · exact m.takeStretches_perm before side

end Merge

theorem mergeFrom_perm (side : Side) (patience : Nat) (first second : List α) :
    (mergeFrom before side patience first second).1.Perm (first ++ second) := by
  unfold mergeFrom
  refine (Merge.result_perm _ side).trans ((Merge.run_perm before side _ _).trans ?_)
  cases side with
  | front => exact Merge.takeSecond_perm _ 1
  | back => exact Merge.takeFirst_perm _ 1

theorem mergeRuns_perm (patience : Nat) (first second : List α) :
    (mergeRuns before patience first second).1.Perm (first ++ second) := by
  unfold mergeRuns
  dsimp only
  generalize second.head?.elim first.length _ = settled
  generalize second.length - _ = behind
  have parts : first.take settled ++ (first.drop settled ++ second.take behind) ++
      second.drop behind = first ++ second := by
    rw [← List.append_assoc, List.take_append_drop, List.append_assoc, List.take_append_drop]
  split
  · exact List.Perm.of_eq parts
  · split
    · exact (((mergeFrom_perm before _ _ _ _).append_left _).append_right _).trans
        (List.Perm.of_eq parts)
    · refine ((List.Perm.append_left _ ?_).append_right _).trans (List.Perm.of_eq parts)
      exact (List.reverse_perm _).trans ((mergeFrom_perm before _ _ _ _).trans
        ((List.reverse_perm _).append (List.reverse_perm _)))

end RunSort

end BatchGraph
