import BatchGraph.RunSort.Merge

/-!
Sorting by a comparison that need not be an order.

Numbers without a value compare with nothing, so "neither before the other" is not transitive, and
the result of a sort depends on which elements it compares.  `RunSort.sort` says which: the list is
cut into runs, each at least as long as a part of the list that halving leaves with 32 to 64
elements; short runs are filled up by binary insertion; and neighbouring runs are merged as soon as
their lengths get out of balance.

`stableSort` is what the library sorts with.  If all elements compare, the result is the one order
in which elements that are not told apart stay as they are, so `List.mergeSort` finds it.
-/

namespace BatchGraph

namespace RunSort

variable {α : Type} (before : α → α → Bool)

/-! ## Runs -/

/-- How many elements continue a run that ends with `last` and descends as given. -/
def continued (descending : Bool) (last : α) : List α → Nat
  | [] => 0
  | x :: rest => if before x last = descending then continued descending x rest + 1 else 0

/-- The leading run in ascending order, and what follows it.  A run descends only if every element
is before the last one. -/
def leadingRun : List α → List α × List α
  | first :: second :: rest =>
    let descending := before second first
    let count := continued before descending second rest
    let run := first :: second :: rest.take count
    (if descending then run.reverse else run, rest.drop count)
  | short => (short, [])

/-- Inserts behind the elements of a sorted list that it is not before. -/
def insert (sorted : List α) (x : α) : List α :=
  let place := halve (fun y => !before x y) .upper sorted sorted.length 0 sorted.length
  sorted.insertIdx place x

/-- Sorts by inserting the elements behind the leading run. -/
def sortShort (xs : List α) : List α :=
  let (run, rest) := leadingRun before xs
  rest.foldl (insert before) run

/-- The length to which shorter runs of a list of `count` elements are filled up. -/
def shortestRun (count : Nat) : Nat :=
  let parts := 1 <<< (count.log2 - 5)
  (count + parts - 1) / parts

/-- Cuts a list in front of its runs, where shorter runs than `shortest` are filled up. -/
def segments (shortest : Nat) : List α → List (List α)
  | [] => []
  | x :: xs =>
    let further := max (leadingRun before (x :: xs)).1.length shortest - 1
    (x :: xs.take further) :: segments shortest (xs.drop further)
termination_by xs => xs.length
decreasing_by simp only [List.length_drop, List.length_cons]; omega

/-- The comparisons that look at an element for the first time, in their order: of an element with
the one in front of it.  At the end of a segment that was filled up none is needed, except for a
single last element. -/
def firstComparisons (shortest : Nat) : List α → List (α × α)
  | [] => []
  | x :: xs =>
    let run := (leadingRun before (x :: xs)).1.length
    let further := max run shortest - 1
    let rest := xs.drop further
    let looksOn := shortest ≤ run || rest.length = 1
    let compared := if looksOn then further + 1 else further
    (xs.take compared).zip (x :: xs) ++ firstComparisons shortest rest
termination_by xs => xs.length
decreasing_by simp only [List.length_drop, List.length_cons]; omega

/-! ## Pending runs -/

/-- Sorted runs that wait for being merged, the last one of the list in front. -/
structure Pending (α : Type) where
  runs : List (List α)
  patience : Nat

namespace Pending

/-- Merges the last two runs. -/
def mergeLast (p : Pending α) : Pending α :=
  match p.runs with
  | c :: b :: rest =>
    let (merged, patience) := mergeRuns before p.patience b c
    ⟨merged :: rest, patience⟩
  | _ => p

/-- Merges the two runs in front of the last one. -/
def mergeInner (p : Pending α) : Pending α :=
  match p.runs with
  | c :: b :: a :: rest =>
    let (merged, patience) := mergeRuns before p.patience a b
    ⟨c :: merged :: rest, patience⟩
  | _ => p

/-- Of three runs, the middle one is merged with the shorter of its neighbours. -/
def mergeMiddle (p : Pending α) : Pending α :=
  match p.runs with
  | c :: _ :: a :: _ => if a.length < c.length then p.mergeInner before else p.mergeLast before
  | _ => p.mergeLast before

/-- A run is not longer than the two behind it together, at the last place or the one in front. -/
def isCrowded (runs : List (List α)) : Bool :=
  match runs with
  | c :: b :: a :: rest =>
    a.length ≤ b.length + c.length || rest.head?.any (·.length ≤ a.length + b.length)
  | _ => false

/-- Merges until lengths are in balance again, in up to `steps` merges. -/
def balance : (steps : Nat) → Pending α → Pending α
  | 0, p => p
  | steps + 1, p =>
    if isCrowded p.runs then balance steps (p.mergeMiddle before)
    else
      match p.runs with
      | c :: b :: _ => if b.length ≤ c.length then balance steps (p.mergeLast before) else p
      | _ => p

/-- Merges all runs, in up to `steps` merges. -/
def finish : (steps : Nat) → Pending α → Pending α
  | 0, p => p
  | steps + 1, p =>
    match p.runs with
    | _ :: _ :: _ => finish steps (p.mergeMiddle before)
    | _ => p

/-- Adds the run that a segment holds. -/
def push (p : Pending α) (segment : List α) : Pending α :=
  balance before (p.runs.length + 1) ⟨sortShort before segment :: p.runs, p.patience⟩

end Pending

/-! ## Sorting -/

def sort (xs : List α) : List α :=
  let pending := (segments before (shortestRun xs.length) xs).foldl (Pending.push before)
    ⟨[], longStretch⟩
  (pending.finish before pending.runs.length).runs.reverse.flatten

/-- Sorts so that elements which are not told apart keep their order.  Elements that do not compare
are left where the comparisons of `sort` put them. -/
def stableSort (compares : α → Bool) (xs : List α) : List α :=
  if xs.all compares then xs.mergeSort fun x y => !before y x else sort before xs

/-! ## The same elements -/

theorem insert_perm (sorted : List α) (x : α) : (insert before sorted x).Perm (x :: sorted) :=
  List.perm_insertIdx x sorted (halve_le _ (Nat.zero_le _))

theorem foldl_insert_perm (run rest : List α) :
    (rest.foldl (insert before) run).Perm (run ++ rest) := by
  induction rest generalizing run with
  | nil => simp
  | cons x rest ih =>
    exact (ih (insert before run x)).trans
      (((insert_perm before run x).append_right rest).trans List.perm_middle.symm)

theorem leadingRun_perm (xs : List α) :
    ((leadingRun before xs).1 ++ (leadingRun before xs).2).Perm xs := by
  match xs with
  | [] => simp [leadingRun]
  | [x] => simp [leadingRun]
  | first :: second :: rest =>
    simp only [leadingRun]
    split
    · refine ((List.reverse_perm _).append_right _).trans ?_
      simp
    · simp

theorem sortShort_perm (xs : List α) : (sortShort before xs).Perm xs :=
  (foldl_insert_perm before _ _).trans (leadingRun_perm before xs)

theorem flatten_segments (shortest : Nat) (xs : List α) :
    (segments before shortest xs).flatten = xs := by
  fun_induction segments before shortest xs with
  | case1 => rfl
  | case2 x xs further ih => simp [ih]

namespace Pending

/-- All elements in the order of the list. -/
def elements (p : Pending α) : List α := p.runs.reverse.flatten

theorem mergeLast_perm (p : Pending α) : (p.mergeLast before).elements.Perm p.elements := by
  obtain ⟨runs, patience⟩ := p
  match runs with
  | [] | [_] => exact List.Perm.refl _
  | c :: b :: rest =>
    simpa [mergeLast, elements] using
      (mergeRuns_perm before patience b c).append_left rest.reverse.flatten

theorem mergeInner_perm (p : Pending α) : (p.mergeInner before).elements.Perm p.elements := by
  obtain ⟨runs, patience⟩ := p
  match runs with
  | [] | [_] | [_, _] => exact List.Perm.refl _
  | c :: b :: a :: rest =>
    simpa [mergeInner, elements] using
      ((mergeRuns_perm before patience a b).append_right c).append_left rest.reverse.flatten

theorem mergeMiddle_perm (p : Pending α) : (p.mergeMiddle before).elements.Perm p.elements := by
  unfold mergeMiddle
  split
  · split
    · exact p.mergeInner_perm before
    · exact p.mergeLast_perm before
  · exact p.mergeLast_perm before

theorem balance_perm (steps : Nat) (p : Pending α) :
    (p.balance before steps).elements.Perm p.elements := by
  induction steps generalizing p with
  | zero => exact List.Perm.refl _
  | succ steps ih =>
    unfold balance
    split
    · exact (ih _).trans (p.mergeMiddle_perm before)
    · split
      · split
        · exact (ih _).trans (p.mergeLast_perm before)
        · exact List.Perm.refl _
      · exact List.Perm.refl _

theorem finish_perm (steps : Nat) (p : Pending α) :
    (p.finish before steps).elements.Perm p.elements := by
  induction steps generalizing p with
  | zero => exact List.Perm.refl _
  | succ steps ih =>
    unfold finish
    split
    · exact (ih _).trans (p.mergeMiddle_perm before)
    · exact List.Perm.refl _

theorem push_perm (p : Pending α) (segment : List α) :
    (p.push before segment).elements.Perm (p.elements ++ segment) := by
  refine (balance_perm before _ _).trans ?_
  simpa [elements] using (sortShort_perm before segment).append_left p.runs.reverse.flatten

theorem foldl_push_perm (segments : List (List α)) (p : Pending α) :
    (segments.foldl (push before) p).elements.Perm (p.elements ++ segments.flatten) := by
  induction segments generalizing p with
  | nil => simp
  | cons segment rest ih =>
    simpa using (ih _).trans ((p.push_perm before segment).append_right rest.flatten)

end Pending

theorem sort_perm (xs : List α) : (sort before xs).Perm xs := by
  refine (Pending.finish_perm before _ _).trans ((Pending.foldl_push_perm before _ _).trans ?_)
  simp [Pending.elements, flatten_segments]

theorem stableSort_perm (compares : α → Bool) (xs : List α) :
    (stableSort before compares xs).Perm xs := by
  unfold stableSort
  split
  · exact List.mergeSort_perm xs _
  · exact sort_perm before xs

end RunSort

end BatchGraph
