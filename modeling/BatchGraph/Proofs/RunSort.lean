import BatchGraph.RunSort.Basic
import Mathlib.Data.List.InsertIdx
import Mathlib.Data.List.Sort

/-!
Sorting commutes with maps that keep the comparison.

Sorting looks at elements only by comparing them.  So if two comparisons agree along a map, sorting
the images is mapping the sorted list (`stableSort_map`), also where the comparison is not an order
and the result depends on which elements are compared.
-/

namespace BatchGraph

namespace RunSort

variable {α β : Type} {f : α → β}

/-! ## Counting -/

section Gallop

variable {passes : α → Bool} {passes' : β → Bool} (same : ∀ x, passes' (f x) = passes x)

include same

theorem any_map (x? : Option α) : (x?.map f).any passes' = x?.any passes := by
  cases x? with
  | none => rfl
  | some x => exact same x

theorem halve_map (middle : Middle) (xs : List α) (steps low high : Nat) :
    halve passes' middle (xs.map f) steps low high = halve passes middle xs steps low high := by
  induction steps generalizing low high with
  | zero => rfl
  | succ steps ih => simp only [halve, List.getElem?_map, any_map same, ih]

theorem leap_map (xs : List α) (steps last next : Nat) :
    leap passes' (xs.map f) steps last next = leap passes xs steps last next := by
  induction steps generalizing last next with
  | zero => rfl
  | succ steps ih =>
    simp only [leap, List.getElem?_map, any_map same, ih, List.length_map]

theorem gallop_map (middle : Middle) (xs : List α) :
    gallop passes' middle (xs.map f) = gallop passes middle xs := by
  simp only [gallop, List.head?_map, any_map same, leap_map same, halve_map same, List.length_map]

end Gallop

/-! ## Merging -/

section Runs

variable {before : α → α → Bool} {before' : β → β → Bool}
  (same : ∀ x y, before' (f x) (f y) = before x y)

namespace Merge

/-- The images of what is merged and of what is left. -/
def map (f : α → β) (m : Merge α) : Merge β where
  merged := m.merged.map f
  first := m.first.map f
  second := m.second.map f
  pace := m.pace
  patience := m.patience

theorem takeFirst_map (m : Merge α) (count : Nat) :
    (m.map f).takeFirst count = (m.takeFirst count).map f := by
  simp [takeFirst, map]

theorem takeSecond_map (m : Merge α) (count : Nat) :
    (m.map f).takeSecond count = (m.takeSecond count).map f := by
  simp [takeSecond, map]

theorem atPace_map (m : Merge α) (first second : Nat) :
    (m.map f).atPace first second = (m.atPace first second).map f := rfl

theorem isSettled_map (m : Merge α) (side : Side) :
    (m.map f).isSettled side = m.isSettled side := by
  cases side <;> simp only [isSettled, map, ← List.map_drop, List.isEmpty_map]

theorem result_map (m : Merge α) (side : Side) :
    (m.map f).result side = (m.result side).map f := by
  cases side <;> simp [result, map]

include same

theorem firstWins_map (side : Side) (x y : α) :
    firstWins before' side (f x) (f y) = firstWins before side x y := by
  cases side <;> simp [firstWins, same]

theorem compareOne_map (side : Side) (m : Merge α) (first second : Nat) :
    (m.map f).compareOne before' side first second =
      (m.compareOne before side first second).map f := by
  have left : (m.map f).first = m.first.map f := rfl
  have right : (m.map f).second = m.second.map f := rfl
  unfold compareOne
  rw [left, right, takeFirst_map, takeSecond_map, atPace_map, atPace_map]
  cases m.first with
  | nil => rfl
  | cons a _ =>
    cases m.second with
    | nil => rfl
    | cons b _ =>
      simp only [List.map_cons, firstWins_map same]
      split <;> rfl

theorem stretchFirst_map (side : Side) (m : Merge α) :
    ((m.map f).second.head?.elim 0 fun b =>
      gallop (firstWins before' side · b) side.middle (m.map f).first) =
        m.second.head?.elim 0 fun b => gallop (firstWins before side · b) side.middle m.first := by
  simp only [map, List.head?_map]
  cases m.second.head? with
  | none => rfl
  | some b => exact gallop_map (fun x => firstWins_map same side x b) _ _

theorem stretchSecond_map (side : Side) (m : Merge α) :
    ((m.map f).first.head?.elim 0 fun a =>
      gallop (!firstWins before' side a ·) side.middle (m.map f).second) =
        m.first.head?.elim 0 fun a => gallop (!firstWins before side a ·) side.middle m.second := by
  simp only [map, List.head?_map]
  cases m.first.head? with
  | none => rfl
  | some a => exact gallop_map (fun x => by rw [firstWins_map same]) _ _

theorem takeStretches_map (side : Side) (m : Merge α) :
    (m.map f).takeStretches before' side = (m.takeStretches before side).map f := by
  unfold takeStretches
  simp only [stretchFirst_map same, takeFirst_map, isSettled_map, takeSecond_map,
    stretchSecond_map same]
  split
  · rfl
  · split
    · rfl
    · split
      · rfl
      · split
        · rfl
        · split <;> rfl

theorem advance_map (side : Side) (m : Merge α) :
    (m.map f).advance before' side = (m.advance before side).map f := by
  have pace : (m.map f).pace = m.pace := rfl
  unfold advance
  rw [pace]
  cases m.pace with
  | single first second => exact compareOne_map same side m first second
  | stretch => exact takeStretches_map same side m

theorem run_map (side : Side) (steps : Nat) (m : Merge α) :
    (m.map f).run before' side steps = (m.run before side steps).map f := by
  induction steps generalizing m with
  | zero => rfl
  | succ steps ih =>
    rw [run, run, isSettled_map, advance_map same, ih]
    split <;> rfl

end Merge

include same

theorem mergeFrom_map (side : Side) (patience : Nat) (first second : List α) :
    mergeFrom before' side patience (first.map f) (second.map f) =
      Prod.map (List.map f) id (mergeFrom before side patience first second) := by
  have start : (⟨[], first.map f, second.map f, .single 0 0, patience⟩ : Merge β) =
      Merge.map f ⟨[], first, second, .single 0 0, patience⟩ := rfl
  unfold mergeFrom
  simp only [List.length_map, start]
  cases side <;>
    simp only [Merge.takeFirst_map, Merge.takeSecond_map, Merge.run_map same, Merge.result_map] <;>
    rfl

/-- How much of the first run stands in its place already. -/
theorem settled_map (first second : List α) :
    ((second.map f).head?.elim (first.map f).length fun b =>
      gallop (fun a => !before' b a) .upper (first.map f)) =
        second.head?.elim first.length fun b => gallop (fun a => !before b a) .upper first := by
  rw [List.head?_map, List.length_map]
  cases second.head? with
  | none => rfl
  | some b => exact gallop_map (fun x => by rw [same]) _ _

/-- How much of the second run does not. -/
theorem behind_map (first second : List α) :
    ((first.map f).getLast?.elim (second.map f).length fun a =>
      gallop (fun b => !before' b a) .lower (second.map f).reverse) =
        first.getLast?.elim second.length fun a =>
          gallop (fun b => !before b a) .lower second.reverse := by
  rw [List.getLast?_map, List.length_map, ← List.map_reverse]
  cases first.getLast? with
  | none => rfl
  | some a => exact gallop_map (fun x => by rw [same]) _ _

theorem mergeRuns_map (patience : Nat) (first second : List α) :
    mergeRuns before' patience (first.map f) (second.map f) =
      Prod.map (List.map f) id (mergeRuns before patience first second) := by
  unfold mergeRuns
  dsimp only
  rw [settled_map same, ← List.map_drop, behind_map same]
  simp only [← List.map_drop, ← List.map_take, List.length_map, List.isEmpty_map,
    ← List.map_reverse, mergeFrom_map same]
  split
  · simp
  · split <;> simp

/-! ## Runs -/

theorem continued_map (descending : Bool) (last : α) (xs : List α) :
    continued before' descending (f last) (xs.map f) = continued before descending last xs := by
  induction xs generalizing last with
  | nil => rfl
  | cons x xs ih => rw [List.map_cons, continued, continued, same, ih]

theorem leadingRun_map (xs : List α) :
    leadingRun before' (xs.map f) = Prod.map (List.map f) (List.map f) (leadingRun before xs) := by
  match xs with
  | [] => rfl
  | [x] => rfl
  | first :: second :: rest =>
    simp only [List.map_cons, leadingRun, same, continued_map same, Prod.map, List.map_drop]
    split <;> simp [List.map_take]

theorem insert_map (sorted : List α) (x : α) :
    insert before' (sorted.map f) (f x) = (insert before sorted x).map f := by
  unfold insert
  rw [halve_map fun y => by rw [same], List.length_map, List.map_insertIdx]

theorem sortShort_map (xs : List α) :
    sortShort before' (xs.map f) = (sortShort before xs).map f := by
  have inserted (rest run : List α) :
      (rest.map f).foldl (insert before') (run.map f) =
        (rest.foldl (insert before) run).map f := by
    induction rest generalizing run with
    | nil => rfl
    | cons x rest ih => rw [List.map_cons, List.foldl_cons, List.foldl_cons, insert_map same, ih]
  unfold sortShort
  rw [leadingRun_map same]
  exact inserted _ _

theorem segments_map (shortest : Nat) (xs : List α) :
    segments before' shortest (xs.map f) = (segments before shortest xs).map (List.map f) := by
  fun_induction segments before shortest xs with
  | case1 => simp [segments]
  | case2 x xs further ih =>
    rw [List.map_cons, segments, ← List.map_cons, leadingRun_map same]
    simp only [Prod.map, List.length_map, ← List.map_take, ← List.map_drop, List.map_cons]
    rw [ih]

/-! ## Pending runs -/

namespace Pending

/-- The images of the runs. -/
def map (f : α → β) (p : Pending α) : Pending β := ⟨p.runs.map (List.map f), p.patience⟩

omit same in
theorem isCrowded_map (runs : List (List α)) :
    isCrowded (runs.map (List.map f)) = isCrowded runs := by
  match runs with
  | [] | [_] | [_, _] => rfl
  | c :: b :: a :: rest =>
    cases rest <;> simp [isCrowded]

theorem mergeLast_map (p : Pending α) :
    (p.map f).mergeLast before' = (p.mergeLast before).map f := by
  obtain ⟨runs, patience⟩ := p
  match runs with
  | [] => rfl
  | [_] => rfl
  | c :: b :: rest => simp [mergeLast, map, mergeRuns_map same]

theorem mergeInner_map (p : Pending α) :
    (p.map f).mergeInner before' = (p.mergeInner before).map f := by
  obtain ⟨runs, patience⟩ := p
  match runs with
  | [] => rfl
  | [_] => rfl
  | [_, _] => rfl
  | c :: b :: a :: rest => simp [mergeInner, map, mergeRuns_map same]

theorem mergeMiddle_map (p : Pending α) :
    (p.map f).mergeMiddle before' = (p.mergeMiddle before).map f := by
  have last := mergeLast_map same p
  have inner := mergeInner_map same p
  obtain ⟨runs, patience⟩ := p
  match runs with
  | [] | [_] | [_, _] => exact last
  | c :: b :: a :: rest =>
    simp only [mergeMiddle, map, List.map_cons, List.length_map] at last inner ⊢
    rw [last, inner]
    split <;> rfl

theorem balance_map (steps : Nat) (p : Pending α) :
    (p.map f).balance before' steps = (p.balance before steps).map f := by
  induction steps generalizing p with
  | zero => rfl
  | succ steps ih =>
    have runs : (p.map f).runs = p.runs.map (List.map f) := rfl
    unfold balance
    rw [runs, isCrowded_map, mergeMiddle_map same, mergeLast_map same, ih, ih]
    split
    · rfl
    · rcases p.runs with _ | ⟨c, _ | ⟨b, rest⟩⟩
      · rfl
      · rfl
      · simp only [List.map_cons, List.length_map]
        split <;> rfl

theorem finish_map (steps : Nat) (p : Pending α) :
    (p.map f).finish before' steps = (p.finish before steps).map f := by
  induction steps generalizing p with
  | zero => rfl
  | succ steps ih =>
    have runs : (p.map f).runs = p.runs.map (List.map f) := rfl
    unfold finish
    rw [runs, mergeMiddle_map same, ih]
    rcases p.runs with _ | ⟨c, _ | ⟨b, rest⟩⟩ <;> rfl

theorem push_map (p : Pending α) (segment : List α) :
    (p.map f).push before' (segment.map f) = (p.push before segment).map f := by
  rw [push, push, ← balance_map same, sortShort_map same]
  simp [map]

end Pending

/-! ## Sorting -/

theorem sort_map (xs : List α) : sort before' (xs.map f) = (sort before xs).map f := by
  have pushed (segments : List (List α)) (p : Pending α) :
      (segments.map (List.map f)).foldl (Pending.push before') (p.map f) =
        (segments.foldl (Pending.push before) p).map f := by
    induction segments generalizing p with
    | nil => rfl
    | cons segment segments ih =>
      rw [List.map_cons, List.foldl_cons, List.foldl_cons, Pending.push_map same, ih]
  unfold sort
  rw [segments_map same, List.length_map]
  dsimp only
  have start : (⟨[], longStretch⟩ : Pending β) = Pending.map f ⟨[], longStretch⟩ := rfl
  rw [start, pushed, Pending.finish_map same]
  simp [Pending.map, ← List.map_reverse, List.map_flatten]

/-- Sorting the images of a list is mapping the sorted list. -/
theorem stableSort_map {compares : α → Bool} {compares' : β → Bool}
    (alike : ∀ x, compares' (f x) = compares x) (xs : List α) :
    stableSort before' compares' (xs.map f) = (stableSort before compares xs).map f := by
  unfold stableSort
  rw [sort_map same, List.all_map]
  simp only [Function.comp_def, alike]
  split
  · exact (List.map_mergeSort fun x _ y _ => by rw [same]).symm
  · rfl

end Runs

end RunSort

end BatchGraph
