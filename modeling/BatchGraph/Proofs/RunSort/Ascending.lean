import BatchGraph.RunSort.Basic
import BatchGraph.Proofs.RunSort.Merge

/-!
Sorting by a comparison that need not be an order leaves no descent.

Runs ascend from the start (`leadingRun_ascending`, `sortShort_ascending`), and merging keeps this;
so no element of the result is before the one in front of it (`sort_ascending`).  Such a list is a
single run, and sorting it changes nothing (`sort_eq_self`); hence sorting twice is sorting once
(`stableSort_stableSort`).
-/

namespace BatchGraph

namespace RunSort

variable {α : Type} {before : α → α → Bool}
  (asymmetric : ∀ x y, before x y = true → before y x = false)

include asymmetric

/-! ## Runs -/

omit asymmetric in
/-- What continues a run goes on in its direction. -/
theorem isChain_continued (before : α → α → Bool) (descending : Bool) (last : α) (xs : List α) :
    (last :: xs.take (continued before descending last xs)).IsChain
      fun x y => before y x = descending := by
  induction xs generalizing last with
  | nil => exact .singleton _
  | cons x xs ih =>
    unfold continued
    split
    case isTrue goesOn => exact .cons_cons goesOn (ih x)
    case isFalse => exact .singleton _

theorem leadingRun_ascending (xs : List α) : Ascending before (leadingRun before xs).1 := by
  match xs with
  | [] => exact .nil
  | [x] => exact .singleton x
  | first :: second :: rest =>
    have run : (first :: second :: rest.take (continued before (before second first) second rest)).IsChain
        fun x y => before y x = before second first :=
      .cons_cons rfl (isChain_continued before _ second rest)
    unfold leadingRun
    dsimp only
    split
    case isTrue descends =>
      refine List.isChain_reverse.2 (run.imp fun x y same => ?_)
      exact asymmetric y x (same.trans descends)
    case isFalse ascends => exact run.imp fun x y same => same.trans (Bool.eq_false_iff.2 ascends)

omit asymmetric in
theorem insertIdx_eq_append {xs : List α} {place : Nat} (inside : place ≤ xs.length) (x : α) :
    xs.insertIdx place x = xs.take place ++ x :: xs.drop place := by
  induction place generalizing xs with
  | zero => simp
  | succ place ih =>
    cases xs with
    | nil => simp at inside
    | cons y ys =>
      rw [List.insertIdx_succ_cons, ih (Nat.le_of_succ_le_succ inside), List.take_succ_cons,
        List.drop_succ_cons, List.cons_append]

theorem insert_ascending {sorted : List α} (ascends : Ascending before sorted) (x : α) :
    Ascending before (insert before sorted x) := by
  have border : Border (fun y => !before x y) sorted (halve (fun y => !before x y) .upper sorted
      sorted.length 0 sorted.length) := by
    refine halve_border (by omega) (Nat.zero_le _) (.inl rfl) ?_
    rw [List.getElem?_eq_none (Nat.le_refl _)]
    rfl
  have inside : halve (fun y => !before x y) .upper sorted sorted.length 0 sorted.length ≤
      sorted.length := halve_le _ (Nat.zero_le _)
  unfold insert
  dsimp only
  generalize halve _ _ _ _ _ _ = place at border inside ⊢
  rw [insertIdx_eq_append inside]
  rw [← List.take_append_drop place sorted] at ascends
  refine List.isChain_append.2 ⟨ascends.left_of_append, ?_, fun a isLast x' same => ?_⟩
  · refine List.isChain_cons.2 ⟨fun b isFirst => ?_, ascends.right_of_append⟩
    exact asymmetric x b (by simpa using border.head?_drop isFirst)
  · cases same
    simpa using border.getLast?_take isLast

theorem sortShort_ascending (xs : List α) : Ascending before (sortShort before xs) := by
  have inserted (rest : List α) {run : List α} (ascends : Ascending before run) :
      Ascending before (rest.foldl (insert before) run) := by
    induction rest generalizing run with
    | nil => exact ascends
    | cons x rest ih => exact ih (insert_ascending asymmetric ascends x)
  exact inserted _ (leadingRun_ascending asymmetric xs)

/-! ## Pending runs -/

namespace Pending

/-- All runs ascend. -/
def Ascends (before : α → α → Bool) (p : Pending α) : Prop := ∀ run ∈ p.runs, Ascending before run

variable {p : Pending α}

theorem Ascends.mergeLast (ascends : p.Ascends before) : (p.mergeLast before).Ascends before := by
  obtain ⟨runs, patience⟩ := p
  match runs with
  | [] | [_] => exact ascends
  | c :: b :: rest =>
    simp only [Ascends, List.mem_cons, forall_eq_or_imp] at ascends
    simp only [Ascends, Pending.mergeLast, List.mem_cons, forall_eq_or_imp]
    exact ⟨mergeRuns_ascending asymmetric patience ascends.2.1 ascends.1, ascends.2.2⟩

theorem Ascends.mergeInner (ascends : p.Ascends before) : (p.mergeInner before).Ascends before := by
  obtain ⟨runs, patience⟩ := p
  match runs with
  | [] | [_] | [_, _] => exact ascends
  | c :: b :: a :: rest =>
    simp only [Ascends, List.mem_cons, forall_eq_or_imp] at ascends
    simp only [Ascends, Pending.mergeInner, List.mem_cons, forall_eq_or_imp]
    exact ⟨ascends.1, mergeRuns_ascending asymmetric patience ascends.2.2.1 ascends.2.1,
      ascends.2.2.2⟩

theorem Ascends.mergeMiddle (ascends : p.Ascends before) :
    (p.mergeMiddle before).Ascends before := by
  unfold Pending.mergeMiddle
  split
  · split
    · exact ascends.mergeInner asymmetric
    · exact ascends.mergeLast asymmetric
  · exact ascends.mergeLast asymmetric

theorem Ascends.balance (ascends : p.Ascends before) (steps : Nat) :
    (p.balance before steps).Ascends before := by
  induction steps generalizing p with
  | zero => exact ascends
  | succ steps ih =>
    unfold Pending.balance
    split
    · exact ih (ascends.mergeMiddle asymmetric)
    · split
      · split
        · exact ih (ascends.mergeLast asymmetric)
        · exact ascends
      · exact ascends

theorem Ascends.finish (ascends : p.Ascends before) (steps : Nat) :
    (p.finish before steps).Ascends before := by
  induction steps generalizing p with
  | zero => exact ascends
  | succ steps ih =>
    unfold Pending.finish
    split
    · exact ih (ascends.mergeMiddle asymmetric)
    · exact ascends

theorem Ascends.push (ascends : p.Ascends before) (segment : List α) :
    (p.push before segment).Ascends before := by
  have added : Ascends before ⟨sortShort before segment :: p.runs, p.patience⟩ := by
    simp only [Ascends, List.mem_cons, forall_eq_or_imp]
    exact ⟨sortShort_ascending asymmetric segment, ascends⟩
  exact added.balance asymmetric _

theorem Ascends.foldl_push (ascends : p.Ascends before) (segments : List (List α)) :
    (segments.foldl (Pending.push before) p).Ascends before := by
  induction segments generalizing p with
  | nil => exact ascends
  | cons segment segments ih => exact ih (ascends.push asymmetric segment)

omit asymmetric

/-- A merge leaves one run less. -/
theorem length_mergeMiddle (before : α → α → Bool) (p : Pending α) (several : 2 ≤ p.runs.length) :
    (p.mergeMiddle before).runs.length + 1 = p.runs.length := by
  obtain ⟨runs, patience⟩ := p
  match runs with
  | [_, _] => rfl
  | c :: b :: a :: rest =>
    unfold mergeMiddle
    dsimp only
    split <;> rfl

/-- Enough merges leave at most one run. -/
theorem length_finish {steps : Nat} {p : Pending α} (enough : p.runs.length ≤ steps + 1) :
    (p.finish before steps).runs.length ≤ 1 := by
  induction steps generalizing p with
  | zero => exact enough
  | succ steps ih =>
    unfold Pending.finish
    split
    case h_1 several =>
      have less := length_mergeMiddle before p (by rw [several]; simp)
      exact ih (by omega)
    case h_2 short =>
      rcases p with ⟨_ | ⟨c, _ | ⟨b, rest⟩⟩, patience⟩
      · exact Nat.zero_le _
      · exact Nat.le_refl _
      · exact absurd rfl (short c b rest)

end Pending

/-! ## Sorting -/

/-- Sorting leaves no descent. -/
theorem sort_ascending (xs : List α) : Ascending before (sort before xs) := by
  unfold sort
  dsimp only
  have pushed : (((segments before (shortestRun xs.length) xs).foldl (Pending.push before)
      ⟨[], longStretch⟩)).Ascends before :=
    Pending.Ascends.foldl_push asymmetric (by simp [Pending.Ascends]) _
  generalize (segments before _ xs).foldl _ _ = p at pushed ⊢
  have short : (p.finish before p.runs.length).runs.length ≤ 1 :=
    Pending.length_finish (Nat.le_succ _)
  have finished := pushed.finish asymmetric p.runs.length
  generalize p.finish before p.runs.length = q at short finished
  obtain ⟨_ | ⟨run, _ | _⟩, patience⟩ := q
  · exact .nil
  · simpa using finished run (.head _)
  · simp at short

omit asymmetric

theorem continued_of_ascending {last : α} {xs : List α} (ascends : Ascending before (last :: xs)) :
    continued before false last xs = xs.length := by
  induction xs generalizing last with
  | nil => rfl
  | cons x xs ih =>
    obtain ⟨follows, rest⟩ := List.isChain_cons_cons.1 ascends
    rw [continued, if_pos follows, ih rest, List.length_cons]

/-- A list without descents is one run. -/
theorem leadingRun_of_ascending {xs : List α} (ascends : Ascending before xs) :
    leadingRun before xs = (xs, []) := by
  match xs with
  | [] | [_] => rfl
  | first :: second :: rest =>
    obtain ⟨follows, ascends⟩ := List.isChain_cons_cons.1 ascends
    simp [leadingRun, follows, continued_of_ascending ascends]

/-- Sorting changes nothing in a list without descents. -/
theorem sort_eq_self {xs : List α} (ascends : Ascending before xs) : sort before xs = xs := by
  cases xs with
  | nil => simp [sort, segments, Pending.finish]
  | cons x rest =>
    have run := leadingRun_of_ascending ascends
    have one (shortest : Nat) : segments before shortest (x :: rest) = [x :: rest] := by
      have enough : rest.length ≤ max (x :: rest).length shortest - 1 := by simp; omega
      rw [segments, run]
      dsimp only
      rw [List.take_of_length_le enough, List.drop_of_length_le enough, segments]
    have sorted : sortShort before (x :: rest) = x :: rest := by simp [sortShort, run]
    simp [sort, one, Pending.push, sorted, Pending.balance, Pending.isCrowded, Pending.finish]

section StableSort

variable (before) (compares : α → Bool)

/-- Elements that compare are told apart as by a linear order. -/
structure Ranks : Prop where
  asymmetric : ∀ x y, before x y = true → before y x = false
  trans : ∀ x y z, compares x = true → compares y = true → compares z = true →
    before y x = false → before z y = false → before z x = false

variable {before compares} (ranks : Ranks before compares)

include ranks

/-- If all elements compare, none is before any element in front of it. -/
theorem stableSort_pairwise {xs : List α} (all : xs.all compares = true) :
    (stableSort before compares xs).Pairwise fun x y => before y x = false := by
  obtain ⟨ys, rfl⟩ : ∃ ys : List {x // compares x = true}, ys.map Subtype.val = xs :=
    ⟨xs.attachWith _ (List.all_eq_true.1 all), List.attachWith_map_subtype_val _⟩
  have sorted : (ys.mergeSort fun x y => !before y.1 x.1).Pairwise fun x y =>
      (!before y.1 x.1) = true := by
    refine List.pairwise_mergeSort (fun x y z first second => ?_) (fun x y => ?_) ys
    · rw [Bool.not_eq_true'] at first second ⊢
      exact ranks.trans x.1 y.1 z.1 x.2 y.2 z.2 first second
    · cases isBefore : before y.1 x.1
      · rfl
      · rw [ranks.asymmetric _ _ isBefore]
        rfl
  rw [stableSort, if_pos all, ← List.map_mergeSort (r := fun x y => !before y.1 x.1)
    fun _ _ _ _ => rfl, List.pairwise_map]
  exact sorted.imp fun notBefore => by simpa using notBefore

theorem stableSort_ascending (xs : List α) : Ascending before (stableSort before compares xs) := by
  by_cases all : xs.all compares = true
  case pos => exact (stableSort_pairwise ranks all).isChain
  case neg =>
    rw [stableSort, if_neg all]
    exact sort_ascending ranks.asymmetric xs

/-- Sorting twice is sorting once. -/
theorem stableSort_stableSort (xs : List α) :
    stableSort before compares (stableSort before compares xs) = stableSort before compares xs := by
  have same : (stableSort before compares xs).all compares = xs.all compares :=
    (stableSort_perm before compares xs).all_eq
  by_cases all : xs.all compares = true
  case pos =>
    rw [stableSort, if_pos (same.trans all)]
    exact List.mergeSort_of_pairwise
      ((stableSort_pairwise ranks all).imp fun notBefore => by simp [notBefore])
  case neg =>
    rw [stableSort, if_neg (same ▸ all)]
    exact sort_eq_self (stableSort_ascending ranks xs)

end StableSort

end RunSort

end BatchGraph
