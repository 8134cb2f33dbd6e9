import Mathlib.Data.List.Nodup
import Mathlib.Data.List.Perm.Basic

/-!
Lists without repetitions.

`List.eraseDups` leaves one of every element (`nodup_eraseDups`), and in a list without repetitions
an element and its position determine each other (`idxOf?_eq_some_iff`).
-/

namespace BatchGraph

namespace Distinct

variable {α : Type} [BEq α] [LawfulBEq α]

theorem nodup_eraseDups (xs : List α) : xs.eraseDups.Nodup := by
  -- The rest is filtered before it goes on, so the induction is on the length.
  induction length : xs.length using Nat.strongRecOn generalizing xs with
  | _ count ih =>
    cases xs with
    | nil => simp
    | cons x rest =>
      have shorter : (rest.filter fun y => !y == x).length < count := by
        have := List.length_filter_le (fun y => !y == x) rest
        simp only [List.length_cons] at length
        omega
      rw [List.eraseDups_cons, List.nodup_cons, List.mem_eraseDups]
      exact ⟨by simp, ih _ shorter _ rfl⟩

theorem eraseDups_of_nodup {xs : List α} (distinct : xs.Nodup) : xs.eraseDups = xs := by
  induction xs with
  | nil => rfl
  | cons x xs ih =>
    rw [List.nodup_cons] at distinct
    have others : xs.filter (fun y => !y == x) = xs := by
      apply List.filter_eq_self.2
      intro y member
      have differ : y ≠ x := fun same => distinct.1 (same ▸ member)
      simpa using differ
    rw [List.eraseDups_cons, others, ih distinct.2]

theorem filter_eraseDups (keep : α → Bool) (xs : List α) :
    xs.eraseDups.filter keep = (xs.filter keep).eraseDups := by
  -- As above, the induction is on the length.
  induction length : xs.length using Nat.strongRecOn generalizing xs with
  | _ count ih =>
    cases xs with
    | nil => rfl
    | cons x rest =>
      have shorter : (rest.filter fun y => !y == x).length < count := by
        have := List.length_filter_le (fun y => !y == x) rest
        simp only [List.length_cons] at length
        omega
      have others := ih _ shorter _ rfl
      rw [List.eraseDups_cons, List.filter_cons, List.filter_cons, others, List.filter_comm]
      split
      case isTrue => rw [List.eraseDups_cons]
      case isFalse drops =>
        -- What equals an element that is dropped is dropped as well.
        congr 1
        apply List.filter_eq_self.2
        intro y member
        have kept := (List.mem_filter.1 member).2
        have differ : y ≠ x := fun same => drops (same ▸ kept)
        simpa using differ

/-- Two lists with the same elements have permuted lists of different elements. -/
theorem eraseDups_perm {xs ys : List α} (same : ∀ x, x ∈ xs ↔ x ∈ ys) :
    xs.eraseDups.Perm ys.eraseDups := by
  apply (List.perm_ext_iff_of_nodup (nodup_eraseDups xs) (nodup_eraseDups ys)).2
  intro x
  rw [List.mem_eraseDups, List.mem_eraseDups, same]

/-! ## Injective maps -/

section Map

variable {β : Type} [BEq β] [LawfulBEq β] {f : α → β} (injective : Function.Injective f)

include injective

theorem beq_map (x y : α) : (f x == f y) = (x == y) := by
  rw [Bool.eq_iff_iff, beq_iff_eq, beq_iff_eq, injective.eq_iff]

theorem contains_map (xs : List α) (x : α) : (xs.map f).contains (f x) = xs.contains x := by
  rw [Bool.eq_iff_iff, List.contains_iff_mem, List.contains_iff_mem,
    List.mem_map_of_injective injective]

theorem eraseDups_map (xs : List α) : (xs.map f).eraseDups = xs.eraseDups.map f := by
  -- As above, the induction is on the length.
  induction length : xs.length using Nat.strongRecOn generalizing xs with
  | _ count ih =>
    cases xs with
    | nil => rfl
    | cons x rest =>
      have shorter : (rest.filter fun y => !y == x).length < count := by
        have := List.length_filter_le (fun y => !y == x) rest
        simp only [List.length_cons] at length
        omega
      rw [List.map_cons, List.eraseDups_cons, List.eraseDups_cons, List.map_cons,
        ← ih _ shorter _ rfl, List.filter_map]
      simp only [Function.comp_def, beq_map injective]

theorem idxOf?_map (xs : List α) (x : α) : (xs.map f).idxOf? (f x) = xs.idxOf? x := by
  simp only [List.idxOf?, List.findIdx?_map, Function.comp_def, beq_map injective]

end Map

/-! ## Positions -/

theorem idxOf?_eq_some_iff {xs : List α} (distinct : xs.Nodup) {x : α} {i : Nat} :
    xs.idxOf? x = some i ↔ xs[i]? = some x := by
  rw [List.idxOf?_eq_some_iff, List.getElem?_eq_some_iff]
  constructor
  · intro holds
    rcases holds with ⟨inside, found, -⟩
    exact ⟨inside, by simpa using found⟩
  · intro holds
    rcases holds with ⟨inside, found⟩
    refine ⟨inside, by simpa using found, fun j before => ?_⟩
    have differ : xs[j] ≠ xs[i] := by
      rw [Ne, distinct.getElem_inj_iff]
      omega
    simpa [← found] using differ

theorem exists_idxOf?_of_mem {xs : List α} {x : α} (member : x ∈ xs) :
    ∃ i, xs.idxOf? x = some i :=
  Option.isSome_iff_exists.1 (List.isSome_idxOf?.2 member)

theorem eq_of_getElem? {xs : List α} (distinct : xs.Nodup) {x : α} {i j : Nat}
    (first : xs[i]? = some x) (second : xs[j]? = some x) : i = j := by
  rw [← idxOf?_eq_some_iff distinct] at first second
  exact Option.some.inj (first.symm.trans second)

theorem idxOf_eq {xs : List α} (distinct : xs.Nodup) {x : α} {i : Nat}
    (found : xs[i]? = some x) : xs.idxOf x = i := by
  have member := List.mem_of_getElem? found
  exact eq_of_getElem? distinct (by simp [member]) found

theorem idxOf_inj {xs : List α} {x y : α} (isX : x ∈ xs) (same : xs.idxOf x = xs.idxOf y) :
    x = y := by
  have inside := List.idxOf_lt_length_of_mem isX
  have inside' := inside
  rw [same] at inside'
  rw [← List.getElem_idxOf inside, ← List.getElem_idxOf inside']
  simp only [same]

/-- Of two elements the one with the lower position stands in front. -/
theorem rel_of_idxOf_lt {R : α → α → Prop} {xs : List α} (pairs : xs.Pairwise R) {x y : α}
    (isY : y ∈ xs) (less : xs.idxOf x < xs.idxOf y) : R x y := by
  have inside := List.idxOf_lt_length_of_mem isY
  have related := List.pairwise_iff_getElem.1 pairs _ _ (Nat.lt_trans less inside) inside less
  rwa [List.getElem_idxOf, List.getElem_idxOf] at related

/-- The positions rise along a list. -/
theorem pairwise_idxOf_lt {xs : List α} (distinct : xs.Nodup) :
    xs.Pairwise fun x y => xs.idxOf x < xs.idxOf y := by
  refine List.pairwise_iff_getElem.2 fun i j inside inside' less => ?_
  rwa [idxOf_eq distinct (List.getElem?_eq_getElem inside),
    idxOf_eq distinct (List.getElem?_eq_getElem inside')]

/-- Two lists of the same elements in the same relative order. -/
theorem eq_of_idxOf_lt_iff {xs ys : List α} (distinct : xs.Nodup) (perm : xs.Perm ys)
    (same : ∀ x ∈ xs, ∀ y ∈ xs, xs.idxOf x < xs.idxOf y → ys.idxOf x < ys.idxOf y) :
    xs = ys := by
  have rises := (pairwise_idxOf_lt distinct).imp_of_mem fun {x y} isX isY less =>
    same x isX y isY less
  refine perm.eq_of_pairwise (fun x y _ _ less more => ?_) rises
    (pairwise_idxOf_lt (perm.nodup_iff.1 distinct))
  exact absurd less (Nat.lt_asymm more)

/-! ## Natural numbers that are left -/

section Range

variable {count : Nat} {done : List Nat} (once : done.Nodup) (within : ∀ i ∈ done, i < count)

include once within

theorem filter_contains_perm :
    ((List.range count).filter fun i => done.contains i).Perm done := by
  refine (List.perm_ext_iff_of_nodup (List.nodup_range.filter _) once).2 fun i => ?_
  simpa using within i

theorem length_le_of_forall_lt : done.length ≤ count := by
  rw [← (filter_contains_perm once within).length_eq]
  simpa using List.length_filter_le (fun i => done.contains i) (List.range count)

/-- As many of the first natural numbers are left as are not done. -/
theorem length_filter_not_contains :
    ((List.range count).filter fun i => !done.contains i).length = count - done.length := by
  have parts := List.length_eq_length_filter_add (l := List.range count) fun i => done.contains i
  rw [List.length_range, (filter_contains_perm once within).length_eq] at parts
  omega

end Range

end Distinct

end BatchGraph
