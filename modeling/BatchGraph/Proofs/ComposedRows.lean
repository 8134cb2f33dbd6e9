import BatchGraph.Proofs.Mergeable
import BatchGraph.Proofs.Number.Integer
import BatchGraph.Proofs.RowCounts
import BatchGraph.Proofs.Selection

/-!
Slices of rows compose.

A slice with an integer start, step and count, any of them negative or zero, succeeds exactly if all
its positions have rows, and takes the indices there (`sliceRows_eq_ok_iff`).  So it selects these
rows of the values, and a slice of a slice is the one slice with the composed start and step
(`sliceRows_composes`).  These are not rounded: the start is the position of a row (`toInt?_add_mul`),
and the step the distance of two rows (`toInt?_mul`), unless there is only one row and no step is
taken.  There the composed step can be infinite, and the row is read at no position
(`sliceRows_unequal`).
-/

namespace BatchGraph

namespace Rows

variable {t u v : Rows} {i k z : Int} {a p n : Number} {label : String}

/-! ## Positions -/

/-- There is a row at the position. -/
def HasRow (t : Rows) (position : Int) : Prop := 0 ≤ position ∧ position < t.count

instance (t : Rows) (position : Int) : Decidable (t.HasRow position) :=
  inferInstanceAs (Decidable (_ ∧ _))

/-- The index of the row at a position. -/
def indexAt (t : Rows) (position : Int) : Option Number := (t.indices[position.toNat]?).join

theorem getElem?_indices (hasRow : t.HasRow z) : t.indices[z.toNat]? = some (t.indexAt z) := by
  obtain ⟨nonneg, less⟩ := hasRow
  have inside : z.toNat < t.indices.length := by
    rw [count] at less
    omega
  rw [indexAt, List.getElem?_eq_getElem inside]
  rfl

theorem index_eq {x : Number} (few : t.count ≤ 2 ^ 53) (lands : x.Lands z) :
    t.index x = if t.HasRow z then .ok (t.indexAt z) else .error (.rowRange x t.label t.count) := by
  have isCount := Number.denotes_count t.count
  cases lands with
  | @inside position denotes small isNat =>
    subst isNat
    have notBefore : x.lt 0 = false := by
      rw [Bool.eq_false_iff, Ne, denotes.lt_iff Number.denotes_zero]
      omega
    have behind : (Number.count t.count).le x = true ↔ ¬ t.HasRow position := by
      rw [isCount.le_iff denotes, HasRow]
      omega
    rw [index, notBefore, Bool.false_or, denotes.toNat?_eq, Option.bind_some, indexAt,
      Int.toNat_natCast]
    by_cases hasRow : t.HasRow position
    · rw [if_pos hasRow, if_neg (mt behind.1 (not_not_intro hasRow))]
    · rw [if_neg hasRow, if_pos (behind.2 hasRow)]
  | behind above large =>
    have behind : (Number.count t.count).le x = true :=
      Number.le_trans ((isCount.le_iff (Number.denotes_finite _)).2 few) above
    have noRow : ¬ t.HasRow z := by
      rw [HasRow]
      omega
    rw [index, behind, Bool.or_true, if_pos rfl, if_neg noRow]
  | before below negative =>
    have before : x.lt 0 = true := by
      rw [Number.lt, Bool.and_eq_true, Bool.not_eq_true']
      refine ⟨Number.le_trans below (by decide +kernel), Bool.eq_false_iff.2 fun nonneg => ?_⟩
      exact absurd (Number.le_trans nonneg below) (by decide +kernel)
    have noRow : ¬ t.HasRow z := fun hasRow => absurd hasRow.1 (not_le.2 negative)
    rw [index, before, Bool.true_or, if_pos rfl, if_neg noRow]

theorem index_eq_ok_iff {x : Number} {index : Option Number} (few : t.count ≤ 2 ^ 53)
    (lands : x.Lands z) : t.index x = .ok index ↔ t.HasRow z ∧ index = t.indexAt z := by
  rw [index_eq few lands]
  split
  case isTrue hasRow => simp [hasRow, eq_comm]
  case isFalse noRow => simp [noRow]

/-- The picked positions have rows, and their indices are picked. -/
theorem pick_eq_ok_iff_of_lands {position : Nat → Int} {first count : Nat} (few : t.count ≤ 2 ^ 53)
    (lands : ∀ j < first + count, (a + Number.ofNat j * p).Lands (position j))
    {indices : List (Option Number)} :
    t.pick a p first count = .ok indices ↔
      (∀ j ∈ List.range' first count, t.HasRow (position j)) ∧
        indices = (List.range' first count).map fun j => t.indexAt (position j) := by
  induction count generalizing first indices with
  | zero => simp [pick, eq_comm]
  | succ count ih =>
    have later {rest : List (Option Number)} :=
      @ih (first + 1) (fun j less => lands j (by omega)) rest
    rw [pick, Except.bind_eq_ok_iff, List.range'_succ, List.forall_mem_cons, List.map_cons]
    constructor
    · rintro ⟨index, isIndex, success⟩
      obtain ⟨rest, areRest, success⟩ := Except.bind_eq_ok_iff.1 success
      cases success
      obtain ⟨hasRow, rfl⟩ := (index_eq_ok_iff few (lands first (by omega))).1 isIndex
      obtain ⟨haveRows, rfl⟩ := later.1 areRest
      exact ⟨⟨hasRow, haveRows⟩, rfl⟩
    · rintro ⟨⟨hasRow, haveRows⟩, rfl⟩
      refine ⟨_, (index_eq_ok_iff few (lands first (by omega))).2 ⟨hasRow, rfl⟩, ?_⟩
      rw [later.2 ⟨haveRows, rfl⟩]
      rfl

/-- An integer start is in range and exact, or already the first position has no row. -/
theorem pick_eq_ok_iff {count : Nat} (few : t.count ≤ 2 ^ 53) (isStart : a.toInt? = some i)
    (isStep : p.toInt? = some k) (short : count ≤ 2 ^ 53) {indices : List (Option Number)} :
    t.pick a p 0 count = .ok indices ↔ (∀ j < count, t.HasRow (i + j * k)) ∧
      indices = (List.range count).map fun j : Nat => t.indexAt (i + j * k) := by
  have isStart := Number.value?_of_toInt? isStart
  have isStep := Number.value?_of_toInt? isStep
  by_cases inside : t.HasRow i
  · obtain ⟨nonneg, less⟩ := inside
    obtain ⟨first, rfl⟩ := Int.eq_ofNat_of_zero_le nonneg
    rw [pick_eq_ok_iff_of_lands few fun j less => Number.lands_add_mul isStart (by omega)
      (Number.denotes_ofNat (by omega)) isStep, ← List.range_eq_range']
    simp
  · cases count with
    | zero => simp [pick, eq_comm]
    | succ count =>
      refine iff_of_false (fun success => ?_) fun haveRows => ?_
      · obtain ⟨index, isIndex, -⟩ := Except.bind_eq_ok_iff.1 success
        have lands := (Number.lands_of_value isStart).add_denotes_zero
          (Number.denotes_zero_mul isStep)
        exact inside ((index_eq_ok_iff few lands).1 isIndex).1
      · exact inside (by simpa using haveRows.1 0 (Nat.succ_pos count))

/-! ## Slices -/

/-- The rows at `start`, `start + step`, …, as many as the count says. -/
def stride (t : Rows) (start step : Int) (count : Number) (label : String) : Rows :=
  { t with
    indices := (List.range count.countBelow).map fun j : Nat => t.indexAt (start + j * step)
    shape := count :: Shape.tail t.shape
    label }

theorem sliceRows_eq_ok_iff (few : t.count ≤ 2 ^ 53) (isStart : a.toInt? = some i)
    (isStep : p.toInt? = some k) (short : n.countBelow ≤ 2 ^ 53) :
    t.sliceRows a p n label = .ok u ↔
      (∀ j < n.countBelow, t.HasRow (i + j * k)) ∧ u = t.stride i k n label := by
  rw [sliceRows, Except.bind_eq_ok_iff]
  constructor
  · rintro ⟨indices, success, same⟩
    obtain ⟨haveRows, rfl⟩ := (pick_eq_ok_iff few isStart isStep short).1 success
    cases same
    exact ⟨haveRows, rfl⟩
  · rintro ⟨haveRows, rfl⟩
    exact ⟨_, (pick_eq_ok_iff few isStart isStep short).2 ⟨haveRows, rfl⟩, rfl⟩

theorem count_stride (t : Rows) (i k : Int) (n : Number) (label : String) :
    (t.stride i k n label).count = n.countBelow := by
  rw [count, stride, List.length_map, List.length_range]

theorem indexAt_stride (hasRow : (t.stride i k n label).HasRow z) :
    (t.stride i k n label).indexAt z = t.indexAt (i + z * k) := by
  obtain ⟨nonneg, less⟩ := hasRow
  rw [count_stride] at less
  obtain ⟨j, rfl⟩ := Int.eq_ofNat_of_zero_le nonneg
  have inside : j < n.countBelow := by omega
  rw [indexAt, stride, Int.toNat_natCast, List.getElem?_map, List.getElem?_range inside]
  rfl

/-- A slice of a slice is a slice. -/
theorem stride_stride {j l : Int} {m : Number} {label' : String}
    (haveRows : ∀ e < m.countBelow, (t.stride i k n label).HasRow (j + e * l)) :
    (t.stride i k n label).stride j l m label' = t.stride (i + j * k) (k * l) m label' := by
  have indices : (List.range m.countBelow).map
        (fun e : Nat => (t.stride i k n label).indexAt (j + e * l)) =
      (List.range m.countBelow).map fun e : Nat => t.indexAt (i + j * k + e * (k * l)) := by
    refine List.map_congr_left fun e member => ?_
    rw [indexAt_stride (haveRows e (List.mem_range.1 member))]
    congr 1
    ring
  rw [stride, indices]
  rfl

/-- A slice selects rows of the values. -/
theorem gather_stride {A : BackingArray} (key : A.key.same t.key = true)
    (haveRows : ∀ j < n.countBelow, t.HasRow (i + j * k)) :
    ∃ values, t.gather A = .ok values ∧ values.length = t.count * A.rowSize.countBelow ∧
      (t.stride i k n label).gather A = .ok (selectRows A.rowSize.countBelow
        ((List.range n.countBelow).map fun j : Nat => (i + j * k).toNat) values) := by
  refine ⟨_, gather_eq key, by simp [List.length_flatMap, A.length_row, count], ?_⟩
  have length : ∀ index ∈ t.indices, (A.row index).length = A.rowSize.countBelow :=
    fun index _ => A.length_row index
  have found : ∀ row ∈ (List.range n.countBelow).map fun j : Nat => (i + j * k).toNat,
      t.indices[row]? = some (t.indexAt row) := by
    intro row member
    obtain ⟨j, less, rfl⟩ := List.mem_map.1 member
    obtain ⟨nonneg, inside⟩ := haveRows j (List.mem_range.1 less)
    rw [Int.toNat_of_nonneg nonneg]
    exact getElem?_indices ⟨nonneg, inside⟩
  have indices : (t.stride i k n label).indices = (List.range n.countBelow).map
      ((fun row : Nat => t.indexAt row) ∘ fun j : Nat => (i + j * k).toNat) := by
    refine List.map_congr_left fun j member => ?_
    rw [Function.comp_apply, Int.toNat_of_nonneg (haveRows j (List.mem_range.1 member)).1]
  have gathered : (t.stride i k n label).gather A = _ := gather_eq key
  rw [gathered, indices, selectRows_flatMap length found, List.map_map]

/-- Rows equal themselves unless something in them is not a number. -/
theorem same_self_iff : t.same t = true ↔
    t.key ≠ .nan ∧ (∀ extent ∈ t.shape, extent ≠ .nan) ∧ ∀ index, some index ∈ t.indices →
      index ≠ .nan := by
  have shape : Shape.same t.shape t.shape = true ↔ ∀ extent ∈ t.shape, extent ≠ .nan := by
    simp_rw [Shape.same_iff, List.forall₂_same, Number.same_self_iff]
  have pairs : ((t.indices.zip t.indices).all fun pair => sameIndex pair.1 pair.2) = true ↔
      ∀ index ∈ t.indices, sameIndex index index = true := by
    rw [List.all_eq_true, ← @List.forall₂_same _ (fun i j => sameIndex i j = true),
      List.forall₂_iff_zip]
    simp
  have numbers : (∀ index ∈ t.indices, sameIndex index index = true) ↔
      ∀ index, some index ∈ t.indices → index ≠ .nan := by
    refine ⟨fun same index member => Number.same_self_iff.1 (same (some index) member),
      fun numbers index member => ?_⟩
    cases index with
    | none => rfl
    | some index => exact Number.same_self_iff.2 (numbers index member)
  simp only [same, Bool.and_eq_true, Number.same_self_iff, decide_true, BEq.rfl, and_true, shape,
    and_assoc]
  exact and_congr_right fun _ => and_congr_right fun _ => pairs.trans numbers

/-- Slices of rows that equal themselves do so too. -/
theorem same_self_stride (whole : t.same t = true) (number : n ≠ .nan) :
    (t.stride i k n label).same (t.stride i k n label) = true := by
  obtain ⟨key, shape, indices⟩ := same_self_iff.1 whole
  refine same_self_iff.2 ⟨key, ?_, fun index member => ?_⟩
  · exact List.forall_mem_cons.2
      ⟨number, fun extent member => shape extent (List.mem_of_mem_drop member)⟩
  · obtain ⟨j, -, isIndex⟩ := List.mem_map.1 member
    rw [indexAt, Option.join_eq_some_iff] at isIndex
    exact indices index (List.mem_of_getElem? isIndex)

theorem HasRow.of_stride (hasRow : (t.stride i k n label).HasRow z)
    (haveRows : ∀ j < n.countBelow, t.HasRow (i + j * k)) : t.HasRow (i + z * k) := by
  obtain ⟨nonneg, less⟩ := hasRow
  rw [count_stride] at less
  obtain ⟨j, rfl⟩ := Int.eq_ofNat_of_zero_le nonneg
  exact haveRows j (by omega)

theorem stride_congr {l : Int} (same : ∀ j < n.countBelow, (j : Int) * k = j * l) :
    t.stride i k n label = t.stride i l n label := by
  have indices : (List.range n.countBelow).map (fun j : Nat => t.indexAt (i + j * k)) =
      (List.range n.countBelow).map fun j : Nat => t.indexAt (i + j * l) :=
    List.map_congr_left fun j member => by rw [same j (List.mem_range.1 member)]
  rw [stride, indices]
  rfl

/-! ## Composition -/

section Composition

variable {b q m : Number} {j l : Int} (few : t.count ≤ 2 ^ 53) (isStep : p.toInt? = some k)
  (haveRows : ∀ j < n.countBelow, t.HasRow (i + j * k))

include few isStep haveRows

/-- The position that a row of a slice has among all rows is not rounded. -/
theorem toInt?_add_mul (isStart : a.toInt? = some i) (short : n.countBelow ≤ 2 ^ 53)
    (isNumber : b.toInt? = some j) (hasRow : (t.stride i k n label).HasRow j) :
    (a + b * p).toInt? = some (i + j * k) := by
  have target := hasRow.of_stride haveRows
  obtain ⟨nonneg, less⟩ := hasRow
  rw [count_stride] at less
  have first := haveRows 0 (by omega)
  rw [Nat.cast_zero, zero_mul, add_zero] at first
  obtain ⟨start, rfl⟩ := Int.eq_ofNat_of_zero_le first.1
  obtain ⟨steps, rfl⟩ := Int.eq_ofNat_of_zero_le nonneg
  obtain ⟨row, same⟩ := Int.eq_ofNat_of_zero_le target.1
  have startInside := first.2
  have rowInside := target.2
  have lands := Number.lands_add_mul (Number.value?_of_toInt? isStart) (by omega)
    (Number.value?_of_toInt? isNumber) (Number.value?_of_toInt? isStep)
  rw [same] at lands rowInside ⊢
  exact (lands.denotes (by omega)).toInt?_eq

/-- The distance that two rows of a slice have among all rows is not rounded. -/
theorem toInt?_mul (isStep' : q.toInt? = some l) (hasRow : (t.stride i k n label).HasRow j)
    (hasNext : (t.stride i k n label).HasRow (j + l)) : (p * q).toInt? = some (k * l) := by
  obtain ⟨nonneg, less⟩ := hasRow.of_stride haveRows
  obtain ⟨nonneg', less'⟩ := hasNext.of_stride haveRows
  have distance : i + (j + l) * k = i + j * k + k * l := by ring
  rw [distance] at nonneg' less'
  refine Number.toInt?_of_value (Number.value?_mul (Number.value?_of_toInt? isStep)
    (Number.value?_of_toInt? isStep') ?_)
  omega

/-- The product of the steps leads to the same rows as the exact one.  A single row asks that it is
an integer, because zero times infinity is no position. -/
theorem exists_step {step : Number} (isStep' : q.toInt? = some l)
    (haveRows' : ∀ e < m.countBelow, (t.stride i k n label).HasRow (j + e * l))
    (some_ : 0 < m.countBelow)
    (isProduct : step.toInt? = some (k * l) ∨
      step = p * q ∧ (m.countBelow = 1 → step.isInteger = true)) :
    ∃ d, step.toInt? = some d ∧ ∀ e < m.countBelow, (e : Int) * d = e * (k * l) := by
  rcases isProduct with exact | ⟨rfl, isInt⟩
  · exact ⟨k * l, exact, fun _ _ => rfl⟩
  rcases Nat.lt_or_ge 1 m.countBelow with many | one
  · have first := haveRows' 0 (by omega)
    have second := haveRows' 1 many
    rw [Nat.cast_zero, zero_mul, add_zero] at first
    rw [Nat.cast_one, one_mul] at second
    exact ⟨k * l, toInt?_mul few isStep haveRows isStep' first second, fun _ _ => rfl⟩
  · -- No step is taken.
    obtain ⟨d, isInt⟩ := Option.isSome_iff_exists.1 (isInt (by omega))
    refine ⟨d, isInt, fun e less => ?_⟩
    obtain rfl : e = 0 := by omega
    rw [Nat.cast_zero, zero_mul, zero_mul]

end Composition

/-- A slice of integer start, step and count selects rows of the values, and a slice of it is the
slice whose start and step are composed.  These may be exact or as they are computed, if only the
step for a single row does not become infinite.  Rows equal themselves unless there is some `nan` in
them, which equals nothing; no list has more than `2 ^ 53` of them. -/
theorem sliceRows_composes {c : Int} (few : t.count ≤ 2 ^ 53) (isStart : a.toInt? = some i)
    (isStep : p.toInt? = some k) (isCount : n.toInt? = some c)
    (sliced : t.sliceRows a p n label = .ok u) (few' : u.count ≤ 2 ^ 53) :
    (∀ e < c.toNat, t.HasRow (i + e * k)) ∧
      (∀ A : BackingArray, A.key.same t.key = true →
        ∃ values, t.gather A = .ok values ∧ values.length = t.count * A.rowSize.countBelow ∧
          u.gather A = .ok (selectRows A.rowSize.countBelow
            ((List.range c.toNat).map fun e : Nat => (i + e * k).toNat) values)) ∧
      ∀ (b q m : Number) (j l d : Int) (label' : String) (v : Rows), b.toInt? = some j →
        q.toInt? = some l → m.toInt? = some d → u.sliceRows b q m label' = .ok v →
        v.count ≤ 2 ^ 53 → ∀ (start step : Number) (label'' : String),
          start.toInt? = some (i + j * k) ∨ start = a + b * p →
          step.toInt? = some (k * l) ∨ step = p * q ∧ (d = 1 → step.isInteger = true) →
          ∃ w, t.sliceRows start step m label'' = .ok w ∧ w = { v with label := label'' } ∧
            w.same v = v.same v ∧ (t.same t = true → v.same v = true) := by
  have isCount := Number.countBelow_of_toInt? isCount
  have short : n.countBelow ≤ 2 ^ 53 := (of_sliceRows_eq_ok sliced).2.2 ▸ few'
  obtain ⟨haveRows, rfl⟩ := (sliceRows_eq_ok_iff few isStart isStep short).1 sliced
  refine ⟨isCount ▸ haveRows, fun A key => isCount ▸ gather_stride key haveRows, ?_⟩
  intro b q m j l d label' v isStart' isStep' isCount' sliced' few'' start step label'' isSum
    isProduct
  have number : m ≠ .nan := by
    rintro rfl
    cases isCount'
  have short' : m.countBelow ≤ 2 ^ 53 := (of_sliceRows_eq_ok sliced').2.2 ▸ few''
  obtain ⟨haveRows', rfl⟩ := (sliceRows_eq_ok_iff few' isStart' isStep' short').1 sliced'
  rw [stride_stride haveRows']
  refine ⟨t.stride (i + j * k) (k * l) m label'', ?_, rfl, rfl,
    fun whole => same_self_stride whole number⟩
  rcases Nat.eq_zero_or_pos m.countBelow with none_ | some_
  · rw [sliceRows, stride, none_]
    rfl
  have first := haveRows' 0 some_
  rw [Nat.cast_zero, zero_mul, add_zero] at first
  have startValue : start.toInt? = some (i + j * k) := by
    rcases isSum with exact | rfl
    · exact exact
    · exact toInt?_add_mul few isStep haveRows isStart short isStart' first
  have isCount' := Number.countBelow_of_toInt? isCount'
  obtain ⟨d', stepValue, same⟩ := exists_step few isStep haveRows isStep' haveRows' some_
    (isProduct.imp_right (And.imp_right fun isInt one => isInt (by omega)))
  rw [← stride_congr same]
  refine (sliceRows_eq_ok_iff few startValue stepValue short').2 ⟨fun e less => ?_, rfl⟩
  have position : i + j * k + e * d' = i + (j + e * l) * k := by
    rw [same e less]
    ring
  rw [position]
  exact (haveRows' e less).of_stride haveRows

/-- The sheet from its last row to its first, and every other one of these rows from the third on:
the second and the fourth row of the sheet. -/
theorem sliceRows_composes_sheet :
    ∃ u v w, sheetRows.sliceRows 3 (-1) 4 "back" = .ok u ∧
      u.gather sheet = .ok ([9, 10, 11, 6, 7, 8, 3, 4, 5, 0, 1, 2].map some) ∧
      u.sliceRows 2 (-2) 2 "odd" = .ok v ∧
      sheetRows.sliceRows (3 + 2 * -1) (-1 * -2) 2 "rows" = .ok w ∧ w.same v = true := by
  let u : Rows := { sheetRows with indices := [some 3, some 2, some 1, some 0], label := "back" }
  let v : Rows := { sheetRows with indices := [some 1, some 3], shape := [2, 3], label := "odd" }
  have sliced : sheetRows.sliceRows 3 (-1) 4 "back" = .ok u := by decide +kernel
  have sliced' : u.sliceRows 2 (-2) 2 "odd" = .ok v := by decide +kernel
  have isMinusOne : Number.toInt? (-1) = some (-1) := by decide +kernel
  obtain ⟨-, gathers, composes⟩ := sliceRows_composes (i := 3) (c := 4) (by decide)
    (by decide +kernel) isMinusOne (by decide +kernel) sliced (by decide)
  obtain ⟨values, gathered, -, selected⟩ := gathers sheet (by decide +kernel)
  have all : sheetRows.gather sheet =
      .ok ([0, 1, 2, 3, 4, 5, 6, 7, 8, 9, 10, 11].map some) := by decide +kernel
  cases all.symm.trans gathered
  obtain ⟨w, isSlice, -, same, whole⟩ := composes 2 (-2) 2 2 (-2) 2 "odd" v (by decide +kernel)
    (by decide +kernel) (by decide +kernel) sliced' (by decide) _ _ "rows" (.inr rfl)
    (.inr ⟨rfl, by simp⟩)
  exact ⟨u, v, w, sliced, selected.trans (by decide +kernel), sliced', isSlice,
    same.trans (whole (by decide +kernel))⟩

/-- A step far behind all rows. -/
def leap : Number := .ofNat (1 <<< 600)

/-- Slices of one row whose composition is not equal to them: if the product of the steps is
infinite the row is read at no position, and an extent that is no number equals nothing. -/
theorem sliceRows_unequal :
    (leap.toInt? = some (2 ^ 600) ∧ leap * leap = .ofNat (1 <<< 1200) ∧
      ∃ u v w, sheetRows.sliceRows 0 leap 1 "first" = .ok u ∧
        u.sliceRows 0 leap 1 "first" = .ok v ∧
        sheetRows.sliceRows (0 + 0 * leap) (leap * leap) 1 "first" = .ok w ∧
        w.same v = false) ∧
    ∃ u v w, { sheetRows with shape := [4, .nan] }.sliceRows 0 1 1 "first" = .ok u ∧
      u.sliceRows 0 1 1 "first" = .ok v ∧
      { sheetRows with shape := [4, .nan] }.sliceRows (0 + 0 * 1) (1 * 1) 1 "first" = .ok w ∧
      w.same v = false := by
  let first : Rows := { sheetRows with indices := [some 0], shape := [1, 3], label := "first" }
  refine ⟨⟨by decide +kernel, by decide +kernel, first, first, { first with indices := [none] }, ?_⟩,
    { first with shape := [1, .nan] }, { first with shape := [1, .nan] },
    { first with shape := [1, .nan] }, ?_⟩
  · decide +kernel
  · decide +kernel

end Rows

end BatchGraph
