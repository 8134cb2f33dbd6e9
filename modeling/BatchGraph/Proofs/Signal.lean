import BatchGraph.Proofs.Number.Monotone
import BatchGraph.Signal.Declare

/-!
Views that are made by slicing rows or by reshaping a whole base.

`RowSlice s step` says how `s` comes from its base by slices that stay inside what they slice, and
`Reshaped s` that it is its base under another shape.  Both forms are kept apart from any signal
whose geometry happens to look like that: the numbers of a slice are computed one from the other.

What the layout needs of a sliced signal is `PicksRows`: it has the rows `first`, `first + step`, …
of its base, `count` of them.  Slicing such a signal gives such a signal (`PicksRows.slice`), and
its initial values are those of the base, picked row by row (`PicksRows.initialValue_eq`).
-/

namespace BatchGraph

namespace Base

/-- The extents as natural numbers. -/
def extents (b : Base) : List Nat := b.shape.map Number.countBelow

theorem denotes_extents (b : Base) : Shape.Denotes b.shape b.extents :=
  Shape.denotes_of_natural b.natural_extents

/-- A base may have one element. -/
theorem natural_extents_one : [(1 : Number)].all Number.isNatural = true := by decide

theorem initial_length_one :
    [(0 : Number)].length = 1 ∨ (Number.ofNat [(0 : Number)].length).same (Shape.size [1]) = true :=
  .inl rfl

/-- The initial value of an element by its position. -/
def value? (b : Base) (position : Nat) : Option Number := b.valueAt? (Number.count position)

theorem valueAt?_of_denotes (b : Base) {x : Number} {n : Nat} (h : x.Denotes n) :
    b.valueAt? x = b.value? n := by
  unfold value? valueAt?
  split
  · rfl
  · rw [h.toNat?_eq, (Number.denotes_count n).toNat?_eq]

theorem map_valueAt? (b : Base) {positions : List Number} {ns : List Nat}
    (h : List.Forall₂ Number.Denotes positions ns) :
    positions.map b.valueAt? = ns.map b.value? := by
  induction h with
  | nil => rfl
  | cons first _ ih => rw [List.map_cons, List.map_cons, b.valueAt?_of_denotes first, ih]

/-- The elements up to `step` rows behind the base have exact positions. -/
def Reaches (b : Base) (step : Nat) : Prop :=
  (Shape.leading b.extents + step) * Shape.bulk (Shape.tail b.extents) < 2 ^ 53

theorem view_eq_ok {b : Base} {id : Nat} {name : String} {region : Region} {s : Signal}
    (success : b.view id name region = .ok s) :
    s.base = b ∧ s.region = region ∧ s.isView = true := by
  unfold view at success
  split at success
  · split at success
    · cases success
    · split at success
      · cases success
        exact ⟨rfl, rfl, rfl⟩
      · cases success
  · cases success

theorem exists_view_eq_ok {b : Base} (id : Nat) (name : String) {region : Region}
    (rank : region.strides.length = region.shape.length) (few : region.size.countBelow < 2 ^ 32)
    (inside : ∀ x ∈ region.elements, b.excludes x = false) : ∃ s, b.view id name region = .ok s := by
  have enumerated := Region.enumerate_eq_ok_iff.2 ⟨few, rfl⟩
  rw [view, dif_pos rank]
  split
  case h_1 e refused => cases enumerated.symm.trans refused
  case h_2 elements listed =>
    cases enumerated.symm.trans listed
    exact ⟨_, dif_pos inside⟩

end Base

namespace Signal

theorem initialValue_of_isView {s : Signal} (isView : s.isView = true) :
    s.initialValue = s.region.elements.map s.base.valueAt? := by
  unfold Signal.isView at isView
  unfold initialValue region
  split <;> simp_all

theorem eq_ofBase_of_not_isView {s : Signal} (whole : s.isView = false) : s = ofBase s.base := by
  obtain ⟨b, view?, inside⟩ := s
  cases view? with
  | none => rfl
  | some v => cases whole

end Signal

/-! ## Ranges of rows -/

/-- The rows `first`, `first + step`, … of `rows` ones, `count` of them.  A range without rows may
start behind the last row, but not by more than a step. -/
structure RowRange (rows first step count : Nat) : Prop where
  positive : 0 < step
  inside : 0 < count → first + (count - 1) * step < rows
  start : first < rows + step
  empty : rows = 0 → first = 0

namespace RowRange

variable {rows first step count : Nat}

theorem all (rows : Nat) : RowRange rows 0 1 rows :=
  ⟨one_pos, by omega, by omega, fun _ => rfl⟩

theorem lt_rows (range : RowRange rows first step count) {r : Nat} (less : r < count) :
    first + r * step < rows := by
  have last := range.inside (by omega)
  have bound : r * step ≤ (count - 1) * step := Nat.mul_le_mul_right _ (by omega)
  omega

theorem count_le (range : RowRange rows first step count) : count ≤ rows := by
  by_contra more
  have index : rows ≤ rows * step := Nat.le_mul_of_pos_right _ range.positive
  have bound := range.lt_rows (not_le.1 more)
  omega

/-- Where a slice of the range may start. -/
theorem start_lt (range : RowRange rows first step count) {i : Nat} (inRange : i ≤ count) :
    first + i * step < rows + step := by
  by_cases less : i < count
  · have := range.lt_rows less
    omega
  · by_cases none : count = 0
    · have zero : i = 0 := by omega
      rw [zero, Nat.zero_mul, Nat.add_zero]
      exact range.start
    · have last := range.inside (Nat.pos_of_ne_zero none)
      have index : i * step = (count - 1) * step + step := by
        rw [← Nat.succ_mul]
        congr 1
        omega
      omega

/-- A range that has as many rows as there are has them in their order. -/
theorem eq_all (range : RowRange rows first step rows) :
    first = 0 ∧ (step = 1 ∨ rows ≤ 1) := by
  have positive := range.positive
  by_cases none : rows = 0
  · exact ⟨range.empty none, .inr (by omega)⟩
  · have last := range.inside (Nat.pos_of_ne_zero none)
    have bound : rows - 1 ≤ (rows - 1) * step := Nat.le_mul_of_pos_right _ positive
    refine ⟨by omega, ?_⟩
    by_contra other
    have twice : (rows - 1) * 2 ≤ (rows - 1) * step := Nat.mul_le_mul_left _ (by omega)
    omega

theorem map_range_eq (range : RowRange rows first step rows) :
    (List.range rows).map (first + · * step) = List.range rows := by
  obtain ⟨isFirst, ordered⟩ := range.eq_all
  refine (List.map_congr_left fun r member => ?_).trans (List.map_id _)
  rw [List.mem_range] at member
  rcases ordered with one | few
  · simp [isFirst, one]
  · have zero : r = 0 := by omega
    simp [isFirst, zero]

theorem slice (range : RowRange rows first step count) {i j k : Nat} (ascending : i ≤ j)
    (inRange : j ≤ count) (positive : 0 < k) :
    RowRange rows (first + i * step) (step * k) ((j - i + k - 1) / k) := by
  have step_le : step ≤ step * k := Nat.le_mul_of_pos_right _ positive
  have start := range.start_lt (ascending.trans inRange)
  refine ⟨Nat.mul_pos range.positive positive, fun some_ => ?_, by omega, fun none => ?_⟩
  · have less : ((j - i + k - 1) / k - 1) * k < j - i := by
      have whole := Nat.div_mul_le_self (j - i + k - 1) k
      have split : ((j - i + k - 1) / k - 1) * k + k = (j - i + k - 1) / k * k := by
        rw [← Nat.succ_mul]
        congr 1
        omega
      omega
    have row := range.lt_rows (r := i + ((j - i + k - 1) / k - 1) * k) (by omega)
    have sum : (i + ((j - i + k - 1) / k - 1) * k) * step =
        i * step + ((j - i + k - 1) / k - 1) * (step * k) := by
      rw [Nat.add_mul, Nat.mul_assoc, Nat.mul_comm k step]
    omega
  · have zero : i = 0 := by
      have := range.count_le
      omega
    rw [zero, Nat.zero_mul, range.empty none]

end RowRange

namespace Signal

/-! ## Rows of a base -/

/-- The signal has the rows `first`, `first + step`, … of its base, `count` of them. -/
structure PicksRows (s : Signal) (first step count : Nat) : Prop where
  shaped : s.base.extents ≠ []
  range : RowRange (Shape.leading s.base.extents) first step count
  region : ∃ leading offset stride : Number,
    s.region = ⟨leading :: Shape.tail s.base.shape, offset,
      stride :: Shape.rowMajor (Shape.tail s.base.shape)⟩ ∧
    leading.Denotes count ∧ offset.Denotes (first * (Shape.tail s.base.extents).prod) ∧
      stride.Denotes (step * (Shape.tail s.base.extents).prod)

/-- The signal is a base, or made from one by slicing rows in range; `step` is the product of all
steps. -/
inductive RowSlice : Signal → (step : Nat) → Prop
  | base (b : Base) : RowSlice (ofBase b) 1
  | slice {s t : Signal} {step i j k rows id : Nat} {start stop stride : Number}
      {name? : Option String} (sliced : RowSlice s step)
      (leading : (Shape.leading s.shape).Denotes rows)
      (isStart : start.Denotes i) (isStop : stop.Denotes j) (isStep : stride.Denotes k)
      (ascending : i ≤ j) (inRange : j ≤ rows) (positive : 0 < k)
      (exact : s.base.Reaches (step * k)) (made : s.slice id start stop stride name? = .ok t) :
      RowSlice t (step * k)

theorem picksRows_ofBase {b : Base} (shaped : b.extents ≠ [])
    (small : Shape.bulk b.extents < 2 ^ 53) :
    (ofBase b).PicksRows 0 1 (Shape.leading b.extents) := by
  have extents := b.denotes_extents
  have region : (ofBase b).region = Region.whole b.shape := rfl
  have base : (ofBase b).base = b := rfl
  refine ⟨shaped, .all _, ?_⟩
  rw [region, base]
  generalize b.shape = shape at extents
  generalize b.extents = ns at extents shaped small
  cases extents with
  | nil => cases shaped rfl
  | @cons extent n inner ns first rest =>
    refine ⟨extent, 0, Shape.span inner, rfl, first, ?_, ?_⟩
    · rw [Nat.zero_mul]
      exact Number.denotes_zero
    · rw [Nat.one_mul]
      exact Shape.denotes_span rest ((Shape.bulk_le_cons n ns).trans_lt small)

/-- The bounds of a slice lie in the signal, which has rows: `0 ≤ start ≤ stop ≤ rows` and
`step ≥ 1`, all of them integers, namely `i`, `j` and `k`.  They are numbers of the format, as all
numbers are. -/
structure InRange (s : Signal) (start stop step : Number) (i j k : Nat) : Prop where
  shaped : s.shape ≠ []
  isStart : start.Denotes i
  isStop : stop.Denotes j
  isStep : step.Denotes k
  ascending : i ≤ j
  inside : stop.le (Shape.leading s.shape) = true
  positive : 0 < k
  format_stop : stop.isBinary64 = true
  format_step : step.isBinary64 = true

theorem InRange.le {s : Signal} {start stop step : Number} {i j k rows : Nat}
    (range : s.InRange start stop step i j k) (leading : (Shape.leading s.shape).Denotes rows) :
    j ≤ rows := (range.isStop.le_iff leading).1 range.inside

/-- How many of `i`, `i + k`, … lie below `j`. -/
theorem denotes_sliceCount {start stop stride : Number} {i j k : Nat} (isStart : start.Denotes i)
    (isStop : stop.Denotes j) (isStep : stride.Denotes k) (format : stride.isBinary64 = true)
    (ascending : i ≤ j) (positive : 0 < k) (small : j < 2 ^ 53) :
    (sliceCount start stop stride).Denotes ((j - i + k - 1) / k) := by
  have quotient := (isStop.sub isStart ascending small).ceil_div_of_isBinary64 isStep format positive
    (by omega)
  have count := Number.denotes_zero.max quotient
  rwa [Nat.max_eq_right (Nat.zero_le _)] at count

/-- However large the bounds are, there are not more rows than lie below the upper one. -/
theorem exists_sliceCount_le {start stop stride : Number} {i j k : Nat} (isStart : start.Denotes i)
    (isStop : stop.Denotes j) (format : stop.isBinary64 = true) (isStep : stride.Denotes k)
    (ascending : i ≤ j) (positive : 0 < k) :
    ∃ c ≤ j, (sliceCount start stop stride).Denotes c := by
  obtain ⟨p, difference, nonneg, bound⟩ := Number.exists_sub_value isStop format isStart ascending
  obtain ⟨q, quotient, nonneg', bound'⟩ := Number.exists_div_value_of_le difference nonneg bound
    (isStop.ofRat_eq format) isStep positive
  obtain ⟨c, le, ceil⟩ := Number.exists_denotes_ceil quotient nonneg' bound'
  have count := Number.denotes_zero.max ceil
  rw [Nat.max_eq_right (Nat.zero_le _)] at count
  exact ⟨c, le, count⟩

theorem slice_eq_ok {s t : Signal} {id : Nat} {start stop step : Number} {name? : Option String}
    {leading offset stride : Number} {inner strides : List Number}
    (region : s.region = ⟨leading :: inner, offset, stride :: strides⟩)
    (success : s.slice id start stop step name? = .ok t) :
    t.base = s.base ∧ t.isView = true ∧ t.region =
      ⟨sliceCount start stop step :: inner, offset + start * stride, stride * step :: strides⟩ := by
  have shape : s.shape = leading :: inner := congrArg Region.shape region
  have strides' : s.strides = stride :: strides := congrArg Region.strides region
  have offset' : s.offset = offset := congrArg Region.offset region
  unfold slice at success
  rw [shape, strides', offset'] at success
  simp only at success
  split at success
  · cases success
  · obtain ⟨base, region, isView⟩ := Base.view_eq_ok success
    exact ⟨base, isView, region⟩

/-- A slice that can be listed and does not leave the base is made. -/
theorem exists_slice_eq_ok {s : Signal} (id : Nat) {start stop step : Number}
    (name? : Option String) {leading offset stride : Number} {inner strides : List Number}
    (region : s.region = ⟨leading :: inner, offset, stride :: strides⟩)
    (rank : strides.length = inner.length) (positive : step.le 0 = false)
    (few : (Shape.size (sliceCount start stop step :: inner)).countBelow < 2 ^ 32)
    (inside : ∀ x ∈ Region.elements ⟨sliceCount start stop step :: inner, offset + start * stride,
      stride * step :: strides⟩, s.base.excludes x = false) :
    ∃ t, s.slice id start stop step name? = .ok t := by
  have shape : s.shape = leading :: inner := congrArg Region.shape region
  have strides' : s.strides = stride :: strides := congrArg Region.strides region
  have offset' : s.offset = offset := congrArg Region.offset region
  rw [slice, shape, strides', offset']
  simp only [positive, Bool.false_eq_true, if_false]
  exact Base.exists_view_eq_ok id _ (congrArg Nat.succ rank) few inside

/-- What is sliced has an axis. -/
theorem exists_region_of_slice {s t : Signal} {id : Nat} {start stop step : Number}
    {name? : Option String} (success : s.slice id start stop step name? = .ok t) :
    ∃ leading inner stride strides,
      s.region = ⟨leading :: inner, s.offset, stride :: strides⟩ := by
  unfold slice at success
  split at success
  case h_1 leading inner stride strides shape strides' =>
    exact ⟨leading, inner, stride, strides, by rw [← shape, ← strides']; rfl⟩
  case h_2 => cases success

theorem slice_base {s t : Signal} {id : Nat} {start stop step : Number} {name? : Option String}
    (success : s.slice id start stop step name? = .ok t) : t.base = s.base := by
  unfold slice at success
  split at success
  · split at success
    · cases success
    · exact (Base.view_eq_ok success).1
  · cases success

/-- Slicing rows in range gives rows, if neither the offset nor the stride is rounded. -/
theorem PicksRows.slice_of_exact {s t : Signal} {first step count i j k id : Nat}
    {start stop stride : Number} {name? : Option String} (picks : s.PicksRows first step count)
    (isStart : start.Denotes i) (isStop : stop.Denotes j) (isStep : stride.Denotes k)
    (format : stride.isBinary64 = true) (ascending : i ≤ j) (inRange : j ≤ count) (positive : 0 < k)
    (small : Shape.leading s.base.extents < 2 ^ 53)
    (isOffset : t.offset.Denotes ((first + i * step) * (Shape.tail s.base.extents).prod))
    (isStride : ∀ x ∈ t.strides.head?, x.Denotes (step * k * (Shape.tail s.base.extents).prod))
    (made : s.slice id start stop stride name? = .ok t) :
    t.PicksRows (first + i * step) (step * k) ((j - i + k - 1) / k) := by
  obtain ⟨leading, offset, rowStride, region, -⟩ := picks.region
  obtain ⟨base, -, region'⟩ := slice_eq_ok region made
  have counted := denotes_sliceCount isStart isStop isStep format ascending positive
    (inRange.trans_lt (picks.range.count_le.trans_lt small))
  rw [Signal.offset, region'] at isOffset
  rw [Signal.strides, region'] at isStride
  rw [← base] at region' isOffset isStride
  have range := picks.range.slice ascending inRange positive
  rw [← base] at range
  exact ⟨by rw [base]; exact picks.shaped, range, _, _, _, region', counted, isOffset,
    isStride _ rfl⟩

/-- Slicing rows in range gives rows. -/
theorem PicksRows.slice {s t : Signal} {first step count i j k id : Nat}
    {start stop stride : Number} {name? : Option String} (picks : s.PicksRows first step count)
    (isStart : start.Denotes i) (isStop : stop.Denotes j) (isStep : stride.Denotes k)
    (ascending : i ≤ j) (inRange : j ≤ count) (positive : 0 < k)
    (exact : s.base.Reaches (step * k)) (made : s.slice id start stop stride name? = .ok t) :
    t.PicksRows (first + i * step) (step * k) ((j - i + k - 1) / k) := by
  obtain ⟨leading, offset, rowStride, region, -, isOffset, isRowStride⟩ := picks.region
  obtain ⟨-, -, region'⟩ := slice_eq_ok region made
  have start_lt := picks.range.start_lt (ascending.trans inRange)
  have step_le : step ≤ step * k := Nat.le_mul_of_pos_right _ positive
  have stride_le : k ≤ step * k := Nat.le_mul_of_pos_left _ picks.range.positive
  have reach : Shape.leading s.base.extents + step * k < 2 ^ 53 :=
    (Nat.le_mul_of_pos_right _ (Shape.bulk_pos _)).trans_lt exact
  have reach' :
      (Shape.leading s.base.extents + step * k) * (Shape.tail s.base.extents).prod < 2 ^ 53 :=
    (Nat.mul_le_mul_left _ (Shape.prod_le_bulk _)).trans_lt exact
  refine picks.slice_of_exact isStart isStop isStep (isStep.isBinary64 (by omega)) ascending inRange
    positive (by omega) ?_ ?_ made
  · rw [Signal.offset, region']
    generalize Shape.leading s.base.extents = rows at *
    generalize (Shape.tail s.base.extents).prod = width at *
    have total : (first + i * step) * width ≤ (rows + step * k) * width :=
      Nat.mul_le_mul_right _ (by omega)
    have split : (first + i * step) * width = first * width + i * (step * width) := by
      rw [Nat.add_mul, Nat.mul_assoc]
    rw [split] at total ⊢
    exact isOffset.add (isStart.mul isRowStride (by omega)) (by omega)
  · rw [Signal.strides, region']
    intro x member
    cases member
    generalize Shape.leading s.base.extents = rows at *
    generalize (Shape.tail s.base.extents).prod = width at *
    have total : step * k * width ≤ (rows + step * k) * width :=
      Nat.mul_le_mul_right _ (by omega)
    have split : step * k * width = step * width * k := Nat.mul_right_comm step k width
    rw [split] at total ⊢
    exact isRowStride.mul isStep (by omega)

theorem RowSlice.picksRows {s : Signal} {step : Nat} (sliced : s.RowSlice step)
    (shaped : s.base.extents ≠ []) (small : Shape.bulk s.base.extents < 2 ^ 53) :
    ∃ first count, s.PicksRows first step count := by
  induction sliced with
  | base b => exact ⟨0, _, picksRows_ofBase shaped small⟩
  | @slice s t step i j k rows _ _ _ _ _ sliced leading isStart isStop isStep ascending inRange
      positive exact made ih =>
    rw [slice_base made] at shaped small
    obtain ⟨first, count, picks⟩ := ih shaped small
    obtain ⟨extent, offset, stride, region, isCount, -⟩ := picks.region
    have extent_eq : Shape.leading s.shape = extent := congrArg (Shape.leading ·.shape) region
    rw [extent_eq] at leading
    rw [leading.unique isCount] at inRange
    exact ⟨_, _, picks.slice isStart isStop isStep ascending inRange positive exact made⟩

/-- Scalars have no slices. -/
theorem RowSlice.eq_ofBase {s : Signal} {step : Nat} (sliced : s.RowSlice step)
    (scalar : s.base.extents = []) : s = ofBase s.base := by
  induction sliced with
  | base b => rfl
  | @slice s t step i j k rows id start stop stride name? sliced leading isStart isStop isStep
      ascending inRange positive exact made ih =>
    rw [slice_base made] at scalar
    have shape : s.shape = [] := by
      rw [ih scalar]
      exact List.map_eq_nil_iff.1 scalar
    rw [Signal.slice, shape] at made
    cases made

theorem PicksRows.initialValue_eq {s : Signal} {first step count : Nat}
    (picks : s.PicksRows first step count) (small : Shape.bulk s.base.extents < 2 ^ 53)
    (isView : s.isView = true) :
    s.initialValue = (Shape.rowPositions (Shape.tail s.base.extents).prod
      ((List.range count).map (first + · * step))).map s.base.value? := by
  obtain ⟨leading, offset, stride, region, isCount, isOffset, isStride⟩ := picks.region
  have extents := s.base.denotes_extents
  have range := picks.range
  have shaped := picks.shaped
  rw [initialValue_of_isView isView, region]
  apply s.base.map_valueAt?
  generalize s.base.shape = shape at extents
  generalize s.base.extents = ns at extents small range shaped isOffset isStride
  cases extents with
  | nil => cases shaped rfl
  | cons _ rest =>
    exact Region.forall₂_elements_rows isCount rest isOffset isStride range.positive range.inside
      small

/-! ## Reshaped bases -/

/-- The signal is a whole base under another shape, which has natural extents. -/
inductive Reshaped : Signal → Prop
  | of {b : Base} {id : Nat} {shape : List Number} {ns : List Nat} {name? : Option String}
      {t : Signal} (extents : Shape.Denotes shape ns) (exact : Shape.bulk ns < 2 ^ 53)
      (made : (ofBase b).reshape id shape name? = .ok t) : Reshaped t

theorem reshape_eq_ok {s t : Signal} {id : Nat} {shape : List Number} {name? : Option String}
    (success : s.reshape id shape name? = .ok t) :
    t.base = s.base ∧ t.isView = true ∧ t.region = ⟨shape, s.offset, Shape.rowMajor shape⟩ ∧
      (Shape.size shape).same s.size = true ∧ s.isContiguous = true := by
  unfold reshape at success
  split at success
  case isTrue => cases success
  case isFalse same =>
    split at success
    case isTrue => cases success
    case isFalse contiguous =>
      obtain ⟨base, region, isView⟩ := Base.view_eq_ok success
      rw [Bool.not_eq_true', Bool.not_eq_false] at same contiguous
      exact ⟨base, isView, region, same, contiguous⟩

theorem Reshaped.initialValue_eq {s : Signal} (reshaped : s.Reshaped)
    (small : Shape.bulk s.base.extents < 2 ^ 53) :
    s.initialValue = (List.range s.base.extents.prod).map s.base.value? := by
  obtain ⟨extents, exact, made⟩ := reshaped
  obtain ⟨base, isView, region, same, -⟩ := reshape_eq_ok made
  rw [base] at small ⊢
  rw [initialValue_of_isView isView, region, base]
  have count := ((Shape.denotes_size extents exact).same_iff
    (Shape.denotes_size (Base.denotes_extents _) small)).1 same
  rw [← count]
  exact Base.map_valueAt? _ (Region.forall₂_elements_whole extents exact)

end Signal

end BatchGraph
