import BatchGraph.Proofs.Layout.Inversion
import BatchGraph.Proofs.Number.Monotone

/-!
Rows for sliced and reshaped views.

From rows that show a base (`Rows.Shows`) come rows that show its views: for a view of as many
elements as the base the same rows under another shape, for any other slice the rows that it picks
(`PicksRows.exists_viewRows`, `Reshaped.exists_viewRows`).
-/

namespace BatchGraph

namespace Rows

variable {r : Rows} {f : Nat → Option Number}

/-! ## Picking rows -/

theorem index_eq_ok {rows position : Nat} {x : Number} (indices : r.indices = (List.range rows).map f)
    (denotes : x.Denotes position) (inside : position < rows) : r.index x = .ok (f position) := by
  have notBefore : x.lt 0 = false := by
    rw [Bool.eq_false_iff, Ne, denotes.lt_iff Number.denotes_zero]
    omega
  have notBehind : (Number.count r.count).le x = false := by
    rw [Bool.eq_false_iff, Ne, (Number.denotes_count r.count).le_iff denotes, count, indices,
      List.length_map, List.length_range]
    omega
  have found : r.indices[position]? = some (f position) := by
    rw [indices, List.getElem?_map, List.getElem?_range inside]
    rfl
  rw [index, notBefore, notBehind, denotes.toNat?_eq, Option.bind_some, found]
  rfl

/-- Rows whose positions are counted exactly are picked. -/
theorem pick_eq_ok {rows : Nat} {x stride : Number} {position : Nat → Nat}
    (indices : r.indices = (List.range rows).map f) (k count : Nat)
    (denotes : ∀ j < k + count, (x + Number.ofNat j * stride).Denotes (position j))
    (inside : ∀ j < k + count, position j < rows) :
    r.pick x stride k count = .ok ((List.range' k count).map fun j => f (position j)) := by
  induction count generalizing k with
  | zero => rfl
  | succ count ih =>
    rw [pick, index_eq_ok indices (denotes k (by omega)) (inside k (by omega)), Except.ok_bind,
      ih (k + 1) (fun j less => denotes j (by omega)) (fun j less => inside j (by omega)),
      Except.ok_bind]
    rfl

end Rows

namespace Signal

/-! ## Contiguous regions -/

/-- Rows without gaps, or at most one row. -/
theorem isContiguous_rows {leading offset stride : Number} {inner : List Number} {ns : List Nat}
    (extents : Shape.Denotes inner ns) (small : Shape.bulk ns < 2 ^ 53)
    (axis : leading.le 1 = true ∨ stride.same (Shape.span inner) = true) :
    Region.isContiguous ⟨leading :: inner, offset, stride :: Shape.rowMajor inner⟩ = true := by
  have rowMajor := Shape.denotes_rowMajor extents small
  have inside : (Region.mk inner offset (Shape.rowMajor inner)).isContiguous = true :=
    Region.isContiguous_of_same (Shape.same_of_denotes rowMajor rowMajor)
  simp only [Region.isContiguous, Shape.rowMajor, List.zip_cons_cons, List.all_cons,
    Bool.and_eq_true, Bool.or_eq_true] at inside ⊢
  exact ⟨axis, inside⟩

theorem isContiguous_whole {shape : List Number} {ns : List Nat} (extents : Shape.Denotes shape ns)
    (small : Shape.bulk ns < 2 ^ 53) : (Region.whole shape).isContiguous = true := by
  cases extents with
  | nil => rfl
  | @cons _ n _ ns _ rest =>
    have small' := (Shape.bulk_le_cons n ns).trans_lt small
    have span := Shape.denotes_span rest small'
    exact isContiguous_rows rest small' (.inr (span.same_self))

/-! ## Whole bases under another shape -/

variable {s : Signal} {start : Nat} {base : Rows}

/-- Both have as many elements, so the rows of the base can be reshaped. -/
theorem IsWhole.viewRows_eq_ok (whole : s.IsWhole)
    (shape : base.shape = Shape.normalized s.base.shape) :
    s.viewRows base = .ok { base with shape := Shape.normalized s.shape, label := s.name } := by
  have size : (Shape.size (Shape.normalized s.shape)).same (Shape.size base.shape) = true := by
    rw [shape, Shape.size_normalized, Shape.size_normalized]
    exact whole.size
  rw [whole.viewRows_eq, Rows.reshape, size]
  rfl

theorem IsWhole.exists_viewRows (whole : s.IsWhole)
    (shows : base.Shows s.root start (List.range s.base.rows))
    (shape : base.shape = Shape.normalized s.base.shape)
    (values : s.initialValue = s.base.rowValues (List.range s.base.rows))
    (extents : ∃ ns, Shape.Denotes s.shape ns) (small : Shape.bulk s.base.extents < 2 ^ 53) :
    ∃ rows, s.viewRows base = .ok rows ∧ rows.key = base.key ∧
      rows.Shows s start (List.range s.base.rows) := by
  obtain ⟨ns, denotes⟩ := extents
  have own := Shape.denotes_normalized denotes
  refine ⟨_, whole.viewRows_eq_ok shape, rfl, shows.indices, shows.inside,
    Shape.same_of_denotes own own, shows.minibatched, ?_⟩
  rw [values]
  refine if_pos (Number.same_trans ?_ (by rw [Number.same_comm]; exact whole.size))
  have length : (s.base.rowValues (List.range s.base.rows)).length = s.base.extents.prod := by
    rw [Base.rowValues, List.length_map, Shape.length_rowPositions, List.length_range,
      s.base.prod_extents]
  rw [length]
  exact ((Number.denotes_ofNat ((Shape.prod_le_bulk _).trans_lt small)).same_iff
    (s.base.denotes_size small)).2 rfl

theorem Reshaped.exists_viewRows (reshaped : s.Reshaped)
    (shows : base.Shows s.root start (List.range s.base.rows))
    (shape : base.shape = Shape.normalized s.base.shape)
    (small : Shape.bulk s.base.extents < 2 ^ 53) :
    ∃ rows picked, s.viewRows base = .ok rows ∧ rows.key = base.key ∧
      rows.Shows s start picked ∧ picked.length ≤ s.base.rows := by
  have values := reshaped.initialValue_eq small
  rw [s.base.prod_extents, ← Shape.rowPositions_range] at values
  cases reshaped with
  | @of b id target ns name? _ extents exact made =>
    obtain ⟨isBase, -, region, size, -⟩ := reshape_eq_ok made
    have isShape : s.shape = target := congrArg Region.shape region
    have size' : s.size.same s.base.size = true := by
      rw [Signal.size, region, isBase]
      exact size
    have offset : s.offset.same 0 = true := by
      rw [Signal.offset, region]
      exact Number.denotes_zero.same_self
    have contiguous : s.isContiguous = true := by
      rw [Signal.isContiguous, region]
      exact isContiguous_whole extents exact
    have whole : s.IsWhole := ⟨size', offset, contiguous⟩
    obtain ⟨rows, success, key, shows⟩ :=
      whole.exists_viewRows shows shape values ⟨ns, isShape ▸ extents⟩ small
    exact ⟨rows, _, success, key, shows, List.length_range.le⟩

/-! ## Rows of a base -/

section PicksRows

variable {first step count : Nat}

theorem PicksRows.denotes_shape (picks : s.PicksRows first step count) :
    Shape.Denotes s.shape (count :: Shape.tail s.base.extents) := by
  obtain ⟨leading, offset, stride, region, isCount, -, -⟩ := picks.region
  rw [Signal.shape, region]
  exact .cons isCount (Shape.denotes_tail s.base.denotes_extents)

theorem PicksRows.denotes_size (picks : s.PicksRows first step count)
    (small : Shape.bulk s.base.extents < 2 ^ 53) : s.size.Denotes (count * s.base.width) := by
  have fits := Shape.bulk_cons_le_bulk_cons picks.range.count_le (Shape.tail s.base.extents)
  have extents : Shape.leading s.base.extents :: Shape.tail s.base.extents = s.base.extents := by
    have shaped := picks.shaped
    cases h : s.base.extents with
    | nil => exact absurd h shaped
    | cons _ _ => rfl
  rw [extents] at fits
  have size := Shape.denotes_size picks.denotes_shape (fits.trans_lt small)
  rwa [List.prod_cons] at size

/-- As many elements as the base has are all of them, in their order. -/
theorem PicksRows.eq_all (picks : s.PicksRows first step count)
    (same : count * s.base.width = s.base.rows * s.base.width) :
    s.base.width = 0 ∨ count = s.base.rows ∧ first = 0 ∧ (step = 1 ∨ count ≤ 1) := by
  rcases Nat.eq_zero_or_pos s.base.width with zero | positive
  · exact .inl zero
  · have all : count = s.base.rows := Nat.eq_of_mul_eq_mul_right positive same
    have range := picks.range
    rw [all] at range ⊢
    exact .inr ⟨rfl, range.eq_all⟩

theorem PicksRows.initialValue_of_all (picks : s.PicksRows first step count)
    (isView : s.isView = true) (same : count * s.base.width = s.base.rows * s.base.width)
    (small : Shape.bulk s.base.extents < 2 ^ 53) :
    s.initialValue = s.base.rowValues (List.range s.base.rows) := by
  rw [picks.initialValue_eq small isView, Base.rowValues]
  rcases picks.eq_all same with zero | ⟨isCount, -, -⟩
  · have none (rows : List Nat) : Shape.rowPositions s.base.width rows = [] := by
      apply List.eq_nil_of_length_eq_zero
      rw [Shape.length_rowPositions, zero, Nat.mul_zero]
    have none' : Shape.rowPositions (Shape.tail s.base.extents).prod
        ((List.range count).map (first + · * step)) = [] := none _
    rw [none', none]
  · have range := picks.range
    rw [isCount] at range ⊢
    have order : (List.range s.base.rows).map (first + · * step) = List.range s.base.rows :=
      range.map_range_eq
    rw [order]
    rfl

theorem PicksRows.isWhole (picks : s.PicksRows first step count)
    (same : count * s.base.width = s.base.rows * s.base.width)
    (small : Shape.bulk s.base.extents < 2 ^ 53) : s.IsWhole := by
  have all := picks.eq_all same
  have size : s.size.same s.base.size = true := by
    rw [(picks.denotes_size small).same_iff (s.base.denotes_size small), same, s.base.prod_extents]
  obtain ⟨leading, offset, stride, region, isCount, isOffset, isStride⟩ := picks.region
  have small' : Shape.bulk (Shape.tail s.base.extents) < 2 ^ 53 :=
    (Shape.bulk_tail_le _).trans_lt small
  have tail := Shape.denotes_tail s.base.denotes_extents
  refine ⟨size, ?_, ?_⟩
  · rw [Signal.offset, region]
    apply (isOffset.same_iff Number.denotes_zero).2
    rcases all with zero | ⟨-, zero, -⟩
    · exact (congrArg (first * ·) zero).trans (Nat.mul_zero first)
    · rw [zero, Nat.zero_mul]
  · rw [Signal.isContiguous, region]
    apply isContiguous_rows tail small'
    have span := isStride.same_iff (Shape.denotes_span tail small')
    rcases all with zero | ⟨-, -, one | few⟩
    · have zero' : (Shape.tail s.base.extents).prod = 0 := zero
      rw [zero'] at span
      exact .inr (span.2 (Nat.mul_zero step))
    · rw [one, Nat.one_mul] at span
      exact .inr (span.2 rfl)
    · exact .inl ((isCount.le_iff Number.denotes_one).2 few)

theorem drop_strides_root (s : Signal) :
    s.root.strides.drop 1 = Shape.rowMajor (Shape.tail s.base.shape) := by
  have strides : s.root.strides = Shape.rowMajor s.base.shape := rfl
  rw [strides]
  cases s.base.shape <;> rfl

/-- The rows of a signal that picks rows of its base, if those of the base begin at `start`. -/
def pickedRows (s : Signal) (base : Rows) (start first step count : Nat) : Rows :=
  { base with
    indices := (List.range count).map fun j => some (Number.count (start + (first + j * step)))
    shape := s.shape
    label := s.name }

theorem PicksRows.shows_pickedRows (picks : s.PicksRows first step count)
    (isView : s.isView = true) (minibatched : base.minibatched = s.base.minibatched)
    (small : Shape.bulk s.base.extents < 2 ^ 53) :
    (s.pickedRows base start first step count).Shows s start
      ((List.range count).map (first + · * step)) := by
  refine ⟨?_, ?_, ?_, minibatched, ?_⟩
  · rw [List.map_map]
    rfl
  · intro r member
    obtain ⟨j, less, rfl⟩ := List.mem_map.1 member
    exact picks.range.lt_rows (List.mem_range.1 less)
  · obtain ⟨leading, _, _, region, -⟩ := picks.region
    have isShape : s.shape = leading :: Shape.tail s.base.shape := congrArg Region.shape region
    have own := Shape.denotes_normalized picks.denotes_shape
    rw [pickedRows, isShape]
    rw [isShape] at own
    exact Shape.same_of_denotes own own
  · rw [picks.initialValue_eq small isView]
    refine broadcast_of_length (picks.denotes_size small) ?_ ?_
    · have fits : count * s.base.width ≤ s.base.rows * s.base.width :=
        Nat.mul_le_mul_right _ picks.range.count_le
      rw [← s.base.prod_extents] at fits
      exact (fits.trans (Shape.prod_le_bulk _)).trans_lt small
    · rw [List.length_map, Shape.length_rowPositions, List.length_map, List.length_range]
      rfl

theorem PicksRows.aligned (picks : s.PicksRows first step count)
    (differ : count * s.base.width ≠ s.base.rows * s.base.width)
    (small : Shape.bulk s.base.extents < 2 ^ 53) : s.Aligned := by
  have size : s.size.same s.base.size = false := by
    rw [Bool.eq_false_iff, Ne, (picks.denotes_size small).same_iff (s.base.denotes_size small),
      s.base.prod_extents]
    exact differ
  have positive := Base.width_pos differ
  have small' : Shape.bulk (Shape.tail s.base.extents) < 2 ^ 53 :=
    (Shape.bulk_tail_le _).trans_lt small
  have tail := Shape.denotes_tail s.base.denotes_extents
  have rowSize : (Shape.size (Shape.tail s.base.shape)).Denotes s.base.width :=
    Shape.denotes_size tail small'
  have rowMajor := Shape.denotes_rowMajor tail small'
  obtain ⟨leading, offset, stride, region, -, isOffset, isStride⟩ := picks.region
  have isShape : s.shape = leading :: Shape.tail s.base.shape := congrArg Region.shape region
  have isOffset' : s.offset = offset := congrArg Region.offset region
  have isStrides : s.strides = stride :: Shape.rowMajor (Shape.tail s.base.shape) :=
    congrArg Region.strides region
  refine ⟨size, ?_, ?_, ?_, ?_⟩
  · rw [isShape]
    exact Shape.same_of_denotes tail tail
  · rw [isStrides, s.drop_strides_root]
    exact Shape.same_of_denotes rowMajor rowMajor
  · rw [isOffset']
    exact (isOffset.isMultiple_iff rowSize).2 ⟨positive, Nat.dvd_mul_left _ _⟩
  · rw [isStrides]
    exact (isStride.isMultiple_iff rowSize).2 ⟨positive, Nat.dvd_mul_left _ _⟩

/-- The rows are whole numbers of rows behind the first one, also where the step is not counted
exactly because only one row is picked. -/
theorem PicksRows.denotes_position (picks : s.PicksRows first step count)
    (positive : 0 < s.base.width) (format : ∀ stride ∈ s.strides.head?, stride.isBinary64 = true)
    (small : Shape.bulk s.base.extents < 2 ^ 53) {j : Nat} (less : j < count) :
    (s.offset / Shape.size (Shape.tail s.base.shape) +
      Number.ofNat j * (s.strides.headD (Shape.size (Shape.tail s.base.shape)) /
        Shape.size (Shape.tail s.base.shape))).Denotes (first + j * step) := by
  have rowSize : (Shape.size (Shape.tail s.base.shape)).Denotes s.base.width :=
    Shape.denotes_size (Shape.denotes_tail s.base.denotes_extents)
      ((Shape.bulk_tail_le _).trans_lt small)
  have rows : s.base.rows < 2 ^ 53 := by
    have total := (Shape.prod_le_bulk _).trans_lt small
    rw [s.base.prod_extents] at total
    exact (Nat.le_mul_of_pos_right _ positive).trans_lt total
  have inside : first + j * step < s.base.rows := picks.range.lt_rows less
  have index : j ≤ j * step := Nat.le_mul_of_pos_right _ picks.range.positive
  obtain ⟨leading, offset, stride, region, -, isOffset, isStride⟩ := picks.region
  have isOffset' : s.offset = offset := congrArg Region.offset region
  have isStrides : s.strides = stride :: Shape.rowMajor (Shape.tail s.base.shape) :=
    congrArg Region.strides region
  have value : stride.value? = some (((step : Int) * s.base.width : Int) : Rat) := by
    rw [Number.Denotes] at isStride
    rw [isStride]
    norm_cast
  rw [isOffset']
  rw [isStrides] at format ⊢
  exact Number.denotes_div_add_mul_div isOffset value (format stride rfl) rowSize positive
    (by omega) (by omega) (by omega) (by push_cast; rfl)

theorem PicksRows.viewRows_of_some (picks : s.PicksRows first step count)
    (differ : count * s.base.width ≠ s.base.rows * s.base.width)
    (format : ∀ stride ∈ s.strides.head?, stride.isBinary64 = true)
    (shows : base.Shows s.root start (List.range s.base.rows))
    (shape : base.shape = Shape.normalized s.base.shape)
    (small : Shape.bulk s.base.extents < 2 ^ 53) :
    s.viewRows base = .ok (s.pickedRows base start first step count) := by
  obtain ⟨leading, _, _, region, isCount, -⟩ := picks.region
  have isShape : s.shape = leading :: Shape.tail s.base.shape := congrArg Region.shape region
  have leading_eq : Shape.leading s.shape = leading := congrArg Shape.leading isShape
  have picked := Rows.pick_eq_ok shows.indices 0 count
    (fun j less => picks.denotes_position (Base.width_pos differ) format small (by omega))
    (fun j less => picks.range.lt_rows (by omega))
  rw [← List.range_eq_range'] at picked
  rw [(picks.aligned differ small).viewRows_eq, Rows.sliceRows, leading_eq, isCount.countBelow_eq,
    picked, shape, Shape.tail_normalized, pickedRows, isShape]
  rfl

/-- A stride that stays within reach is a number of the format. -/
theorem PicksRows.format_of_reaches (picks : s.PicksRows first step count)
    (reaches : s.base.Reaches step) : ∀ stride ∈ s.strides.head?, stride.isBinary64 = true := by
  obtain ⟨_, _, stride, region, -, -, isStride⟩ := picks.region
  have isStrides : s.strides.head? = some stride := congrArg (·.strides.head?) region
  intro other member
  rw [isStrides, Option.mem_some_iff] at member
  rw [← member]
  refine isStride.isBinary64 ?_
  calc step * (Shape.tail s.base.extents).prod
      ≤ (Shape.leading s.base.extents + step) * (Shape.tail s.base.extents).prod :=
        Nat.mul_le_mul_right _ (Nat.le_add_left _ _)
    _ ≤ (Shape.leading s.base.extents + step) * Shape.bulk (Shape.tail s.base.extents) :=
        Nat.mul_le_mul_left _ (Shape.prod_le_bulk _)
    _ < 2 ^ 53 := reaches

theorem PicksRows.exists_viewRows (picks : s.PicksRows first step count)
    (isView : s.isView = true) (reaches : s.base.Reaches step)
    (shows : base.Shows s.root start (List.range s.base.rows))
    (shape : base.shape = Shape.normalized s.base.shape)
    (small : Shape.bulk s.base.extents < 2 ^ 53) :
    ∃ rows picked, s.viewRows base = .ok rows ∧ rows.key = base.key ∧
      rows.Shows s start picked ∧ picked.length ≤ s.base.rows := by
  by_cases same : count * s.base.width = s.base.rows * s.base.width
  · obtain ⟨rows, success, key, shows⟩ := (picks.isWhole same small).exists_viewRows shows shape
      (picks.initialValue_of_all isView same small) ⟨_, picks.denotes_shape⟩ small
    exact ⟨rows, _, success, key, shows, List.length_range.le⟩
  · refine ⟨_, _, picks.viewRows_of_some same (picks.format_of_reaches reaches) shows shape small,
      rfl, picks.shows_pickedRows isView shows.minibatched small, ?_⟩
    rw [List.length_map, List.length_range]
    exact picks.range.count_le

end PicksRows

/-! ## Regular signals -/

/-- A base, rows sliced from one, or a whole base under another shape. -/
def Regular (s : Signal) : Prop := (∃ step, s.RowSlice step) ∨ s.Reshaped

theorem RowSlice.reaches {step : Nat} (sliced : s.RowSlice step) (isView : s.isView = true) :
    s.base.Reaches step := by
  cases sliced with
  | base b => cases isView
  | slice _ _ _ _ _ _ _ _ exact made =>
    rw [slice_base made]
    exact exact

/-- Views of a regular form have rows, and no more than their bases. -/
theorem Regular.exists_viewRows (regular : s.Regular) (isView : s.isView = true)
    (shows : base.Shows s.root start (List.range s.base.rows))
    (shape : base.shape = Shape.normalized s.base.shape)
    (small : Shape.bulk s.base.extents < 2 ^ 53) :
    ∃ rows picked, s.viewRows base = .ok rows ∧ rows.key = base.key ∧
      rows.Shows s start picked ∧ picked.length ≤ s.base.rows := by
  rcases regular with ⟨step, sliced⟩ | reshaped
  · have shaped : s.base.extents ≠ [] := by
      intro scalar
      rw [sliced.eq_ofBase scalar] at isView
      cases isView
    obtain ⟨first, count, picks⟩ := sliced.picksRows shaped small
    exact picks.exists_viewRows isView (sliced.reaches isView) shows shape small
  · exact reshaped.exists_viewRows shows shape small

end Signal

end BatchGraph
