import BatchGraph.Proofs.Layout.Geometry

/-!
Regions that nested slices and reshapes leave.

However slices and reshapes are nested, a region that has elements consists of rows without gaps
that lie at equal distances inside the array (`Region.Spans`).  Only its first axis has a stride of
its own, and that may be anything if there is one row: it has been multiplied with steps that led
out of the array, and is infinite at worst.  Slicing keeps this form (`Spans.slice`), and so does
reshaping, since a region without gaps is a single run (`Spans.reshape`).
-/

namespace BatchGraph

namespace Shape

/-! ## Runs of positions -/

/-- Positions in runs of equal width, one run from each start. -/
def runs (width : Nat) (starts : List Nat) : List Nat :=
  starts.flatMap fun a => (List.range width).map (a + ·)

theorem length_runs (width : Nat) (starts : List Nat) :
    (runs width starts).length = starts.length * width := by
  simp [runs, List.length_flatMap]

/-- Runs that follow one another are one run. -/
theorem runs_adjacent (first width count : Nat) :
    runs width ((List.range count).map (first + · * width)) =
      (List.range (count * width)).map (first + ·) := by
  rw [← rowPositions_range, rowPositions, runs, List.flatMap_map, List.map_flatMap]
  simp [Function.comp_def, Nat.add_assoc]

theorem runs_single (first width step : Nat) :
    runs width ((List.range 1).map (first + · * step)) = (List.range width).map (first + ·) := by
  simp [runs]

end Shape

/-! ## Rows without gaps -/

/-- A region of an array of `bound` elements that has elements: rows without gaps, the first one
from element `first` on and the others each `step` elements behind the one before. -/
structure Region.Spans (r : Region) (bound first step : Nat) (ns : List Nat) : Prop where
  extents : Shape.Denotes r.shape ns
  some_ : ns.prod ≠ 0
  fits : ns.prod ≤ bound
  rank : r.strides.length = r.shape.length
  offset : r.offset.MayDenote first
  stride : 1 < Shape.leading ns → ∀ stride ∈ r.strides.head?, stride.Denotes step
  inner : r.strides.drop 1 = Shape.rowMajor (Shape.tail r.shape)
  inside : ∀ k < Shape.leading ns, first + k * step + (Shape.tail ns).prod ≤ bound

namespace Region.Spans

variable {r : Region} {bound first step : Nat} {ns : List Nat}

/-- The elements, by their positions in the array. -/
def positions (first step : Nat) (ns : List Nat) : List Nat :=
  Shape.runs (Shape.tail ns).prod ((List.range (Shape.leading ns)).map (first + · * step))

theorem length_positions (first step : Nat) (ns : List Nat) :
    (positions first step ns).length = ns.prod := by
  rw [positions, Shape.length_runs, List.length_map, List.length_range, ← Shape.prod_eq]

theorem leading_pos (spans : r.Spans bound first step ns) : 0 < Shape.leading ns := by
  have some_ := spans.some_
  rw [Shape.prod_eq] at some_
  exact Nat.pos_of_ne_zero (Nat.mul_ne_zero_iff.1 some_).1

theorem width_pos (spans : r.Spans bound first step ns) : 0 < (Shape.tail ns).prod := by
  have some_ := spans.some_
  rw [Shape.prod_eq] at some_
  exact Nat.pos_of_ne_zero (Nat.mul_ne_zero_iff.1 some_).2

theorem lt_of_mem_positions (spans : r.Spans bound first step ns) :
    ∀ p ∈ positions first step ns, p < bound := by
  intro p member
  obtain ⟨a, isStart, isPosition⟩ := List.mem_flatMap.1 member
  obtain ⟨k, less, rfl⟩ := List.mem_map.1 isStart
  obtain ⟨m, less', rfl⟩ := List.mem_map.1 isPosition
  rw [List.mem_range] at less less'
  have := spans.inside k less
  omega

theorem denotes_size (spans : r.Spans bound first step ns) (small : bound < 2 ^ 53) :
    r.size.Denotes ns.prod := by
  apply Shape.denotes_size spans.extents
  rw [Shape.bulk_eq_prod spans.some_]
  exact spans.fits.trans_lt small

/-- A whole array of natural extents. -/
theorem whole {shape : List Number} (extents : Shape.Denotes shape ns) (some_ : ns.prod ≠ 0)
    (small : ns.prod < 2 ^ 53) :
    (Region.whole shape).Spans ns.prod 0 (Shape.tail ns).prod ns := by
  refine ⟨extents, some_, le_rfl, Shape.length_rowMajor _, .inr Number.denotes_zero, ?_, ?_, ?_⟩
  · intro _ stride member
    cases extents with
    | nil => cases member
    | @cons extent n inner ns _ rest =>
      cases member
      rw [← Shape.bulk_eq_prod some_] at small
      exact Shape.denotes_span rest ((Shape.bulk_le_cons n ns).trans_lt small)
  · cases shape <;> rfl
  · intro k less
    rw [Nat.zero_add, Shape.prod_eq ns]
    exact Shape.row_le less _

/-! ## Elements -/

/-- What is known of offset and strides in a relation that can be summed is known of the
elements. -/
theorem forall₂_elements {R : Number → Nat → Prop} (sum : Number.Summable R)
    (spans : r.Spans bound first step ns) (offset : R r.offset first)
    (fixed : ∀ stride ∈ r.strides, R (Number.ofNat 0 * stride) 0) (small : bound < 2 ^ 53) :
    List.Forall₂ R r.elements (positions first step ns) := by
  refine Region.forall₂_elements (by rw [length_positions]; exact spans.denotes_size small) ?_
  have positive := spans.leading_pos
  have width := spans.width_pos
  obtain ⟨extents, some_, fits, rank, -, isStride, inner, inside⟩ := spans
  obtain ⟨shape, x, strides⟩ := r
  cases extents with
  | nil =>
    have none : strides = [] := List.length_eq_zero_iff.1 rank
    have single : positions first step [] = [first] := by
      simp [positions, Shape.runs, Shape.leading, Shape.tail]
    rw [none, single]
    exact .cons offset .nil
  | @cons extent n innerShape ns isCount rest =>
    obtain ⟨stride, strides, rfl⟩ := List.exists_cons_of_length_eq_add_one rank
    obtain rfl : strides = Shape.rowMajor innerShape := inner
    rw [List.forall_mem_cons] at fixed
    have nonempty : ns.prod ≠ 0 := width.ne'
    have rows : n * ns.prod ≤ bound := fits
    have count : n ≤ n * ns.prod := Nat.le_mul_of_pos_right _ width
    have width_le : ns.prod ≤ n * ns.prod := Nat.le_mul_of_pos_left _ positive
    have own := Shape.denotes_rowMajor rest (by rw [Shape.bulk_eq_prod nonempty]; omega)
    rw [positions, Shape.runs, List.flatMap_map]
    refine Shape.forall₂_addresses_cons isCount positive fun k (less : k < n) => ?_
    have row : first + k * step + ns.prod ≤ bound := inside k less
    have next : R (Number.ofNat k * stride) (k * step) := by
      by_cases several : 1 < n
      · exact sum.of_denotes
          ((Number.denotes_ofNat (by omega)).mul (isStride several stride rfl) (by omega))
      · have zero : k = 0 := by omega
        rw [zero, Nat.zero_mul]
        exact fixed.1
    have start : R (x + Number.ofNat k * stride) (first + k * step) :=
      sum.add offset next (by omega)
    exact Shape.forall₂_addresses_of_contiguous sum start rest (Shape.length_rowMajor _) fixed.2
      (Region.isContiguous_of_same (Shape.same_of_denotes own own)) nonempty
      (row.trans_lt small)

theorem mayDenote_elements (spans : r.Spans bound first step ns) (small : bound < 2 ^ 53) :
    List.Forall₂ Number.MayDenote r.elements (positions first step ns) :=
  spans.forall₂_elements Number.summable_mayDenote spans.offset
    (fun stride _ => Number.denotes_zero.mayDenote_mul stride) small

theorem denotes_elements (spans : r.Spans bound first step ns) (small : bound < 2 ^ 53)
    (isFinite : r.IsFinite) : List.Forall₂ Number.Denotes r.elements (positions first step ns) := by
  refine spans.forall₂_elements Number.summable_denotes ?_ isFinite.fixed small
  refine spans.offset.resolve_left fun none => ?_
  have isNumber := isFinite.offset
  rw [none] at isNumber
  cases isNumber

/-! ## Slices -/

/-- Slicing rows in range leaves rows in range, if it leaves any. -/
theorem slice {leading offset stride first' step' count : Number} {inner strides : List Number}
    {m i j k : Nat} {ns : List Nat}
    (spans : Region.Spans ⟨leading :: inner, offset, stride :: strides⟩ bound first step (m :: ns))
    (isFirst : first'.Denotes i) (isStep : step'.Denotes k) (ascending : i < j) (inRange : j ≤ m)
    (positive : 0 < k) (isCount : count.Denotes ((j - i + k - 1) / k)) (small : bound < 2 ^ 53) :
    Region.Spans ⟨count :: inner, offset + first' * stride, stride * step' :: strides⟩ bound
      (first + i * step) (step * k) ((j - i + k - 1) / k :: ns) := by
  have range := (RowRange.all m).slice ascending.le inRange positive
  rw [Nat.mul_one, Nat.one_mul, Nat.zero_add] at range
  have some_ : 0 < (j - i + k - 1) / k := Nat.div_pos (by omega) positive
  have row (r : Nat) (less : r < m) : first + r * step + ns.prod ≤ bound := spans.inside r less
  have fits : m * ns.prod ≤ bound := spans.fits
  have width : 0 < ns.prod := spans.width_pos
  refine ⟨.cons isCount (List.forall₂_cons.1 spans.extents).2, ?_, ?_, spans.rank, ?_, ?_,
    spans.inner, ?_⟩
  · exact Nat.mul_ne_zero some_.ne' width.ne'
  · exact (Nat.mul_le_mul_right _ range.count_le).trans fits
  · refine spans.offset.add ?_ ?_
    · by_cases several : 1 < m
      · have isStride := spans.stride several stride rfl
        have := row i (by omega)
        exact .inr (isFirst.mul isStride (by omega))
      · have zero : i = 0 := by omega
        rw [zero] at isFirst ⊢
        rw [Nat.zero_mul]
        exact isFirst.mayDenote_mul stride
    · have := row i (by omega)
      omega
  · intro several x member
    cases member
    -- The second row is inside, and it is a step behind the first one.
    have second : i + k < m := by
      have := range.lt_rows several
      rwa [Nat.one_mul] at this
    have isStride := spans.stride (show 1 < m by omega) stride rfl
    have := row (i + k) second
    rw [Nat.add_mul, Nat.mul_comm k step] at this
    exact isStride.mul isStep (by omega)
  · intro r less
    have := row (i + r * k) (range.lt_rows less)
    have regroup : first + (i + r * k) * step = first + i * step + r * (step * k) := by ring
    rwa [regroup] at this

/-! ## Reshapes -/

/-- A region without gaps is a single run. -/
theorem positions_of_contiguous (spans : r.Spans bound first step ns)
    (contiguous : r.isContiguous = true) (small : bound < 2 ^ 53) :
    positions first step ns = (List.range ns.prod).map (first + ·) ∧ first + ns.prod ≤ bound := by
  have positive := spans.leading_pos
  have width := spans.width_pos
  obtain ⟨extents, some_, fits, rank, -, isStride, inner, inside⟩ := spans
  obtain ⟨shape, x, strides⟩ := r
  cases extents with
  | nil =>
    refine ⟨by simp [positions, Shape.runs, Shape.leading, Shape.tail], ?_⟩
    have := inside 0 positive
    rwa [Nat.zero_mul, Nat.add_zero] at this
  | @cons extent n innerShape ns isCount rest =>
    obtain ⟨stride, strides, rfl⟩ := List.exists_cons_of_length_eq_add_one rank
    simp only [Region.isContiguous, Shape.rowMajor, List.zip_cons_cons, List.all_cons,
      Bool.and_eq_true, Bool.or_eq_true] at contiguous
    have nonempty : ns.prod ≠ 0 := width.ne'
    have rows : n * ns.prod ≤ bound := fits
    have width_le : ns.prod ≤ n * ns.prod := Nat.le_mul_of_pos_left _ positive
    have span := Shape.denotes_span rest (by rw [Shape.bulk_eq_prod nonempty]; omega)
    rw [List.prod_cons]
    by_cases several : 1 < n
    · have natural := contiguous.1.resolve_left fun single => by
        have := (isCount.le_iff Number.denotes_one).1 single
        omega
      obtain rfl : step = ns.prod := ((isStride several stride rfl).same_iff span).1 natural
      refine ⟨Shape.runs_adjacent first ns.prod n, ?_⟩
      have last : first + (n - 1) * ns.prod + ns.prod ≤ bound := inside (n - 1) (show n - 1 < n by omega)
      have whole : (n - 1) * ns.prod + ns.prod = n * ns.prod := by
        rw [← Nat.succ_mul]
        congr 1
        omega
      omega
    · have single : n = 1 := by
        have : 0 < n := positive
        omega
      subst single
      rw [Nat.one_mul]
      refine ⟨Shape.runs_single first ns.prod step, ?_⟩
      have row : first + 0 * step + ns.prod ≤ bound := inside 0 one_pos
      rwa [Nat.zero_mul, Nat.add_zero] at row

/-- A region without gaps is one under any shape, with the same elements. -/
theorem reshape {shape : List Number} {ns' : List Nat} (spans : r.Spans bound first step ns)
    (contiguous : r.isContiguous = true) (extents : Shape.Denotes shape ns')
    (same : ns'.prod = ns.prod) (small : bound < 2 ^ 53) :
    Region.Spans ⟨shape, r.offset, Shape.rowMajor shape⟩ bound first (Shape.tail ns').prod ns' ∧
      positions first (Shape.tail ns').prod ns' = positions first step ns := by
  obtain ⟨run, inside⟩ := spans.positions_of_contiguous contiguous small
  have some_ : ns'.prod ≠ 0 := same ▸ spans.some_
  have whole := Region.Spans.whole extents some_
    (same ▸ spans.fits.trans_lt small)
  refine ⟨⟨extents, some_, same ▸ spans.fits, whole.rank, spans.offset, whole.stride, whole.inner,
    fun k less => ?_⟩, ?_⟩
  · have := whole.inside k less
    omega
  · rw [run, positions, Shape.runs_adjacent, ← Shape.prod_eq, same]

end Region.Spans

end BatchGraph
