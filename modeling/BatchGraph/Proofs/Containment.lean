import BatchGraph.Proofs.Addressing
import BatchGraph.Proofs.Number.Integer

/-!
What the elements of a slice are elements of.

A slice is computed from the geometry of what is sliced, but it is only kept inside the base.  As
long as its rows are rows of what is sliced, in particular if its bounds are in range, its elements
are elements of that, and in any case they are elements of the base (`slice_contained`).  A slice of
a view can have other rows, which are those that the base has next to the view (`slice_escapes`).

Offsets and strides that are integers are added up without rounding here.  The sum up to each axis is
the element at the first position of all further axes, which is inside the base, so that no sum has
become too large (`Base.Sized.exists_addressFrom`).
-/

namespace BatchGraph

/-! ## Elements of integer geometry -/

/-- Where the element under a cursor ought to be, starting from `a`. -/
def Shape.positionFrom (strides : List Number) (a : Int) (cursor : List Nat) : Int :=
  (cursor.zip strides).foldl (fun position (i, stride) => position + i * stride.integer) a

/-- The elements under all cursors are where they ought to be, if none is outside the base. -/
theorem Base.Sized.exists_addressFrom {b : Base} (sized : b.Sized) {shape strides : List Number}
    {ns : List Nat} (extents : Shape.Denotes shape ns) (rank : strides.length = shape.length)
    (integral : ∀ stride ∈ strides, stride.isInteger = true) (some_ : ns.prod ≠ 0)
    (few : ns.prod < 2 ^ 53) {x : Number} {a : Int} (lands : x.Lands a)
    (inside : ∀ cursor ∈ Shape.cursors shape,
      b.excludes (Shape.addressFrom strides x cursor) = false) :
    ∀ cursor ∈ Shape.cursors shape, ∃ p < b.extents.prod,
      (Shape.addressFrom strides x cursor).Denotes p ∧ p = Shape.positionFrom strides a cursor := by
  induction extents generalizing x a strides with
  | nil =>
    intro cursor member
    have outside := inside cursor member
    rw [List.mem_singleton.1 member] at outside ⊢
    obtain ⟨p, less, rfl⟩ := sized.exists_of_lands lands outside
    exact ⟨p, less, lands.denotes (less.trans sized.small), rfl⟩
  | @cons extent n inner ns first rest ih =>
    obtain ⟨stride, strides, rfl⟩ := List.exists_cons_of_length_eq_add_one rank
    rw [List.forall_mem_cons] at integral
    obtain ⟨⟨positive, small⟩, width, few⟩ := Shape.of_prod_cons some_ few
    have value := Number.value?_of_isInteger integral.1
    have fixed : ∀ other ∈ strides, (Number.ofNat 0 * other).Denotes 0 := fun other member =>
      Number.denotes_zero_mul (Number.value?_of_isInteger (integral.2 other member))
    -- The very first element tells that the start has not been rounded.
    obtain ⟨m, less, rfl⟩ := sized.exists_of_lands
      (Shape.lands_addressFrom_replicate (lands.add_denotes_zero (Number.denotes_zero_mul value))
        fixed inner.length)
      (inside _ (Shape.cons_mem_cursors (Shape.positions_pos extent)
        (Shape.replicate_mem_cursors inner)))
    have start := lands.denotes (less.trans sized.small)
    intro cursor member
    obtain ⟨i, isPosition, cursor, isInner, rfl⟩ := Shape.mem_cursors_cons_iff.1 member
    have below := isPosition
    rw [Shape.positions_eq first positive] at below
    have next := Number.lands_add_mul start (less.trans sized.small)
      (Number.denotes_ofNat (below.trans small)) value
    exact ih (by simpa using rank) integral.2 width few next
      (fun cursor member => inside _ (Shape.cons_mem_cursors isPosition member)) cursor isInner

theorem Shape.positionFrom_replicate (strides : List Number) (a : Int) (rank : Nat) :
    Shape.positionFrom strides a (List.replicate rank 0) = a := by
  induction strides generalizing a rank with
  | nil => rw [Shape.positionFrom, List.zip_nil_right, List.foldl_nil]
  | cons stride strides ih =>
    cases rank with
    | zero => rfl
    | succ rank => exact (ih (a + (0 : Nat) * stride.integer) rank).trans (by simp)

namespace Region

variable {r : Region} {b : Base} {x : Number} {ns : List Nat}

/-- The offset and the strides are integers. -/
structure IsIntegral (r : Region) : Prop where
  offset : r.offset.isInteger = true
  strides : ∀ stride ∈ r.strides, stride.isInteger = true

/-- A region of integer geometry that lies inside a base, and has elements. -/
structure Plotted (r : Region) (b : Base) (ns : List Nat) : Prop where
  sized : b.Sized
  extents : Shape.Denotes r.shape ns
  some_ : ns.prod ≠ 0
  few : ns.prod < 2 ^ 53
  rank : r.strides.length = r.shape.length
  integral : r.IsIntegral
  inside : ∀ x ∈ r.elements, b.excludes x = false

/-- Extents of a region with some elements, but not too many, are what they ought to be. -/
theorem denotes_of_mem_elements (extents : List.Forall₂ Number.Tracks r.shape ns)
    (countable : r.elements.length < 2 ^ 53) (member : x ∈ r.elements) :
    Shape.Denotes r.shape ns ∧ ns.prod ≠ 0 ∧ ns.prod < 2 ^ 53 := by
  have size : r.size.Tracks ns.prod := Shape.tracks_size extents
  have length := List.length_pos_of_mem member
  rw [length_elements] at countable length
  have some_ : ns.prod ≠ 0 := fun none => length.ne' (size.countBelow_eq_zero_iff.2 none)
  have few := size.lt_of_countBelow_lt countable
  refine ⟨?_, some_, few⟩
  clear size
  generalize r.shape = shape at extents
  induction extents with
  | nil => exact .nil
  | @cons extent n inner ns first _ ih =>
    obtain ⟨⟨positive, small⟩, width, few⟩ := Shape.of_prod_cons some_ few
    exact .cons (first.denotes small positive) (ih width few)

theorem plotted_of_mem (sized : b.Sized) (extents : List.Forall₂ Number.Tracks r.shape ns)
    (countable : r.elements.length < 2 ^ 53) (rank : r.strides.length = r.shape.length)
    (integral : r.IsIntegral) (inside : ∀ x ∈ r.elements, b.excludes x = false)
    (member : x ∈ r.elements) : r.Plotted b ns := by
  obtain ⟨extents, some_, few⟩ := denotes_of_mem_elements extents countable member
  exact ⟨sized, extents, some_, few, rank, integral, inside⟩

namespace Plotted

theorem mem_elements_iff (plotted : r.Plotted b ns) :
    x ∈ r.elements ↔ ∃ cursor ∈ Shape.cursors r.shape, r.address cursor = x :=
  Region.mem_elements_iff plotted.extents plotted.some_ plotted.few

/-- The elements are where they ought to be. -/
theorem exists_address (plotted : r.Plotted b ns) :
    ∀ cursor ∈ Shape.cursors r.shape, ∃ p < b.extents.prod, (r.address cursor).Denotes p ∧
      p = Shape.positionFrom r.strides r.offset.integer cursor :=
  plotted.sized.exists_addressFrom plotted.extents plotted.rank plotted.integral.strides
    plotted.some_ plotted.few
    (Number.lands_of_value (Number.value?_of_isInteger plotted.integral.offset))
    fun cursor member => plotted.inside _ (plotted.mem_elements_iff.2 ⟨cursor, member, rfl⟩)

theorem exists_of_mem (plotted : r.Plotted b ns) (member : x ∈ r.elements) :
    ∃ p < b.extents.prod, x.Denotes p := by
  obtain ⟨cursor, isCursor, rfl⟩ := plotted.mem_elements_iff.1 member
  obtain ⟨p, less, denotes, -⟩ := plotted.exists_address cursor isCursor
  exact ⟨p, less, denotes⟩

section Rows

variable {leading count offset stride start step : Number} {inner strides : List Number}
  {m c k : Nat} {i : Int}

theorem rows (plotted : Plotted ⟨leading :: inner, offset, strides⟩ b (m :: ns)) :
    leading.Denotes m ∧ 0 < m ∧ 0 < ns.prod := by
  obtain ⟨some_, width⟩ := Nat.mul_ne_zero_iff.1 plotted.some_
  exact ⟨(List.forall₂_cons.1 plotted.extents).1, Nat.pos_of_ne_zero some_, Nat.pos_of_ne_zero width⟩

theorem mem_cursors_iff (plotted : Plotted ⟨leading :: inner, offset, strides⟩ b (m :: ns))
    {cursor : List Nat} : cursor ∈ Shape.cursors (leading :: inner) ↔
      ∃ q < m, ∃ rest ∈ Shape.cursors inner, cursor = q :: rest := by
  obtain ⟨isLeading, positive, -⟩ := plotted.rows
  rw [Shape.mem_cursors_cons_iff, Shape.positions_eq isLeading positive]

/-- Each row begins inside the base. -/
theorem exists_row (plotted : Plotted ⟨leading :: inner, offset, stride :: strides⟩ b (m :: ns))
    {q : Nat} (less : q < m) :
    ∃ p < b.extents.prod, (p : Int) = offset.integer + q * stride.integer := by
  obtain ⟨p, inside, -, isPosition⟩ := plotted.exists_address
    (q :: List.replicate inner.length 0)
    (plotted.mem_cursors_iff.2 ⟨q, less, _, Shape.replicate_mem_cursors inner, rfl⟩)
  exact ⟨p, inside, isPosition.trans (Shape.positionFrom_replicate strides _ _)⟩

/-- Where the rows of a slice begin, if they are rows of what is sliced: nothing is rounded. -/
theorem row_eq (plotted : Plotted ⟨leading :: inner, offset, stride :: strides⟩ b (m :: ns))
    (isStart : start.value? = some (i : Rat)) (isStep : step.Denotes k)
    (rows : ∀ r < c, ∃ q < m, (q : Int) = i + r * k) {r : Nat} (less : r < c) :
    (offset + start * stride).integer + r * (stride * step).integer =
      offset.integer + (i + r * k) * stride.integer := by
  have isOffset := Number.value?_of_isInteger plotted.integral.offset
  have isStride : stride.isInteger = true := plotted.integral.strides stride List.mem_cons_self
  have row {r : Nat} (less : r < c) :
      ∃ p < 2 ^ 53, ((p : Nat) : Int) = offset.integer + (i + r * k) * stride.integer := by
    obtain ⟨q, inside, isRow⟩ := rows r less
    obtain ⟨p, isInside, isPosition⟩ := plotted.exists_row inside
    exact ⟨p, isInside.trans plotted.sized.small, by rw [isPosition, isRow]⟩
  have some_ : 0 < c := Nat.zero_lt_of_lt less
  obtain ⟨first, small, isFirst⟩ := row some_
  obtain ⟨p, small', isPosition⟩ := row less
  rw [Nat.cast_zero, zero_mul, add_zero] at isFirst
  have start_eq : (offset + start * stride).integer = offset.integer + i * stride.integer := by
    obtain ⟨q, inside, isRow⟩ := rows 0 some_
    rw [Nat.cast_zero, zero_mul, add_zero] at isRow
    obtain ⟨origin, isInside, isOrigin⟩ := plotted.exists_row (Nat.zero_lt_of_lt inside)
    rw [Nat.cast_zero, zero_mul, add_zero] at isOrigin
    rw [← isOrigin, Int.cast_natCast] at isOffset
    rw [← isRow, Int.cast_natCast] at isStart
    have lands := Number.lands_add_mul isOffset (isInside.trans plotted.sized.small) isStart
      (Number.value?_of_isInteger isStride)
    rw [isOrigin, isRow, ← isFirst] at lands
    rw [(lands.denotes small).integer_eq, isFirst]
  rcases Nat.eq_zero_or_pos r with rfl | positive
  · simp [start_eq]
  · have step_eq : step.integer = k := isStep.integer_eq
    have apart : (p : Int) - first = r * (stride.integer * step.integer) := by
      rw [isPosition, isFirst, step_eq]
      ring
    have exact : (stride.integer * step.integer).natAbs < 2 ^ 53 := by
      have least : (stride.integer * step.integer).natAbs ≤
          (r * (stride.integer * step.integer)).natAbs := by
        rw [Int.natAbs_mul r, Int.natAbs_natCast]
        exact Nat.le_mul_of_pos_left _ positive
      rw [← apart] at least
      omega
    rw [start_eq, Number.integer_mul isStride isStep.isInteger exact, step_eq]
    ring

/-- The elements of a slice whose rows are rows of what is sliced are elements of that. -/
theorem exists_mem_of_rows
    (plotted : Plotted ⟨leading :: inner, offset, stride :: strides⟩ b (m :: ns))
    (plotted' : Plotted ⟨count :: inner, offset + start * stride, stride * step :: strides⟩ b
      (c :: ns))
    (isStart : start.value? = some (i : Rat)) (isStep : step.Denotes k)
    (rows : ∀ r < c, ∃ q < m, (q : Int) = i + r * k) :
    ∀ x ∈ elements ⟨count :: inner, offset + start * stride, stride * step :: strides⟩,
      ∃ p, x.Denotes p ∧
        ∃ y ∈ elements ⟨leading :: inner, offset, stride :: strides⟩, y.Denotes p := by
  intro x member
  obtain ⟨cursor, isCursor, rfl⟩ := plotted'.mem_elements_iff.1 member
  obtain ⟨p, -, denotes, isPosition⟩ := plotted'.exists_address cursor isCursor
  obtain ⟨r, less, rest, isRest, rfl⟩ := plotted'.mem_cursors_iff.1 isCursor
  obtain ⟨q, inside, isRow⟩ := rows r less
  have isCursor' := plotted.mem_cursors_iff.2 ⟨q, inside, rest, isRest, rfl⟩
  obtain ⟨p', -, denotes', isPosition'⟩ := plotted.exists_address _ isCursor'
  have same : (p : Int) = p' := by
    refine isPosition.trans (Eq.trans ?_ isPosition'.symm)
    have start := plotted.row_eq isStart isStep rows less
    rw [← isRow] at start
    exact congrArg (Shape.positionFrom strides · rest) start
  rw [Nat.cast_inj.1 same] at denotes
  exact ⟨p', denotes, _, plotted.mem_elements_iff.2 ⟨_, isCursor', rfl⟩, denotes'⟩

end Rows

end Plotted

/-- Slicing integer geometry by integers gives integer geometry, unless it gives infinite numbers. -/
theorem IsIntegral.slice {leading count offset stride start step : Number}
    {inner strides : List Number}
    (integral : IsIntegral ⟨leading :: inner, offset, stride :: strides⟩)
    (isStart : start.isInteger = true) (isStep : step.isInteger = true)
    (isFinite : IsFinite ⟨count :: inner, offset + start * stride, stride * step :: strides⟩) :
    IsIntegral ⟨count :: inner, offset + start * stride, stride * step :: strides⟩ := by
  obtain ⟨isOffset, isStrides⟩ := integral
  obtain ⟨isStride, isStrides⟩ := List.forall_mem_cons.1 isStrides
  obtain ⟨finite, finite'⟩ := isFinite
  refine ⟨?_, List.forall_mem_cons.2 ⟨?_, isStrides⟩⟩
  · exact Number.isInteger_add isOffset
      (Number.isInteger_mul isStart isStride (Number.isSome_of_add finite)) finite
  · exact Number.isInteger_mul isStride isStep (finite' _ List.mem_cons_self)

end Region

/-! ## Slices -/

namespace Signal

variable {s t : Signal}

/-- The signal has an element at the position of the base. -/
def Addresses (s : Signal) (p : Nat) : Prop := ∃ x ∈ s.elements, x.Denotes p

/-- Every element of the other signal is an element of this one. -/
def Contains (s t : Signal) : Prop := ∀ x ∈ t.elements, ∃ p, x.Denotes p ∧ s.Addresses p

theorem forall₂_elements_root (sized : s.base.Sized) :
    List.Forall₂ Number.Denotes s.root.elements (List.range s.base.extents.prod) := by
  by_cases empty : s.base.extents.prod = 0
  · have none : s.root.elements = [] := by
      refine Region.elements_eq_nil ?_
      rw [← empty]
      exact sized.size
    rw [none, empty]
    exact .nil
  · refine Region.forall₂_elements_whole s.base.denotes_extents ?_
    rw [Shape.bulk_eq_prod empty]
    exact sized.small

theorem addresses_root (sized : s.base.Sized) {p : Nat} (less : p < s.base.extents.prod) :
    s.root.Addresses p := by
  obtain ⟨x, member, denotes⟩ := exists_partner (forall₂_elements_root sized).flip
    (List.mem_range.2 less)
  exact ⟨x, member, denotes⟩

/-- Views or not, no signal leaves its base. -/
theorem inside_of_sized (sized : s.base.Sized) : ∀ x ∈ s.elements, s.base.excludes x = false := by
  cases isView : s.isView with
  | true => exact inside_of_isView isView
  | false =>
    rw [eq_ofBase_of_not_isView isView]
    intro x member
    obtain ⟨p, isPosition, denotes⟩ := exists_partner (forall₂_elements_root sized) member
    exact sized.excludes_eq_false (.inr denotes) (List.mem_range.1 isPosition)

/-- Whatever the bounds are, the rows of a slice are counted, or there is no end to them, or their
count has no value. -/
theorem exists_tracks_sliceCount (start stop step : Number) :
    ∃ n, (sliceCount start stop step).Tracks n := by
  have integer (c : Int) : ∃ n, (Number.max 0 (.finite c)).Tracks n := by
    rcases le_or_gt 0 c with nonneg | negative
    · obtain ⟨n, rfl⟩ := Int.eq_ofNat_of_zero_le nonneg
      rw [Int.cast_natCast]
      exact ⟨_, (Number.denotes_zero.max (Number.denotes_finite n)).tracks⟩
    · have notAbove : ¬ (Number.finite 0).le (.finite c) = true := by
        rw [Number.finite_le_finite, not_le]
        exact_mod_cast negative
      have zero : (0 : Number) = .finite 0 := by decide +kernel
      have greater : Number.max (.finite 0) (.finite c) =
          if (Number.finite 0).lt (.finite c) then .finite c else .finite 0 := rfl
      rw [zero, greater, Number.lt, Bool.eq_false_iff.2 notAbove]
      exact ⟨0, (Number.denotes_finite 0).tracks⟩
  have none {x : Number} (zero : (Number.max 0 x).Denotes 0) : ∃ n, (Number.max 0 x).Tracks n :=
    ⟨0, zero.tracks⟩
  unfold sliceCount
  generalize (stop - start) / step = x
  cases x with
  | nan => exact ⟨0, .lost rfl rfl⟩
  | infinity negative =>
    cases negative with
    | true => exact none (by decide +kernel)
    | false => exact ⟨2 ^ 53, .large rfl le_rfl⟩
  | negativeZero => exact none (by decide +kernel)
  | finite q =>
    rw [Number.ceil]
    split
    · exact none (by decide +kernel)
    · exact integer q.ceil

/-- The rows of a slice in range are rows of what is sliced. -/
theorem InRange.row_lt {start stop step : Number} {i j k c r rows : Nat}
    (range : s.InRange start stop step i j k) (leading : (Shape.leading s.shape).Denotes rows)
    (small : rows < 2 ^ 53) (isCount : (sliceCount start stop step).Denotes c) (less : r < c) :
    i + r * k < rows := by
  have inRange := range.le leading
  have all := (RowRange.all rows).slice range.ascending inRange range.positive
  rw [Nat.mul_one, Nat.one_mul, Nat.zero_add] at all
  have count := isCount.unique (denotes_sliceCount range.isStart range.isStop range.isStep
    range.format_step range.ascending range.positive (inRange.trans_lt small))
  exact all.lt_rows (count ▸ less)

/-- A slice by integers of a signal whose geometry consists of integers.  Both have so few elements
that these are counted exactly, and nothing has become infinite. -/
structure SlicesIntegers (s t : Signal) (start stop step : Number) (i : Int) (k : Nat) : Prop where
  sized : s.base.Sized
  natural : s.shape.all Number.isNatural = true
  integral : s.region.IsIntegral
  countable : s.elements.length < 2 ^ 53
  isStart : start.value? = some (i : Rat)
  isStep : step.Denotes k
  made : ∃ id name?, s.slice id start stop step name? = .ok t
  countable' : t.elements.length < 2 ^ 53
  isFinite : t.region.IsFinite

namespace SlicesIntegers

variable {start stop step x : Number} {i : Int} {k : Nat}

theorem regions (slices : s.SlicesIntegers t start stop step i k) :
    ∃ leading inner stride strides, s.region = ⟨leading :: inner, s.offset, stride :: strides⟩ ∧
      t.region = ⟨sliceCount start stop step :: inner, s.offset + start * stride,
        stride * step :: strides⟩ ∧ t.base = s.base ∧ t.isView = true := by
  obtain ⟨id, name?, made⟩ := slices.made
  obtain ⟨leading, inner, stride, strides, region⟩ := exists_region_of_slice made
  obtain ⟨isBase, isView, region'⟩ := slice_eq_ok region made
  exact ⟨leading, inner, stride, strides, region, region', isBase, isView⟩

/-- A slice with elements has known extents, whatever its upper bound is. -/
theorem plotted (slices : s.SlicesIntegers t start stop step i k) (member : x ∈ t.elements) :
    t.region.Plotted s.base (t.count :: (Shape.tail s.shape).map Number.countBelow) := by
  obtain ⟨leading, inner, stride, strides, region, region', isBase, isView⟩ := slices.regions
  obtain ⟨c, tracks⟩ := exists_tracks_sliceCount start stop step
  have shape : s.shape = leading :: inner := congrArg Region.shape region
  have shape' : t.shape = sliceCount start stop step :: inner := congrArg Region.shape region'
  have rest := Shape.denotes_tail (denotes_shape slices.natural)
  rw [shape] at rest ⊢
  have integral' : t.region.IsIntegral := by
    have integral := slices.integral
    have isFinite := slices.isFinite
    rw [region] at integral
    rw [region'] at isFinite ⊢
    exact integral.slice (Number.isInteger_of_value slices.isStart) slices.isStep.isInteger isFinite
  have plotted : t.region.Plotted s.base (c :: inner.map Number.countBelow) := by
    refine Region.plotted_of_mem slices.sized ?_ slices.countable' t.length_strides integral' ?_
      member
    · rw [region']
      exact .cons tracks (rest.imp fun _ _ extent => extent.tracks)
    · rw [← isBase]
      exact inside_of_isView isView
  have count : t.count = c := by
    have extents := plotted.extents
    rw [region'] at extents
    rw [Signal.count, shape', Shape.leading, (List.forall₂_cons.1 extents).1.countBelow_eq]
  rwa [count]

/-- What has been sliced has elements, if its slice has some and it has rows. -/
theorem plotted_sliced (slices : s.SlicesIntegers t start stop step i k) (member : x ∈ t.elements)
    (some_ : 0 < s.count) :
    s.region.Plotted s.base (s.count :: (Shape.tail s.shape).map Number.countBelow) := by
  obtain ⟨leading, inner, stride, strides, region, -⟩ := slices.regions
  have shape : s.shape = leading :: inner := congrArg Region.shape region
  have width := (Nat.mul_ne_zero_iff.1 (slices.plotted member).some_).2
  have extents := denotes_shape slices.natural
  have few := prod_shape_lt slices.natural slices.countable
  have count : s.count = leading.countBelow := by rw [Signal.count, shape, Shape.leading]
  have split : s.shape.map Number.countBelow =
      s.count :: (Shape.tail s.shape).map Number.countBelow := by
    rw [count, shape]
    rfl
  rw [split] at extents few
  exact ⟨slices.sized, extents, Nat.mul_ne_zero some_.ne' width, few, s.length_strides,
    slices.integral, inside_of_sized slices.sized⟩

theorem contains_root (slices : s.SlicesIntegers t start stop step i k) : s.root.Contains t := by
  intro x member
  obtain ⟨p, less, denotes⟩ := (slices.plotted member).exists_of_mem member
  exact ⟨p, denotes, addresses_root slices.sized less⟩

theorem contains_of_rows (slices : s.SlicesIntegers t start stop step i k)
    (rows : ∀ r < t.count, ∃ m < s.count, (m : Int) = i + r * k) : s.Contains t := by
  intro x member
  have plotted' := slices.plotted member
  obtain ⟨leading, inner, stride, strides, region, region', -⟩ := slices.regions
  have isElement : x ∈ t.region.elements := member
  have isElements : s.elements = s.region.elements := rfl
  rw [region'] at plotted' isElement
  obtain ⟨m, less, -⟩ := rows 0 plotted'.rows.2.1
  have plotted := slices.plotted_sliced member (Nat.zero_lt_of_lt less)
  simp only [Addresses, isElements]
  rw [region] at plotted ⊢
  exact plotted.exists_mem_of_rows plotted' slices.isStart slices.isStep rows x isElement

theorem contains_of_inRange (slices : s.SlicesIntegers t start stop step i k) {m j : Nat}
    (range : s.InRange start stop step m j k) : s.Contains t := by
  intro x member
  have plotted := slices.plotted member
  obtain ⟨leading, inner, stride, strides, region, region', -⟩ := slices.regions
  rw [region'] at plotted
  obtain ⟨isCount, -, width⟩ := plotted.rows
  have few := prod_shape_lt slices.natural slices.countable
  rw [Shape.prod_eq, leading_map_shape, Shape.tail, ← List.map_drop] at few
  have isFirst : (m : Int) = i := by
    have value := range.isStart.symm.trans slices.isStart
    exact_mod_cast Option.some.inj value
  refine slices.contains_of_rows (fun r less => ⟨m + r * k, ?_, ?_⟩) x member
  · exact range.row_lt (denotes_leading slices.natural)
      ((Nat.le_mul_of_pos_right _ width).trans_lt few) isCount less
  · rw [← isFirst, Nat.cast_add, Nat.cast_mul]

end SlicesIntegers

/-- A slice that succeeds has elements of the base only, and elements of what is sliced only, if its
rows are rows of that, which they are if its bounds are in range. -/
theorem slice_contained {start stop step : Number} {i : Int} {k id : Nat} {name? : Option String}
    (sized : s.base.Sized) (natural : s.shape.all Number.isNatural = true)
    (integral : s.region.IsIntegral) (countable : s.elements.length < 2 ^ 53)
    (isStart : start.value? = some (i : Rat)) (isStep : step.Denotes k)
    (made : s.slice id start stop step name? = .ok t) (countable' : t.elements.length < 2 ^ 53)
    (isFinite : t.region.IsFinite) :
    s.root.Contains t ∧
      ((∀ r < t.count, ∃ m < s.count, (m : Int) = i + r * k) → s.Contains t) ∧
      ∀ m j, s.InRange start stop step m j k → s.Contains t := by
  have slices : s.SlicesIntegers t start stop step i k :=
    ⟨sized, natural, integral, countable, isStart, isStep, ⟨id, name?, made⟩, countable', isFinite⟩
  exact ⟨slices.contains_root, slices.contains_of_rows, fun _ _ => slices.contains_of_inRange⟩

open MemoryLayout in
/-- The middle row of the shelf, as the second one backwards. -/
def middle : Signal :=
  ⟨shelf, some ⟨2, "middle", ⟨[1, 2], 2, [-2, 1]⟩, rfl⟩, by decide +kernel⟩

open MemoryLayout in
theorem slice_contained_middle : (ofBase shelf).Contains middle ∧ backwards.Contains middle := by
  have range : backwards.InRange 1 2 1 1 2 1 := by constructor <;> decide +kernel
  obtain ⟨inBase, -, inView⟩ := slice_contained (s := backwards) (t := middle) (i := 1) (k := 1)
    ⟨by decide +kernel, by decide +kernel⟩ (by decide +kernel)
    ⟨by decide +kernel, by decide +kernel⟩ (by decide +kernel) (by decide +kernel)
    (by decide +kernel)
    (by decide +kernel : backwards.slice 2 1 2 1 (some "middle") = .ok middle)
    (by decide +kernel) (by decide +kernel)
  exact ⟨inBase, inView 1 2 range⟩

def sequence : Base :=
  ⟨0, "sequence", .float64, [6], [0, 1, 2, 3, 4, 5], false, false, by decide +kernel,
    .inr (by decide +kernel)⟩

/-- The first three elements. -/
def front : Signal :=
  ⟨sequence, some ⟨1, "front", ⟨[3], 0, [1]⟩, rfl⟩, by decide +kernel⟩

/-- The rows `2`, `3` and `4` of the front, which has no rows `3` and `4`. -/
def escaped : Signal :=
  ⟨sequence, some ⟨2, "escaped", ⟨[3], 2, [1]⟩, rfl⟩, by decide +kernel⟩

/-- A slice of a view has elements that the view has not, although the same slice of the rows of the
view is refused. -/
theorem slice_escapes :
    (ofBase sequence).slice 1 0 3 1 (some "front") = .ok front ∧
      front.slice 2 2 5 1 (some "escaped") = .ok escaped ∧ ¬ front.Contains escaped ∧
        Rows.sliceRows ⟨[some 0, some 1, some 2], 0, .float .double, [3], false, "front"⟩ 2 1
          ((5 - 2) / 1 : Number).ceil "escaped" = .error (.rowRange 3 "front" 3) := by
  refine ⟨by decide +kernel, by decide +kernel, fun contains => ?_, by decide +kernel⟩
  have three : Number.Denotes 3 3 := by decide +kernel
  obtain ⟨p, denotes, x, member, denotes'⟩ := contains 3 (by decide +kernel)
  obtain rfl := denotes.unique three
  have without : ∀ x ∈ front.elements, ¬ x.Denotes 3 := by decide +kernel
  exact without x member denotes'

end Signal

end BatchGraph
