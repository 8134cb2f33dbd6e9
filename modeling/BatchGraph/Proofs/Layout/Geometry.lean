import BatchGraph.Proofs.Layout.Entries
import BatchGraph.Proofs.Layout.View
import BatchGraph.Proofs.Region

/-!
Rows of views of any geometry.

A view may have any offset and any strides, as long as its elements lie inside its base.  If it is
given rows at all, then its elements are those of these rows, one row after the other, except that
some may be no numbers (`IsWhole.mayDenote_elements`, `Aligned.exists_steps`), and if it is not, it
is refused as unsupported (`exists_addresses`).  So the rows show the view, unless it has elements
without a value (`exists_shows`).
-/

namespace BatchGraph

namespace Base

variable {b : Base}

/-- A position without a value has the value of all elements, if there is a single one. -/
theorem valueAt?_nan (b : Base) :
    b.valueAt? .nan = none ∨ ∀ position, b.valueAt? position = b.valueAt? .nan := by
  unfold valueAt?
  split
  case h_1 => exact .inr fun _ => rfl
  case h_2 => exact .inl rfl

/-- The size of the base is exact. -/
structure Sized (b : Base) : Prop where
  size : b.size.Denotes b.extents.prod
  small : b.extents.prod < 2 ^ 53

/-- A base that can be broadcast has as many elements as its extents say, if these are few. -/
theorem sized_of_broadcast {values : List Number} (few : b.extents.prod < 2 ^ 53)
    (areValues : broadcast b.initial b.size = .ok values) :
    b.Sized ∧ values.length = b.extents.prod := by
  have tracks := b.tracks_size
  rcases of_broadcast_eq_ok areValues with ⟨same, rfl⟩ | ⟨-, denotes, -⟩
  · rw [Number.same_comm] at same
    have size := tracks.denotes_of_same few same
    exact ⟨⟨size, few⟩, (Number.tracks_ofNat _).eq_of_denotes (size.of_same same) few⟩
  · have self : b.size.same b.size = true := denotes.same_self
    have size := tracks.denotes_of_same few self
    exact ⟨⟨size, few⟩, denotes.unique size⟩

theorem Sized.row_lt (sized : b.Sized) {r : Nat} (inside : r < b.rows) :
    r * b.width + b.width < 2 ^ 53 := by
  refine (Shape.row_le inside b.width).trans_lt ?_
  rw [← b.prod_extents]
  exact sized.small

/-- An element of a base is not outside it, and neither is what is no number. -/
theorem Sized.excludes_eq_false (sized : b.Sized) {x : Number} {p : Nat} (position : x.MayDenote p)
    (inside : p < b.extents.prod) : b.excludes x = false := by
  rw [excludes, Bool.or_eq_false_iff]
  rcases position with rfl | denotes
  · exact ⟨rfl, by cases b.size <;> rfl⟩
  · rw [Bool.eq_false_iff, Bool.eq_false_iff, Ne, Ne, denotes.lt_iff Number.denotes_zero,
      sized.size.le_iff denotes]
    omega

/-- What has landed inside a base has landed at one of its elements. -/
theorem Sized.exists_of_lands (sized : b.Sized) {x : Number} {a : Int} (lands : x.Lands a)
    (inside : b.excludes x = false) : ∃ n < b.extents.prod, a = n := by
  rw [excludes, Bool.or_eq_false_iff] at inside
  obtain ⟨notBefore, notBehind⟩ := inside
  cases lands with
  | @inside k denotes small isNat =>
    refine ⟨k, ?_, isNat⟩
    by_contra behind
    rw [(sized.size.le_iff denotes).2 (not_lt.1 behind)] at notBehind
    cases notBehind
  | behind above =>
    have size : b.size.le (.finite (2 ^ 53 : Nat)) = true :=
      (sized.size.le_iff (Number.denotes_finite _)).2 sized.small.le
    rw [Number.le_trans size above] at notBehind
    cases notBehind
  | before below =>
    have zero : (Number.finite (-1)).le 0 = true := by decide +kernel
    have notZero : (0 : Number).le (.finite (-1)) = false := by decide +kernel
    have front : (0 : Number).le x = false := by
      rw [Bool.eq_false_iff]
      intro le
      rw [Number.le_trans le below] at notZero
      cases notZero
    rw [Number.lt, Number.le_trans below zero, front] at notBefore
    cases notBefore

end Base

namespace Signal

variable {s : Signal} {base rows : Rows} {start : Nat}

/-- The extents of a view are natural numbers, its strides are numbers of the format, and it has so
few elements that they are counted exactly. -/
structure Measured (s : Signal) : Prop where
  natural : s.shape.all Number.isNatural = true
  format : ∀ stride ∈ s.strides, stride.isBinary64 = true
  countable : s.elements.length < 2 ^ 53

theorem length_strides (s : Signal) : s.strides.length = s.shape.length := by
  obtain ⟨b, view?, inside⟩ := s
  cases view? with
  | none => exact Shape.length_rowMajor _
  | some v => exact v.same_rank

theorem inside_of_isView (isView : s.isView = true) :
    ∀ x ∈ s.elements, s.base.excludes x = false := by
  obtain ⟨b, view?, inside⟩ := s
  cases view? with
  | none => cases isView
  | some v => exact inside v rfl

theorem denotes_shape (natural : s.shape.all Number.isNatural = true) :
    Shape.Denotes s.shape (s.shape.map Number.countBelow) :=
  Shape.denotes_of_natural natural

/-- A signal whose elements are counted exactly has extents that are multiplied exactly. -/
theorem prod_shape_lt (natural : s.shape.all Number.isNatural = true)
    (countable : s.elements.length < 2 ^ 53) : (s.shape.map Number.countBelow).prod < 2 ^ 53 := by
  have length : s.elements.length = s.size.countBelow := Region.length_elements s.region
  rw [length] at countable
  exact (denotes_shape natural).tracks_size.lt_of_countBelow_lt countable

/-! ## Values -/

/-- Elements at known positions have the values at these positions, if all of them have values. -/
theorem initialValue_eq_map {ps : List Nat} (isView : s.isView = true)
    (elements : List.Forall₂ Number.MayDenote s.elements ps) (present : none ∉ s.initialValue) :
    s.initialValue = ps.map s.base.value? := by
  have isElements : s.region.elements = s.elements := rfl
  rw [initialValue_of_isView isView, isElements] at present ⊢
  generalize s.elements = xs at elements present
  induction elements with
  | nil => rfl
  | @cons x p xs ps first _ ih =>
    rw [List.map_cons, List.mem_cons, not_or] at present
    rw [List.map_cons, List.map_cons, ih present.2]
    rcases first with rfl | denotes
    · have value := s.base.valueAt?_nan.resolve_left fun missing => present.1 missing.symm
      rw [← value (.count p)]
      rfl
    · rw [s.base.valueAt?_of_denotes denotes]

/-- The values of a view of known size are not repeated. -/
theorem broadcast_initialValue {ps : List Nat} (isView : s.isView = true)
    (elements : List.Forall₂ Number.MayDenote s.elements ps) (present : none ∉ s.initialValue)
    (size : s.size.Denotes ps.length) (small : ps.length < 2 ^ 53) :
    broadcast s.initialValue s.size = .ok (ps.map s.base.value?) := by
  rw [initialValue_eq_map isView elements present]
  exact broadcast_of_length size small (List.length_map _)

/-! ## Whole bases under another shape -/

namespace IsWhole

theorem denotes_size (whole : s.IsWhole) (sized : s.base.Sized) :
    s.size.Denotes s.base.extents.prod :=
  sized.size.of_same (by rw [Number.same_comm]; exact whole.size)

theorem forall₂_elements {R : Number → Nat → Prop} (sum : Number.Summable R) (whole : s.IsWhole)
    (sized : s.base.Sized) (natural : s.shape.all Number.isNatural = true)
    (fixed : ∀ stride ∈ s.strides, R (Number.ofNat 0 * stride) 0) :
    List.Forall₂ R s.elements (List.range s.base.extents.prod) := by
  have extents := denotes_shape natural
  have size := whole.denotes_size sized
  have product := extents.tracks_size.eq_of_denotes size sized.small
  have offset : s.offset.Denotes 0 :=
    Number.denotes_zero.of_same (by rw [Number.same_comm]; exact whole.offset)
  rw [← product] at size ⊢
  have elements := Region.forall₂_elements_of_contiguous sum extents s.length_strides fixed
    whole.contiguous (sum.of_denotes offset) size (by rw [Nat.zero_add, product]; exact sized.small)
  simp only [Nat.zero_add, List.map_id_fun', id_eq] at elements
  exact elements

theorem mayDenote_elements (whole : s.IsWhole) (sized : s.base.Sized)
    (natural : s.shape.all Number.isNatural = true) :
    List.Forall₂ Number.MayDenote s.elements (List.range s.base.extents.prod) :=
  whole.forall₂_elements Number.summable_mayDenote sized natural fun stride _ =>
    Number.denotes_zero.mayDenote_mul stride

theorem denotes_elements (whole : s.IsWhole) (sized : s.base.Sized)
    (natural : s.shape.all Number.isNatural = true) (isFinite : s.region.IsFinite) :
    List.Forall₂ Number.Denotes s.elements (List.range s.base.extents.prod) :=
  whole.forall₂_elements Number.summable_denotes sized natural isFinite.fixed

end IsWhole

/-! ## Rows of a base -/

/-- How many rows a signal has. -/
def count (s : Signal) : Nat := (Shape.leading s.shape).countBelow

/-- The step along axis 0, that of a scalar being a row of its base. -/
def rowStride (s : Signal) : Number := s.strides.headD (Shape.size (Shape.tail s.base.shape))

theorem leading_map_shape (s : Signal) :
    Shape.leading (s.shape.map Number.countBelow) = s.count := by
  unfold count
  cases s.shape with
  | nil => decide +kernel
  | cons _ _ => rfl

theorem denotes_leading (natural : s.shape.all Number.isNatural = true) :
    (Shape.leading s.shape).Denotes s.count := by
  rw [← leading_map_shape]
  exact Shape.denotes_leading (denotes_shape natural)

/-- A view without rows has no elements, however large its rows are. -/
theorem denotes_size_zero (natural : s.shape.all Number.isNatural = true) (none : s.count = 0) :
    s.size.Denotes 0 := by
  have extents := denotes_shape natural
  unfold count at none
  unfold Signal.size Region.size
  change (Shape.size s.shape).Denotes 0
  cases shape : s.shape with
  | nil =>
    rw [shape] at none
    exact absurd none (by decide +kernel)
  | cons extent inner =>
    rw [shape] at extents none
    obtain ⟨first, rest⟩ := List.forall₂_cons.1 extents
    have noRows : extent.countBelow = 0 := none
    rw [noRows] at first
    have start := Number.denotes_one.mul first (by norm_num)
    have product := Shape.denotes_foldl_mul start rest (by norm_num)
    rwa [Nat.one_mul, Nat.zero_mul] at product

namespace Aligned

theorem width_pos (aligned : s.Aligned) : 0 < s.base.width :=
  Nat.pos_of_ne_zero (Number.ne_zero_of_isMultiple aligned.offset
    (Shape.denotes_tail s.base.denotes_extents).tracks_size)

theorem tail_eq (aligned : s.Aligned) (natural : s.shape.all Number.isNatural = true) :
    Shape.tail (s.shape.map Number.countBelow) = Shape.tail s.base.extents :=
  Shape.eq_of_same (Shape.denotes_tail (denotes_shape natural))
    (Shape.denotes_tail s.base.denotes_extents) aligned.tail

theorem prod_extents (aligned : s.Aligned)
    (natural : s.shape.all Number.isNatural = true) :
    (s.shape.map Number.countBelow).prod = s.count * s.base.width := by
  rw [Shape.prod_eq, aligned.tail_eq natural, leading_map_shape]
  rfl

theorem denotes_size (aligned : s.Aligned) (measured : s.Measured) :
    s.size.Denotes (s.count * s.base.width) ∧ s.count * s.base.width < 2 ^ 53 := by
  have extents := denotes_shape measured.natural
  have product := aligned.prod_extents measured.natural
  have small := prod_shape_lt measured.natural measured.countable
  rw [product] at small
  refine ⟨?_, small⟩
  rcases Nat.eq_zero_or_pos s.count with none | some_
  · rw [none, Nat.zero_mul]
    exact denotes_size_zero measured.natural none
  · have tracks : s.size.Tracks (s.count * s.base.width) := by
      rw [← product]
      exact extents.tracks_size
    exact tracks.denotes small (Nat.mul_pos some_ aligned.width_pos)

theorem denotes_rowSize (aligned : s.Aligned) (measured : s.Measured)
    (some_ : 0 < s.count) :
    (Shape.size (Shape.tail s.base.shape)).Denotes s.base.width ∧ s.base.width < 2 ^ 53 := by
  have small : s.base.width < 2 ^ 53 :=
    (Nat.le_mul_of_pos_left _ some_).trans_lt (aligned.denotes_size measured).2
  have tracks := (Shape.denotes_tail s.base.denotes_extents).tracks_size
  exact ⟨tracks.denotes small aligned.width_pos, small⟩

/-- The element under a cursor is one of the view, if it has any. -/
theorem address_mem (aligned : s.Aligned) (measured : s.Measured) (some_ : 0 < s.count)
    {cursor : List Nat} (isCursor : cursor ∈ Shape.cursors s.shape) :
    s.region.address cursor ∈ s.elements := by
  have nonempty := (Nat.mul_pos some_ aligned.width_pos).ne'
  rw [← aligned.prod_extents measured.natural] at nonempty
  exact (Region.mem_elements_iff (denotes_shape measured.natural) nonempty
    (prod_shape_lt measured.natural measured.countable)).2 ⟨cursor, isCursor, rfl⟩

/-- The rows of a view lie at whole numbers of rows of its base: each begins with an element of the
base, and the quotients by the size of a row are the positions that are picked. -/
structure Steps (s : Signal) (position : Nat → Nat) : Prop where
  inside : ∀ k < s.count, position k < s.base.rows
  elements : List.Forall₂ Number.Denotes s.elements
    (Shape.rowPositions s.base.width ((List.range s.count).map position))
  denotes : ∀ k < s.count, (s.offset / Shape.size (Shape.tail s.base.shape) +
    Number.ofNat k * (s.rowStride / Shape.size (Shape.tail s.base.shape))).Denotes (position k)

/-- A scalar view is one row of one element. -/
theorem exists_steps_of_scalar (aligned : s.Aligned) (measured : s.Measured)
    (sized : s.base.Sized) (isView : s.isView = true) (scalar : s.shape = []) :
    ∃ position, Steps s position := by
  have count : s.count = 1 := by
    rw [Signal.count, scalar]
    decide +kernel
  have tail : Shape.tail s.base.shape = [] := by
    have equal := aligned.tail
    rw [scalar, Shape.same_iff] at equal
    cases h : Shape.tail s.base.shape with
    | nil => rfl
    | cons _ _ =>
      rw [h] at equal
      cases equal
  have width : s.base.width = 1 := by
    have extents := aligned.tail_eq measured.natural
    rw [scalar] at extents
    rw [Base.width, ← extents]
    rfl
  have unit : (Shape.size (Shape.tail s.base.shape)).Denotes 1 := by
    rw [tail]
    decide +kernel
  have stride : s.rowStride = Shape.size (Shape.tail s.base.shape) := by
    have rank := s.length_strides
    rw [scalar] at rank
    rw [rowStride, List.length_eq_zero_iff.1 rank]
    rfl
  obtain ⟨-, a, offset⟩ := Number.exists_of_isMultiple aligned.offset unit
  have element : s.offset ∈ s.elements := by
    have isCursor : ([] : List Nat) ∈ Shape.cursors s.shape := by
      rw [scalar]
      exact List.mem_singleton_self _
    exact aligned.address_mem measured (count ▸ one_pos) isCursor
  obtain ⟨n, less, isNat⟩ := sized.exists_of_lands (Number.lands_of_value offset)
    (inside_of_isView isView _ element)
  have denotes : s.offset.Denotes n := by
    rw [isNat, Int.cast_natCast] at offset
    exact offset
  refine ⟨fun _ => n, fun k less' => ?_, ?_, fun k less' => ?_⟩
  · rwa [s.base.prod_extents, width, Nat.mul_one] at less
  · refine Region.forall₂_elements ?_ ?_
    · rw [Shape.length_rowPositions, List.length_map, List.length_range]
      exact (aligned.denotes_size measured).1
    · have isShape : s.region.shape = [] := scalar
      have single : Shape.rowPositions s.base.width ((List.range s.count).map fun _ => n) = [n] := by
        rw [count, width]
        simp [Shape.rowPositions]
      rw [isShape, single]
      exact .cons denotes .nil
  · have zero : k = 0 := by omega
    have whole := unit.div (m := 1) unit one_pos (by norm_num)
    have first := Number.Denotes.div (m := n) (by rwa [Nat.mul_one]) unit one_pos
      (less.trans sized.small)
    rw [zero, stride]
    exact first.add (Number.denotes_zero_mul whole) (less.trans sized.small)

/-- A row inside the base begins with one of its elements. -/
theorem exists_of_row (aligned : s.Aligned) (measured : s.Measured) (sized : s.base.Sized)
    (isView : s.isView = true) {extent stride : Number} {inner strides : List Number}
    (isShape : s.shape = extent :: inner) (isStrides : s.strides = stride :: strides)
    (fixed : ∀ other ∈ strides, (Number.ofNat 0 * other).Denotes 0) {k : Nat}
    (less : k < s.count) {a : Int} (lands : (s.offset + Number.ofNat k * stride).Lands a) :
    ∃ n < s.base.extents.prod, a = n := by
  have isCursor : k :: List.replicate inner.length 0 ∈ Shape.cursors s.shape := by
    rw [isShape]
    refine Shape.cons_mem_cursors ?_ (Shape.replicate_mem_cursors inner)
    have below : k < extent.countBelow := by rwa [Signal.count, isShape] at less
    exact below.trans_le (Nat.le_max_right 1 _)
  have address : s.region.address (k :: List.replicate inner.length 0) =
      Shape.addressFrom strides (s.offset + Number.ofNat k * stride)
        (List.replicate inner.length 0) := by
    have isStrides' : s.region.strides = stride :: strides := isStrides
    rw [Region.address, isStrides']
    rfl
  have element := aligned.address_mem measured (Nat.zero_lt_of_lt less) isCursor
  rw [address] at element
  exact sized.exists_of_lands (Shape.lands_addressFrom_replicate lands fixed _)
    (inside_of_isView isView _ element)

theorem denotes_inner (aligned : s.Aligned) (natural : s.shape.all Number.isNatural = true)
    {extent : Number} {inner : List Number} (isShape : s.shape = extent :: inner) :
    Shape.Denotes inner (Shape.tail s.base.extents) := by
  have extents := Shape.denotes_tail (denotes_shape natural)
  rwa [aligned.tail_eq natural, isShape] at extents

/-- The inner strides of a view of whole rows are those of its base. -/
theorem inner_strides (aligned : s.Aligned) (measured : s.Measured) (some_ : 0 < s.count)
    {extent stride : Number} {inner strides : List Number} (isShape : s.shape = extent :: inner)
    (isStrides : s.strides = stride :: strides) :
    (∀ other ∈ strides, (Number.ofNat 0 * other).Denotes 0) ∧
      Shape.same strides (Shape.rowMajor inner) = true := by
  have small := (aligned.denotes_rowSize measured some_).2
  have tail := Shape.denotes_tail s.base.denotes_extents
  have bulk : Shape.bulk (Shape.tail s.base.extents) < 2 ^ 53 := by
    rwa [Shape.bulk_eq_prod aligned.width_pos.ne']
  have whole := Shape.denotes_rowMajor tail bulk
  have own := aligned.denotes_inner measured.natural isShape
  have equal := aligned.inner
  rw [s.drop_strides_root, isStrides, List.drop_one, List.tail_cons] at equal
  refine ⟨fun other member => ?_, ?_⟩
  · obtain ⟨natural, isStride, same⟩ := exists_partner (Shape.same_iff.1 equal) member
    obtain ⟨n, -, denotes⟩ := exists_partner whole isStride
    exact Number.denotes_zero_mul (denotes.of_same (by rwa [Number.same_comm]))
  · exact Shape.same_trans equal (Shape.same_of_denotes whole (Shape.denotes_rowMajor own bulk))

/-- Where the rows of a view begin, counted in elements of the base. -/
theorem exists_rows (aligned : s.Aligned) (measured : s.Measured) (sized : s.base.Sized)
    (isView : s.isView = true) (some_ : 0 < s.count) {extent stride : Number}
    {inner strides : List Number} (isShape : s.shape = extent :: inner)
    (isStrides : s.strides = stride :: strides) :
    ∃ (a : Nat) (t : Int) (position : Nat → Nat), s.offset.Denotes (a * s.base.width) ∧
      stride.value? = some ((t * s.base.width : Int) : Rat) ∧
      ∀ k < s.count, position k < s.base.rows ∧ (a + k * t : Int) = position k ∧
        (s.offset + Number.ofNat k * stride).Denotes (position k * s.base.width) := by
  obtain ⟨unit, -⟩ := aligned.denotes_rowSize measured some_
  have positive := aligned.width_pos
  have total := s.base.prod_extents
  have few : s.count < 2 ^ 53 :=
    (Nat.le_mul_of_pos_right _ positive).trans_lt (aligned.denotes_size measured).2
  obtain ⟨fixed, -⟩ := aligned.inner_strides measured some_ isShape isStrides
  have wholeStride := aligned.stride
  rw [isStrides, List.headD_cons] at wholeStride
  obtain ⟨-, a, offset⟩ := Number.exists_of_isMultiple aligned.offset unit
  obtain ⟨-, t, step⟩ := Number.exists_of_isMultiple wholeStride unit
  have row {k : Nat} (less : k < s.count) {b : Int}
      (lands : (s.offset + Number.ofNat k * stride).Lands (b * s.base.width)) :
      ∃ r < s.base.rows, b = r := by
    obtain ⟨n, inside, isNat⟩ := aligned.exists_of_row measured sized isView isShape isStrides fixed
      less lands
    have nonneg : 0 ≤ b := by
      have positive' : (0 : Int) < s.base.width := by exact_mod_cast positive
      by_contra negative
      have := mul_neg_of_neg_of_pos (not_le.1 negative) positive'
      omega
    obtain ⟨r, rfl⟩ := Int.eq_ofNat_of_zero_le nonneg
    refine ⟨r, ?_, rfl⟩
    have equal : r * s.base.width = n := by exact_mod_cast isNat
    rw [← equal, total] at inside
    exact Nat.lt_of_mul_lt_mul_right inside
  have exact {r : Nat} (inside : r < s.base.rows) : r * s.base.width < 2 ^ 53 :=
    (Nat.le_add_right _ _).trans_lt (sized.row_lt inside)
  -- The first row shows that the offset is exact, and the others follow from there.
  obtain ⟨first, inside, rfl⟩ := row some_
    ((Number.lands_of_value offset).add_denotes_zero (Number.denotes_zero_mul step))
  have start : s.offset.Denotes (first * s.base.width) := by exact_mod_cast offset
  have lands {k : Nat} (less : k < s.count) :
      (s.offset + Number.ofNat k * stride).Lands ((first + k * t) * s.base.width) := by
    have sum := Number.lands_add_mul start (exact inside) (Number.denotes_ofNat (less.trans few)) step
    rwa [Nat.cast_mul, ← mul_assoc, ← add_mul] at sum
  refine ⟨first, t, fun k => (first + k * t : Int).toNat, start, step, fun k less => ?_⟩
  obtain ⟨r, inside', sum⟩ := row less (lands less)
  have landed := lands less
  rw [sum, ← Nat.cast_mul] at landed
  dsimp only
  rw [sum, Int.toNat_natCast]
  exact ⟨inside', rfl, landed.denotes (exact inside')⟩

/-- Views of whole rows step over rows of their base. -/
theorem exists_steps (aligned : s.Aligned) (measured : s.Measured) (sized : s.base.Sized)
    (isView : s.isView = true) : ∃ position, Steps s position := by
  cases isShape : s.shape with
  | nil => exact aligned.exists_steps_of_scalar measured sized isView isShape
  | cons extent inner =>
    have rank := s.length_strides
    rw [isShape, List.length_cons] at rank
    obtain ⟨stride, strides, isStrides⟩ := List.exists_cons_of_length_eq_add_one rank
    rcases Nat.eq_zero_or_pos s.count with none | some_
    · have elements : s.elements = [] :=
        Region.elements_eq_nil (denotes_size_zero measured.natural none)
      refine ⟨fun _ => 0, fun k less => ?_, ?_, fun k less => ?_⟩
      · omega
      · rw [elements, none]
        exact .nil
      · omega
    obtain ⟨first, t, position, offset, step, each⟩ :=
      aligned.exists_rows measured sized isView some_ isShape isStrides
    obtain ⟨unit, -⟩ := aligned.denotes_rowSize measured some_
    obtain ⟨fixed, equal⟩ := aligned.inner_strides measured some_ isShape isStrides
    have positive := aligned.width_pos
    obtain ⟨size, few⟩ := aligned.denotes_size measured
    have few' : s.count < 2 ^ 53 := (Nat.le_mul_of_pos_right _ positive).trans_lt few
    have fits {k : Nat} (less : k < s.count) := sized.row_lt (each k less).1
    have bound {k : Nat} (less : k < s.count) : position k < 2 ^ 53 := by
      have below := Nat.le_mul_of_pos_right (position k) positive
      have := fits less
      omega
    refine ⟨position, fun k less => (each k less).1, ?_, fun k less => ?_⟩
    · refine Region.forall₂_elements ?_ ?_
      · rw [Shape.length_rowPositions, List.length_map, List.length_range]
        exact size
      · have isShape' : s.region.shape = extent :: inner := isShape
        have isStrides' : s.region.strides = stride :: strides := isStrides
        have isCount : extent.Denotes s.count := by
          have extents := denotes_shape measured.natural
          rw [Signal.count, isShape] at *
          exact (List.forall₂_cons.1 extents).1
        rw [isShape', isStrides', Shape.rowPositions, List.flatMap_map]
        refine Shape.forall₂_addresses_cons isCount some_ fun k less => ?_
        exact Shape.forall₂_addresses_of_contiguous Number.summable_denotes (each k less).2.2
          (aligned.denotes_inner measured.natural isShape) (by simpa [isStrides] using rank) fixed
          (Region.isContiguous_of_same equal) positive.ne' (fits less)
    · have isStride : s.rowStride = stride := by
        rw [rowStride, isStrides]
        rfl
      have format : stride.isBinary64 = true := by
        refine measured.format stride ?_
        rw [isStrides]
        exact List.mem_cons_self
      have start : first = position 0 := by
        have sum := (each 0 some_).2.1
        rw [Nat.cast_zero, zero_mul, add_zero] at sum
        exact_mod_cast sum
      rw [isStride]
      exact Number.denotes_div_add_mul_div offset step format unit positive
        (start ▸ bound some_) (less.trans few') (bound less) (each k less).2.1

end Aligned

/-- The rows have the shape of the view. -/
theorem Aligned.same_shape (aligned : s.Aligned) (natural : s.shape.all Number.isNatural = true) :
    Shape.same (Shape.leading s.shape :: Shape.tail s.base.shape) (Shape.normalized s.shape) =
      true := by
  have extents := denotes_shape natural
  have tail := Shape.denotes_tail extents
  rw [aligned.tail_eq natural] at tail
  rw [Shape.normalized_eq]
  exact Shape.same_of_denotes
    (.cons (Shape.denotes_leading extents) (Shape.denotes_tail s.base.denotes_extents))
    (.cons (Shape.denotes_leading extents) tail)

end Signal

/-! ## Rows that show a view -/

/-- The rows are the picked ones of the base of a signal, which begins at row `start`; they have the
shape of the signal, and its elements are those of these rows, as far as they are numbers. -/
structure Rows.Addresses (rows : Rows) (s : Signal) (start : Nat)
    (picked : List Nat) : Prop where
  indices : rows.indices = picked.map fun r => some (Number.count (start + r))
  inside : ∀ r ∈ picked, r < s.base.rows
  shape : Shape.same rows.shape (Shape.normalized s.shape) = true
  size : s.size.Denotes (picked.length * s.base.width)
  elements : List.Forall₂ Number.MayDenote s.elements (Shape.rowPositions s.base.width picked)
  numbers : s.region.IsFinite →
    List.Forall₂ Number.Denotes s.elements (Shape.rowPositions s.base.width picked)

namespace Signal

variable {s : Signal} {base rows : Rows} {start : Nat}

/-- A view of any geometry gets the rows that its elements make up, or is refused as unsupported. -/
theorem exists_addresses {key : Nat} {storage : Storage} (measured : s.Measured)
    (sized : s.base.Sized) (isView : s.isView = true)
    (isBase : base = Packing.baseRows s.root key start storage) :
    (∃ e, s.viewRows base = .error e ∧ e.kind = .unsupported) ∨
      ∃ rows picked, s.viewRows base = .ok rows ∧ rows.key = base.key ∧
        rows.minibatched = base.minibatched ∧ rows.Addresses s start picked := by
  have own := Shape.denotes_normalized (denotes_shape measured.natural)
  have indices : base.indices =
      (List.range s.base.rows).map fun k => some (Number.count (start + k)) := by
    rw [isBase]
    rfl
  have shape : base.shape = Shape.normalized s.base.shape := by
    rw [isBase]
    rfl
  rcases s.viewRows_cases base with whole | aligned | refused
  · have all : Shape.rowPositions s.base.width (List.range s.base.rows) =
        List.range s.base.extents.prod := by
      rw [Shape.rowPositions_range, s.base.prod_extents]
    refine .inr ⟨_, List.range s.base.rows, whole.viewRows_eq_ok shape, rfl, rfl, indices,
      fun r member => List.mem_range.1 member, Shape.same_of_denotes own own, ?_, ?_, ?_⟩
    · rw [List.length_range, ← s.base.prod_extents]
      exact whole.denotes_size sized
    · rw [all]
      exact whole.mayDenote_elements sized measured.natural
    · rw [all]
      exact whole.denotes_elements sized measured.natural
  · obtain ⟨position, steps⟩ := aligned.exists_steps measured sized isView
    have picked := Rows.pick_eq_ok (r := base) indices 0 s.count
      (fun j less => steps.denotes j (by omega)) (fun j less => steps.inside j (by omega))
    rw [← List.range_eq_range'] at picked
    have sliced : s.viewRows base = .ok { base with
        indices := (List.range s.count).map fun k => some (Number.count (start + position k))
        shape := Shape.leading s.shape :: Shape.tail base.shape
        label := s.name } := by
      rw [aligned.viewRows_eq, Rows.sliceRows]
      exact congrArg (· >>= _) picked
    refine .inr ⟨_, (List.range s.count).map position, sliced, rfl, rfl, ?_, ?_, ?_, ?_,
      steps.elements.imp fun _ _ => .inr, fun _ => steps.elements⟩
    · rw [List.map_map]
      rfl
    · intro r member
      obtain ⟨k, less, rfl⟩ := List.mem_map.1 member
      exact steps.inside k (List.mem_range.1 less)
    · rw [shape, Shape.tail_normalized]
      exact aligned.same_shape measured.natural
    · rw [List.length_map, List.length_range]
      exact (aligned.denotes_size measured).1
  · exact .inl refused

/-- A view of any geometry that gets rows at all is shown by them, if all its elements have
values. -/
theorem exists_shows {key : Nat} {storage : Storage} (measured : s.Measured) (sized : s.base.Sized)
    (isView : s.isView = true) (present : none ∉ s.initialValue)
    (isBase : base = Packing.baseRows s.root key start storage)
    (success : s.viewRows base = .ok rows) : ∃ picked, rows.Shows s start picked := by
  rcases exists_addresses measured sized isView isBase with
    ⟨e, refused, -⟩ | ⟨rows', picked, placed, -, minibatched, addresses⟩
  · cases refused.symm.trans success
  · cases placed.symm.trans success
    have length := addresses.elements.length_eq
    have count : (Shape.rowPositions s.base.width picked).length = picked.length * s.base.width :=
      Shape.length_rowPositions _ _
    refine ⟨picked, addresses.indices, addresses.inside, addresses.shape, ?_,
      broadcast_initialValue isView addresses.elements present (count ▸ addresses.size)
        (length ▸ measured.countable)⟩
    rw [minibatched, isBase]
    rfl

end Signal

end BatchGraph
