import BatchGraph.Proofs.Addressing

/-!
Slicing rows before or after layout.

The rows of a slice of a slice of a base can be found in two ways: from offset and strides of the
last signal, which refer to the base, or by slicing the rows of the base in the same order.  Both
give the same rows (`viewRows_slices_alike`), also where the slices end up empty, cover the whole
base or step over a single row, as long as the numbers of the geometry are exact.  A stride that is
rounded need not be a whole number of rows, nor need an offset between two rows, and then the view
is refused (`viewRows_slices_differ`).
-/

namespace BatchGraph

namespace Signal

variable {s t : Signal} {b : Base} {base rows : Rows} {start : Nat}

/-! ## Slices of signals and of rows -/

/-- Slicing from row `i` with step `k` has rounded neither the offset nor the stride. -/
def SlicesExactly (s t : Signal) (i k : Nat) : Prop :=
  ∃ offset stride, s.offset.Denotes offset ∧ (∀ x ∈ s.strides.head?, x.Denotes stride) ∧
    t.offset.Denotes (offset + i * stride) ∧ ∀ x ∈ t.strides.head?, x.Denotes (stride * k)

/-- A signal that is made from a base by slices in range, and what comes of the rows of the base
when they are sliced in the same order. -/
inductive SlicedAlike (b : Base) (base : Rows) : Signal → Except Error Rows → Prop
  | base : SlicedAlike b base (ofBase b) (.ok base)
  | slice {s t : Signal} {sliced : Except Error Rows} {first stop step : Number} {i j k id : Nat}
      {name? : Option String} {label : String} (alike : SlicedAlike b base s sliced)
      (range : s.InRange first stop step i j k) (made : s.slice id first stop step name? = .ok t)
      (exact : s.SlicesExactly t i k) :
      SlicedAlike b base t
        (sliced >>= fun rows => rows.sliceRows first step ((stop - first) / step).ceil label)

theorem SlicedAlike.base_eq {sliced : Except Error Rows} (alike : SlicedAlike b base s sliced) :
    s.base = b := by
  induction alike with
  | base => rfl
  | slice _ _ made _ ih => rw [slice_base made, ih]

/-- Scalars have no slices. -/
theorem SlicedAlike.eq_ofBase {sliced : Except Error Rows} (alike : SlicedAlike b base s sliced)
    (scalar : b.extents = []) : s = ofBase b ∧ sliced = .ok base := by
  induction alike with
  | base => exact ⟨rfl, rfl⟩
  | @slice s t sliced first stop step i j k id name? label alike range made exact ih =>
    have shape : s.shape = [] := by
      rw [ih.1]
      exact List.map_eq_nil_iff.1 scalar
    rw [Signal.slice, shape] at made
    cases made

end Signal

namespace Rows

/-- The rows are the rows `first`, `first + step`, … of a base, `count` of them, whose own rows begin
at row `start` of the array. -/
structure PicksFrom (rows base : Rows) (start first step count : Nat) : Prop where
  key : rows.key = base.key
  storage : rows.storage = base.storage
  minibatched : rows.minibatched = base.minibatched
  indices : rows.indices =
    (List.range count).map fun j => some (Number.count (start + (first + j * step)))
  shape : ∃ leading, leading.Denotes count ∧ rows.shape = leading :: Shape.tail base.shape

variable {rows base : Rows} {start first step count : Nat}

/-- Picked rows are picked from by composing the positions. -/
theorem PicksFrom.sliceRows (picks : rows.PicksFrom base start first step count)
    {first' stop step' : Number} {i j k : Nat} (label : String) (isFirst : first'.Denotes i)
    (isStop : stop.Denotes j) (isStep : step'.Denotes k) (format : step'.isBinary64 = true)
    (ascending : i ≤ j) (inRange : j ≤ count) (positive : 0 < k) (small : count < 2 ^ 53) :
    ∃ rows', rows.sliceRows first' step' ((stop - first') / step').ceil label = .ok rows' ∧
      rows'.PicksFrom base start (first + i * step) (step * k) ((j - i + k - 1) / k) := by
  have counted := (isStop.sub isFirst ascending (by omega)).ceil_div_of_isBinary64 isStep format
    positive (by omega)
  have all := RowRange.all count
  have range := all.slice ascending inRange positive
  rw [Nat.mul_one, Nat.one_mul, Nat.zero_add] at range
  have denotes (m : Nat) (less : m < 0 + (j - i + k - 1) / k) :
      (first' + Number.ofNat m * step').Denotes (i + m * k) := by
    have inside := range.lt_rows (r := m) (by omega)
    have index : m ≤ m * k := Nat.le_mul_of_pos_right _ positive
    have value : step'.value? = some ((k : Int) : Rat) := by rw [Int.cast_natCast]; exact isStep
    have lands := Number.lands_add_mul isFirst (by omega) (Number.denotes_ofNat (n := m) (by omega)) value
    have sum : (i + m * k : Int) = ((i + m * k : Nat) : Int) := by push_cast; rfl
    rw [sum] at lands
    exact lands.denotes (by omega)
  have picked := pick_eq_ok picks.indices 0 _ denotes fun m less => range.lt_rows (by omega)
  rw [← List.range_eq_range'] at picked
  have sliced : rows.sliceRows first' step' ((stop - first') / step').ceil label = .ok { rows with
      indices := (List.range ((j - i + k - 1) / k)).map fun m =>
        some (Number.count (start + (first + (i + m * k) * step)))
      shape := ((stop - first') / step').ceil :: Shape.tail rows.shape
      label } := by
    rw [Rows.sliceRows, counted.countBelow_eq, picked]
    rfl
  refine ⟨_, sliced, picks.key, picks.storage, picks.minibatched, ?_, _, counted, ?_⟩
  · refine List.map_congr_left fun m _ => ?_
    have position : first + (i + m * k) * step = first + i * step + m * (step * k) := by ring
    rw [position]
  · obtain ⟨leading, -, shape⟩ := picks.shape
    rw [shape]
    rfl

/-- Rows that are picked alike, under shapes that look alike, are the same. -/
theorem PicksFrom.same {rows' : Rows} (picks : rows.PicksFrom base start first step count)
    (picks' : rows'.PicksFrom base start first step count) (key : base.key.same base.key = true)
    {ns : List Nat} (tail : Shape.Denotes (Shape.tail base.shape) ns) : rows.same rows' = true := by
  obtain ⟨leading, isCount, shape⟩ := picks.shape
  obtain ⟨leading', isCount', shape'⟩ := picks'.shape
  have shapes := Shape.same_of_denotes (.cons isCount tail) (.cons isCount' tail)
  have equal (i : Option Number) (member : i ∈ rows'.indices) : sameIndex i i = true := by
    rw [picks'.indices] at member
    obtain ⟨j, -, rfl⟩ := List.mem_map.1 member
    exact (Number.denotes_count _).same_self
  have indices : rows.indices = rows'.indices := picks.indices.trans picks'.indices.symm
  rw [Rows.same, picks.key, picks'.key, key, picks.storage, picks'.storage, picks.minibatched,
    picks'.minibatched, shape, shape', shapes, Rows.count, Rows.count, indices]
  simp only [decide_true, beq_self_eq_true, Bool.true_and, List.all_eq_true]
  intro pair member
  rw [List.zip, List.zipWith_self] at member
  obtain ⟨i, isIndex, rfl⟩ := List.mem_map.1 member
  exact equal i isIndex

/-- The rows of a base are picked from themselves. -/
theorem picksFrom_self {b : Base} (indices : base.indices =
      (List.range b.rows).map fun k => some (Number.count (start + k)))
    (shape : base.shape = Shape.normalized b.shape) : base.PicksFrom base start 0 1 b.rows := by
  refine ⟨rfl, rfl, rfl, ?_, Shape.leading b.shape, Shape.denotes_leading b.denotes_extents, ?_⟩
  · rw [indices]
    simp
  · rw [shape, Shape.normalized_eq]
    rfl

end Rows

namespace Signal

variable {s t : Signal} {b : Base} {base rows : Rows} {start first step count : Nat}

/-- The rows of a view that picks rows of its base are picked alike. -/
theorem PicksRows.exists_picksFrom (picks : s.PicksRows first step count)
    (positive : 0 < s.base.width) (format : ∀ stride ∈ s.strides.head?, stride.isBinary64 = true)
    (shows : base.Shows s.root start (List.range s.base.rows))
    (shape : base.shape = Shape.normalized s.base.shape)
    (small : Shape.bulk s.base.extents < 2 ^ 53) :
    ∃ viewed, s.viewRows base = .ok viewed ∧ viewed.PicksFrom base start first step count := by
  obtain ⟨leading, _, _, region, isCount, -⟩ := picks.region
  have isShape : s.shape = leading :: Shape.tail base.shape := by
    rw [shape, Shape.tail_normalized]
    exact congrArg Region.shape region
  by_cases same : count * s.base.width = s.base.rows * s.base.width
  · refine ⟨_, (picks.isWhole same small).viewRows_eq_ok shape, rfl, rfl, rfl, ?_, leading, isCount,
      by rw [isShape]; rfl⟩
    have all : count = s.base.rows := Nat.eq_of_mul_eq_mul_right positive same
    have range := picks.range
    rw [all] at range ⊢
    have order := congrArg (List.map fun r => some (Number.count (start + r))) range.map_range_eq
    rw [List.map_map] at order
    exact shows.indices.trans order.symm
  · exact ⟨_, picks.viewRows_of_some same format shows shape small, rfl, rfl, rfl, rfl, leading,
      isCount, isShape⟩

/-- A base is a view of itself. -/
theorem exists_picksFrom_ofBase (shows : base.Shows (ofBase b) start (List.range b.rows))
    (shape : base.shape = Shape.normalized b.shape) (small : Shape.bulk b.extents < 2 ^ 53) :
    ∃ viewed, (ofBase b).viewRows base = .ok viewed ∧
      viewed.PicksFrom base start 0 1 b.rows := by
  have size := b.denotes_size small
  have whole : (ofBase b).IsWhole :=
    ⟨size.same_self, Number.denotes_zero.same_self, isContiguous_whole b.denotes_extents small⟩
  have self := Rows.picksFrom_self shows.indices shape
  obtain ⟨leading, isCount, isShape⟩ := self.shape
  exact ⟨_, whole.viewRows_eq_ok shape, rfl, rfl, rfl, self.indices, leading, isCount,
    shape.symm.trans isShape⟩

/-- What all slices of a chain keep: the signal and the sliced rows pick the same rows. -/
theorem SlicedAlike.picks {sliced : Except Error Rows} (alike : SlicedAlike b base s sliced)
    (shaped : b.extents ≠ []) (small : Shape.bulk b.extents < 2 ^ 53) (positive : 0 < b.width)
    (self : base.PicksFrom base start 0 1 b.rows) :
    ∃ first step count rows, s.PicksRows first step count ∧
      (∀ stride ∈ s.strides.head?, stride.isBinary64 = true) ∧
      sliced = .ok rows ∧ rows.PicksFrom base start first step count := by
  have total : b.rows * b.width < 2 ^ 53 := by
    rw [← b.prod_extents]
    exact (Shape.prod_le_bulk _).trans_lt small
  have few : b.rows < 2 ^ 53 := (Nat.le_mul_of_pos_right _ positive).trans_lt total
  induction alike with
  | base =>
    have picks := picksRows_ofBase shaped small
    obtain ⟨_, _, stride, region, -, -, isStride⟩ := picks.region
    refine ⟨0, 1, b.rows, base, picks, fun other member => ?_, rfl, self⟩
    have isStrides : (ofBase b).strides.head? = some stride := congrArg (·.strides.head?) region
    rw [isStrides, Option.mem_some_iff] at member
    rw [← member]
    refine isStride.isBinary64 ?_
    rw [Nat.one_mul]
    exact (Shape.prod_le_bulk _).trans_lt ((Shape.bulk_tail_le _).trans_lt small)
  | @slice s t sliced first' stop step' i j k id name? label alike range made exact ih =>
    obtain ⟨first, step, count, rows, picks, format, rfl, from_⟩ := ih
    obtain rfl := alike.base_eq
    obtain ⟨leading, offset, stride, region, isCount, isOffset, isStride⟩ := picks.region
    obtain ⟨-, -, region'⟩ := slice_eq_ok region made
    have leading_eq : Shape.leading s.shape = leading := congrArg (Shape.leading ·.shape) region
    have offset_eq : s.offset = offset := congrArg Region.offset region
    have stride_eq : s.strides.head? = some stride := congrArg (·.strides.head?) region
    have stride_eq' : t.strides.head? = some (stride * step') := congrArg (·.strides.head?) region'
    have inRange := range.le (leading_eq ▸ isCount)
    -- What has not been rounded is what the rows of the base amount to.
    obtain ⟨a, c, isA, isC, isOffset', isStride'⟩ := exact
    obtain rfl := isA.unique (offset_eq ▸ isOffset)
    obtain rfl := (isC stride stride_eq).unique isStride
    have offset' : t.offset.Denotes ((first + i * step) * (Shape.tail s.base.extents).prod) := by
      rw [Nat.add_mul, Nat.mul_assoc]
      exact isOffset'
    have stride' : ∀ x ∈ t.strides.head?,
        x.Denotes (step * k * (Shape.tail s.base.extents).prod) := by
      rw [Nat.mul_right_comm]
      exact isStride'
    obtain ⟨rows', sliced', from'⟩ := from_.sliceRows label range.isStart range.isStop range.isStep
      range.format_step range.ascending inRange range.positive
      (picks.range.count_le.trans_lt few)
    refine ⟨_, _, _, rows', picks.slice_of_exact range.isStart range.isStop range.isStep
      range.format_step range.ascending inRange range.positive few offset' stride' made, ?_, sliced',
      from'⟩
    intro x member
    rw [stride_eq', Option.mem_some_iff] at member
    rw [← member]
    exact isStride.isBinary64_mul range.isStep (isStride' _ stride_eq')

end Signal

namespace MemoryLayout

variable {layout : MemoryLayout} {signals : List Signal} {plan : Plan} {precision : Precision}
  {s : Signal} {b : Base} {base : Rows}

/-- A base with elements is laid out.  The rows of a signal that is sliced from it in range, as they
follow from the geometry of the signal, and the rows of the base, sliced in the same order, both
exist and are the same. -/
theorem viewRows_slices_alike {size : Number} {sliced : Except Error Rows}
    (success : buildFor signals plan precision size = .ok layout)
    (found : layout.rows.lookup (.ofBase b) = some base) (some_ : 0 < b.extents.prod)
    (alike : Signal.SlicedAlike b base s sliced) :
    ∃ viewed rows, s.viewRows base = .ok viewed ∧ sliced = .ok rows ∧ viewed.same rows = true := by
  obtain ⟨minibatchSize, breaks, p, denotes, built⟩ := of_buildFor_eq_ok success
  obtain ⟨i, key, a, base', has⟩ := built.exists_hasRows (Assoc.mem_of_lookup found)
  obtain ⟨-, rfl⟩ : (Signal.ofBase b).isView = false ∧ base = base' :=
    has.rows_eq.resolve_right fun ⟨isView, _⟩ => nomatch isView
  have shows := has.base_shows built.toLaidOut
  have sized : b.Sized := has.sized built.toLaidOut
  have small : Shape.bulk b.extents < 2 ^ 53 := by
    rw [Shape.bulk_eq_prod some_.ne']
    exact sized.small
  have positive : 0 < b.width := by
    rw [b.prod_extents] at some_
    exact Nat.pos_of_mul_pos_left some_
  have shape : base.shape = Shape.normalized b.shape := by
    rw [has.base_eq]
    rfl
  have sameKey : base.key.same base.key = true := by
    rw [has.isKey]
    exact (Number.denotes_count key).same_self
  have tail : Shape.Denotes (Shape.tail base.shape) (Shape.tail b.extents) := by
    rw [shape, Shape.tail_normalized]
    exact Shape.denotes_tail b.denotes_extents
  have self := Rows.picksFrom_self shows.indices shape
  by_cases scalar : b.extents = []
  · obtain ⟨rfl, rfl⟩ := alike.eq_ofBase scalar
    obtain ⟨viewed, placed, picked⟩ := Signal.exists_picksFrom_ofBase shows shape small
    exact ⟨viewed, base, placed, rfl, picked.same self sameKey tail⟩
  · obtain ⟨first, step, count, rows, picks, format, rfl, from_⟩ :=
      alike.picks scalar small positive self
    obtain rfl := alike.base_eq
    obtain ⟨viewed, placed, picked⟩ := picks.exists_picksFrom positive format shows shape small
    exact ⟨viewed, rows, placed, rfl, picked.same from_ sameKey tail⟩

/-- The first and the last row of the shelf. -/
def ends : Signal := ⟨shelf, some ⟨1, "ends", ⟨[2, 2], 0, [4, 1]⟩, rfl⟩, by decide +kernel⟩

/-- The second of these rows. -/
def bottom : Signal := ⟨shelf, some ⟨2, "bottom", ⟨[1, 2], 4, [4, 1]⟩, rfl⟩, by decide +kernel⟩

theorem viewRows_slices_alike_bottom :
    ∃ viewed rows, bottom.viewRows shelfRows = .ok viewed ∧
      (shelfRows.sliceRows 0 2 ((3 - 0) / 2 : Number).ceil "ends" >>= fun rows =>
        rows.sliceRows 1 1 ((2 - 1) / 1 : Number).ceil "bottom") = .ok rows ∧
      viewed.same rows = true := by
  have first : Signal.SlicedAlike shelf shelfRows ends (Except.ok shelfRows >>= fun rows =>
      rows.sliceRows 0 2 ((3 - 0) / 2 : Number).ceil "ends") := by
    refine .slice (i := 0) (j := 3) (k := 2) .base ?_
      (by decide +kernel : (Signal.ofBase shelf).slice 1 0 3 2 (some "ends") = .ok ends) ?_
    · constructor <;> decide +kernel
    · exact ⟨0, 2, by decide +kernel⟩
  have second : Signal.SlicedAlike shelf shelfRows bottom
      ((Except.ok shelfRows >>= fun rows =>
        rows.sliceRows 0 2 ((3 - 0) / 2 : Number).ceil "ends") >>= fun rows =>
          rows.sliceRows 1 1 ((2 - 1) / 1 : Number).ceil "bottom") := by
    refine .slice (i := 1) (j := 2) (k := 1) first ?_
      (by decide +kernel : ends.slice 2 1 2 1 (some "bottom") = .ok bottom) ?_
    · constructor <;> decide +kernel
    · exact ⟨0, 4, by decide +kernel⟩
  exact viewRows_slices_alike buildFor_shelf rfl (by decide +kernel) second

/-- Two rows of five numbers each. -/
def ledger : Base :=
  ⟨0, "ledger", .float32, [2, 5], [0], false, false, by decide +kernel, .inl rfl⟩

def ledgerRows : Rows :=
  ⟨[some (.count 0), some (.count 1)], .count 0, .float .single, [2, 5], false, "ledger"⟩

def ledgered : MemoryLayout where
  arrays := [⟨.count 0, .float .single, [2, 5], #[0, 0, 0, 0, 0, 0, 0, 0, 0, 0], false, false⟩]
  rows := [(.ofBase ledger, ledgerRows)]
  minibatchSize := 1

/-- The first row, after which `2 ^ 53 - 1` rows would be stepped over. -/
def rounded : Signal :=
  ⟨ledger, some ⟨1, "row", ⟨[1, 5], 0, [45035996273704952, 1]⟩, rfl⟩, by decide +kernel⟩

/-- One row, from the middle of the first one on. -/
def shifted : Signal :=
  ⟨ledger, some ⟨1, "shifted", ⟨[1, 5], .finite (5 / 2), [5, 1]⟩, rfl⟩, by decide +kernel⟩

/-- A slice whose stride is rounded is refused, and so is one between two rows, although the rows can
be sliced alike. -/
theorem viewRows_slices_differ :
    buildFor [.ofBase ledger] [] .single 1 = .ok ledgered ∧
      ((Signal.ofBase ledger).slice 1 0 1 9007199254740991 (some "row") = .ok rounded ∧
        ledgerRows.sliceRows 0 9007199254740991 ((1 - 0) / 9007199254740991 : Number).ceil "row" =
          .ok { ledgerRows with indices := [some (.count 0)], shape := [1, 5], label := "row" } ∧
        rounded.viewRows ledgerRows = .error (.viewPartialRows "row" "ledger")) ∧
      (Signal.ofBase ledger).slice 1 (.finite (1 / 2)) 1 1 (some "shifted") = .ok shifted ∧
        ledgerRows.sliceRows (.finite (1 / 2)) 1 ((1 - .finite (1 / 2)) / 1 : Number).ceil
            "shifted" =
          .ok { ledgerRows with indices := [none], shape := [1, 5], label := "shifted" } ∧
        shifted.viewRows ledgerRows = .error (.viewPartialRows "shifted" "ledger") := by
  decide +kernel

end MemoryLayout

end BatchGraph
