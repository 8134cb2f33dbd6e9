import BatchGraph.Proofs.RowSlices
import BatchGraph.Proofs.Spans

/-!
Chains of views as operations on lists.

A chain of slices in range and reshapes does to the values of the base what its steps say: a slice
selects rows, and a reshape changes nothing (`selects_correct`).  For a base with fewer than
`2 ^ 53` elements that holds of every chain, however its geometry has come about, as long as the last
signal has a geometry: with an infinite stride the elements are no numbers, and then only a single
initial value stands for them.  No slice in range is refused, unless a list cannot hold its elements.

All these limits are needed (`selects_limits`).
-/

namespace BatchGraph

/-! ## Rows of lists -/

section Rows

variable {α β : Type} {i j k : Nat}

/-- The rows `i`, `i + k`, … below `j`. -/
def rowsBelow (i j k : Nat) : List Nat :=
  (List.range j).filter fun r => i ≤ r ∧ (r - i) % k = 0

/-- Some rows of a list, a row being `width` values. -/
def selectRows (width : Nat) (rows : List Nat) (xs : List α) : List α :=
  rows.flatMap fun r => (xs.drop (r * width)).take width

theorem rowsBelow_eq (positive : 0 < k) :
    rowsBelow i j k = (List.range ((j - i + k - 1) / k)).map (i + · * k) := by
  induction j with
  | zero =>
    have none : (0 - i + k - 1) / k = 0 := Nat.div_eq_of_lt (by omega)
    rw [none]
    rfl
  | succ j ih =>
    have split : rowsBelow i (j + 1) k = rowsBelow i j k ++
        [j].filter fun r => i ≤ r ∧ (r - i) % k = 0 := by
      rw [rowsBelow, List.range_succ, List.filter_append]
      rfl
    rw [split, ih]
    rcases Nat.lt_or_ge j i with before | behind
    · have none : (j - i + k - 1) / k = 0 := Nat.div_eq_of_lt (by omega)
      have none' : (j + 1 - i + k - 1) / k = 0 := Nat.div_eq_of_lt (by omega)
      rw [none, none', List.filter_singleton]
      simp [Nat.not_le.2 before]
    · obtain ⟨d, rfl⟩ := Nat.exists_eq_add_of_le behind
      have division := Nat.div_add_mod d k
      have less := Nat.mod_lt d positive
      have next : (i + d + 1 - i + k - 1) / k = d / k + 1 := by
        rw [← Nat.add_div_right d positive]
        congr 1
        omega
      by_cases whole : d % k = 0
      · have count : (i + d - i + k - 1) / k = d / k := by
          rw [Nat.div_eq_iff positive, Nat.mul_comm]
          omega
        have row : i + d / k * k = i + d := by
          rw [Nat.mul_comm]
          omega
        rw [next, count, List.range_succ, List.map_append, List.map_singleton, row]
        simp [whole]
      · have count : (i + d - i + k - 1) / k = d / k + 1 := by
          rw [Nat.div_eq_iff positive, Nat.mul_comm, Nat.mul_add, Nat.mul_one]
          omega
        rw [next, count]
        simp [whole]

theorem selectRows_map (width : Nat) (rows : List Nat) (f : α → β) (xs : List α) :
    selectRows width rows (xs.map f) = (selectRows width rows xs).map f := by
  simp [selectRows, List.map_flatMap, List.map_drop, List.map_take]

theorem length_selectRows_le (width : Nat) (rows : List Nat) (xs : List α) :
    (selectRows width rows xs).length ≤ rows.length * width := by
  induction rows with
  | nil => exact Nat.zero_le _
  | cons r rows ih =>
    rw [selectRows, List.flatMap_cons, List.length_append, List.length_cons, Nat.succ_mul,
      Nat.add_comm]
    exact Nat.add_le_add ih (List.length_take_le _ _)

@[simp] theorem selectRows_nil (width : Nat) (rows : List Nat) :
    selectRows width rows ([] : List α) = [] := by
  simp [selectRows]

/-- Of lists with the same length, one behind the other, each can be cut out. -/
theorem take_drop_flatMap {width r : Nat} {f : β → List α} {xs : List β} {x : β}
    (length : ∀ y ∈ xs, (f y).length = width) (found : xs[r]? = some x) :
    ((xs.flatMap f).drop (r * width)).take width = f x := by
  induction xs generalizing r with
  | nil => cases found
  | cons y xs ih =>
    rw [List.forall_mem_cons] at length
    rw [List.flatMap_cons]
    cases r with
    | zero =>
      rw [List.getElem?_cons_zero, Option.some.injEq] at found
      rw [Nat.zero_mul, List.drop_zero, ← found]
      exact List.take_left' length.1
    | succ r =>
      have shift : (r + 1) * width = (f y).length + r * width := by
        rw [length.1, Nat.succ_mul, Nat.add_comm]
      rw [shift, List.drop_length_add_append]
      exact ih length.2 found

/-- Rows of lists with the same length, one behind the other, are some of these. -/
theorem selectRows_flatMap {width : Nat} {f : β → List α} {xs : List β} {rows : List Nat}
    {g : Nat → β} (length : ∀ y ∈ xs, (f y).length = width)
    (found : ∀ r ∈ rows, xs[r]? = some (g r)) :
    selectRows width rows (xs.flatMap f) = (rows.map g).flatMap f := by
  rw [List.flatMap_map]
  exact List.flatMap_congr fun r member => take_drop_flatMap length (found r member)

/-- Rows of runs are runs. -/
theorem selectRows_runs {width count : Nat} {f : Nat → Nat} {rows : List Nat}
    (inside : ∀ r ∈ rows, r < count) :
    selectRows width rows (Shape.runs width ((List.range count).map f)) =
      Shape.runs width (rows.map f) := by
  refine selectRows_flatMap (by simp) fun r member => ?_
  rw [List.getElem?_map, List.getElem?_range (inside r member), Option.map_some]

end Rows

/-! ## Elements of chains -/

namespace Base

variable {b : Base}

theorem sized_of_pos (few : b.extents.prod < 2 ^ 53) (some_ : 0 < b.extents.prod) : b.Sized :=
  ⟨b.tracks_size.denotes few some_, few⟩

end Base

/-- The region lists elements of the base at these positions: none at all, or rows without gaps. -/
inductive Region.Lists (r : Region) (b : Base) : List Nat → Prop
  | none {ns : List Nat} (extents : Shape.Denotes r.shape ns) (empty : ns.prod = 0)
      (size : b.size.Denotes b.extents.prod → r.size.Denotes 0) : Lists r b []
  | some {first step : Nat} {ns : List Nat} (spans : r.Spans b.extents.prod first step ns) :
      Lists r b (Spans.positions first step ns)

namespace Region.Lists

variable {r : Region} {b : Base} {ps : List Nat}

theorem whole (few : b.extents.prod < 2 ^ 53) :
    (Region.whole b.shape).Lists b (List.range b.extents.prod) := by
  have extents := b.denotes_extents
  by_cases empty : b.extents.prod = 0
  · rw [empty]
    exact .none extents empty fun known => by rwa [empty] at known
  · have spans := Spans.whole extents empty few
    have run := Shape.runs_adjacent 0 (Shape.tail b.extents).prod (Shape.leading b.extents)
    rw [← Shape.prod_eq] at run
    simp only [Nat.zero_add, List.map_id_fun', id_eq] at run
    have lists := Lists.some spans
    simp only [Spans.positions, Nat.zero_add] at lists
    rwa [run] at lists

theorem lt (lists : r.Lists b ps) : ∀ p ∈ ps, p < b.extents.prod := by
  cases lists with
  | none => exact fun p member => nomatch member
  | some spans => exact spans.lt_of_mem_positions

theorem length_le (lists : r.Lists b ps) : ps.length ≤ b.extents.prod := by
  cases lists with
  | none => exact Nat.zero_le _
  | some spans =>
    rw [Spans.length_positions]
    exact spans.fits

theorem elements_eq_nil {ns : List Nat} (extents : Shape.Denotes r.shape ns) (empty : ns.prod = 0) :
    r.elements = [] := by
  have tracks : r.size.Tracks ns.prod := extents.tracks_size
  rw [← List.length_eq_zero_iff, Region.length_elements]
  exact tracks.countBelow_eq_zero_iff.2 empty

theorem mayDenote_elements (lists : r.Lists b ps) (few : b.extents.prod < 2 ^ 53) :
    List.Forall₂ Number.MayDenote r.elements ps := by
  cases lists with
  | none extents empty =>
    rw [elements_eq_nil extents empty]
    exact .nil
  | some spans => exact spans.mayDenote_elements few

theorem denotes_elements (lists : r.Lists b ps) (few : b.extents.prod < 2 ^ 53)
    (isFinite : r.IsFinite) : List.Forall₂ Number.Denotes r.elements ps := by
  cases lists with
  | none extents empty =>
    rw [elements_eq_nil extents empty]
    exact .nil
  | some spans => exact spans.denotes_elements few isFinite

theorem denotes_size (lists : r.Lists b ps) (sized : b.Sized) : r.size.Denotes ps.length := by
  cases lists with
  | none _ _ size => exact size sized.size
  | some spans =>
    rw [Spans.length_positions]
    exact spans.denotes_size sized.small

theorem inside (lists : r.Lists b ps) (few : b.extents.prod < 2 ^ 53) :
    ∀ x ∈ r.elements, b.excludes x = false := by
  intro x member
  obtain ⟨p, isPosition, position⟩ := exists_partner (lists.mayDenote_elements few) member
  have less := lists.lt p isPosition
  exact (Base.sized_of_pos few (Nat.zero_lt_of_lt less)).excludes_eq_false position less

/-- A slice in range selects rows. -/
theorem slice {leading offset stride start stop step : Number} {inner strides : List Number}
    {i j k : Nat} (lists : Region.Lists ⟨leading :: inner, offset, stride :: strides⟩ b ps)
    (few : b.extents.prod < 2 ^ 53) (isStart : start.Denotes i) (isStop : stop.Denotes j)
    (isStep : step.Denotes k) (ascending : i ≤ j) (inRange : stop.le leading = true)
    (positive : 0 < k) (format : stop.isBinary64 = true) (format' : step.isBinary64 = true) :
    Region.Lists ⟨Signal.sliceCount start stop step :: inner, offset + start * stride,
      stride * step :: strides⟩ b
        (selectRows (inner.map Number.countBelow).prod (rowsBelow i j k) ps) := by
  cases lists with
  | none extents empty size =>
    obtain ⟨c, le, isCount⟩ :=
      Signal.exists_sliceCount_le isStart isStop format isStep ascending positive
    cases extents with
    | @cons _ m _ ns isLeading rest =>
      have bound : c ≤ m := le.trans ((isStop.le_iff isLeading).1 inRange)
      rw [selectRows_nil]
      refine .none (.cons isCount rest) ?_ fun known =>
        Shape.denotes_size_zero_of_le rest isCount isLeading bound (size known)
      have smaller : c * ns.prod ≤ m * ns.prod := Nat.mul_le_mul_right _ bound
      rw [List.prod_cons] at empty ⊢
      omega
  | @some first step' ns spans =>
    obtain ⟨m, ns, rfl, isLeading, rest⟩ : ∃ m ns', ns = m :: ns' ∧ leading.Denotes m ∧
        Shape.Denotes inner ns' := by
      cases spans.extents with
      | cons isLeading rest => exact ⟨_, _, rfl, isLeading, rest⟩
    have width : 0 < ns.prod := spans.width_pos
    have bound : j ≤ m := (isStop.le_iff isLeading).1 inRange
    have fits : m * ns.prod ≤ b.extents.prod := spans.fits
    have rows : m ≤ m * ns.prod := Nat.le_mul_of_pos_right _ width
    have isCount := Signal.denotes_sliceCount isStart isStop isStep format' ascending positive
      (by omega)
    rw [Shape.map_countBelow rest, rowsBelow_eq positive]
    rcases ascending.eq_or_lt with rfl | less
    · have none : (i - i + k - 1) / k = 0 := Nat.div_eq_of_lt (by omega)
      rw [none] at isCount ⊢
      refine .none (.cons isCount rest) (Nat.zero_mul _) fun _ => ?_
      have size := Shape.denotes_size (.cons isCount rest) (by
        have least : ns.prod ≤ m * ns.prod := Nat.le_mul_of_pos_left _ spans.leading_pos
        rw [Shape.bulk_cons_zero, Shape.bulk_eq_prod width.ne']
        omega)
      rwa [List.prod_cons, Nat.zero_mul] at size
    · have range := (RowRange.all m).slice ascending bound positive
      rw [Nat.mul_one, Nat.one_mul, Nat.zero_add] at range
      have lists := Lists.some (spans.slice isStart isStep less bound positive isCount few)
      have inside : ∀ r ∈ (List.range ((j - i + k - 1) / k)).map (i + · * k), r < m := by
        intro r member
        obtain ⟨q, isRow, rfl⟩ := List.mem_map.1 member
        exact range.lt_rows (List.mem_range.1 isRow)
      have selected : selectRows ns.prod ((List.range ((j - i + k - 1) / k)).map (i + · * k))
          (Spans.positions first step' (m :: ns)) =
          Spans.positions (first + i * step') (step' * k) ((j - i + k - 1) / k :: ns) := by
        refine (selectRows_runs inside).trans ?_
        rw [List.map_map]
        refine congrArg _ (List.map_congr_left fun r _ => ?_)
        rw [Function.comp_apply]
        ring
      rwa [selected]

/-- A reshape keeps the positions. -/
theorem reshape {shape : List Number} (lists : r.Lists b ps) (few : b.extents.prod < 2 ^ 53)
    (natural : shape.all Number.isNatural = true)
    (same : (Shape.size shape).same r.size = true) (contiguous : r.isContiguous = true) :
    Region.Lists ⟨shape, r.offset, Shape.rowMajor shape⟩ b ps := by
  have extents := Shape.denotes_of_natural natural
  have tracks : (Shape.size shape).Tracks (shape.map Number.countBelow).prod := extents.tracks_size
  rw [Number.same_comm] at same
  cases lists with
  | @none ns extents' empty =>
    have tracks' : r.size.Tracks 0 := by
      rw [← empty]
      exact extents'.tracks_size
    have size := (tracks'.denotes_of_same (by norm_num) same).of_same same
    exact .none extents (tracks.eq_of_denotes size (by norm_num)) fun _ => size
  | @some first step ns spans =>
    have size := (spans.denotes_size few).of_same same
    have equal := tracks.eq_of_denotes size (spans.fits.trans_lt few)
    obtain ⟨spans', positions⟩ := spans.reshape contiguous extents equal few
    rw [← positions]
    exact .some spans'

end Region.Lists

/-! ## Chains of views -/

namespace Signal

variable {α β : Type} {b : Base} {s t : Signal}

/-- A signal that is made from a base by slices in range and reshapes to natural extents, and what
becomes of a list of the elements of the base when each slice selects rows of it, a row being the
product of the extents beyond axis 0, and reshapes leave it alone. -/
inductive Selects (b : Base) (flat : List α) : Signal → List α → Prop
  | base : Selects b flat (ofBase b) flat
  | slice {s t : Signal} {xs : List α} {start stop step : Number} {i j k id : Nat}
      {name? : Option String} (selects : Selects b flat s xs)
      (range : s.InRange start stop step i j k)
      (made : s.slice id start stop step name? = .ok t) :
      Selects b flat t
        (selectRows (Shape.tail (s.shape.map Number.countBelow)).prod (rowsBelow i j k) xs)
  | reshape {s t : Signal} {xs : List α} {shape : List Number} {id : Nat} {name? : Option String}
      (selects : Selects b flat s xs) (natural : shape.all Number.isNatural = true)
      (made : s.reshape id shape name? = .ok t) : Selects b flat t xs

/-- The elements of a chain of views are those of the base that its steps have selected. -/
theorem Selects.exists_lists {flat xs : List α} (selects : Selects b flat s xs)
    (few : b.extents.prod < 2 ^ 53) :
    s.base = b ∧ ∃ ps, s.region.Lists b ps ∧
      ∀ f, flat = (List.range b.extents.prod).map f → xs = ps.map f := by
  induction selects with
  | base => exact ⟨rfl, _, Region.Lists.whole few, fun _ isFlat => isFlat⟩
  | @slice s t xs start stop step i j k id name? selects range made ih =>
    obtain ⟨isBase, ps, lists, isSelected⟩ := ih
    obtain ⟨leading, inner, stride, strides, region⟩ := exists_region_of_slice made
    obtain ⟨isBase', -, region'⟩ := slice_eq_ok region made
    have shape : s.shape = leading :: inner := congrArg Region.shape region
    have inside := range.inside
    rw [shape] at inside ⊢
    rw [region] at lists
    refine ⟨isBase'.trans isBase, _, ?_, fun f isFlat => by
      rw [isSelected f isFlat]
      exact selectRows_map _ _ f ps⟩
    rw [region']
    exact lists.slice few range.isStart range.isStop range.isStep range.ascending inside
      range.positive range.format_stop range.format_step
  | @reshape s t xs shape id name? selects natural made ih =>
    obtain ⟨isBase, ps, lists, isSelected⟩ := ih
    obtain ⟨isBase', -, region', same, contiguous⟩ := reshape_eq_ok made
    refine ⟨isBase'.trans isBase, ps, ?_, isSelected⟩
    rw [region']
    exact lists.reshape few natural same contiguous

/-- Only the base itself is no view. -/
theorem Selects.eq_flat {flat xs : List α} (selects : Selects b flat s xs)
    (whole : s.isView = false) : xs = flat := by
  cases selects with
  | base => rfl
  | slice _ _ made =>
    obtain ⟨_, _, _, _, region⟩ := exists_region_of_slice made
    rw [(slice_eq_ok region made).2.1] at whole
    cases whole
  | reshape _ _ made =>
    rw [(reshape_eq_ok made).2.1] at whole
    cases whole

theorem Selects.exists_slice {flat xs : List α} (selects : Selects b flat s xs)
    (few : b.extents.prod < 2 ^ 53) {start stop step : Number} {i j k : Nat}
    (range : s.InRange start stop step i j k)
    (listed : (rowsBelow i j k).length * (Shape.tail (s.shape.map Number.countBelow)).prod < 2 ^ 32)
    (id : Nat) (name? : Option String) : ∃ t, s.slice id start stop step name? = .ok t := by
  obtain ⟨rfl, ps, lists, -⟩ := selects.exists_lists few
  obtain ⟨leading, inner, shape⟩ := List.exists_cons_of_ne_nil range.shaped
  have rank := s.length_strides
  rw [shape, List.length_cons] at rank
  obtain ⟨stride, strides, isStrides⟩ := List.exists_cons_of_length_eq_add_one rank
  have region : s.region = ⟨leading :: inner, s.offset, stride :: strides⟩ := by
    rw [← shape, ← isStrides]
    rfl
  have inside := range.inside
  rw [shape] at inside listed
  rw [isStrides] at rank
  rw [region] at lists
  have selected := lists.slice few range.isStart range.isStop range.isStep range.ascending inside
    range.positive range.format_stop range.format_step
  refine exists_slice_eq_ok id name? region (Nat.succ.inj rank) ?_ ?_ (selected.inside few)
  · rw [Bool.eq_false_iff, Ne, range.isStep.le_iff Number.denotes_zero]
    exact Nat.not_le.2 range.positive
  · have length := (selected.mayDenote_elements few).length_eq
    rw [Region.length_elements] at length
    exact length.trans_lt ((length_selectRows_le _ _ ps).trans_lt listed)

/-- The values of the elements of a view, if these are numbers or there is a single value. -/
theorem initialValue_eq_of_lists {ps : List Nat} (isView : s.isView = true)
    (lists : s.region.Lists s.base ps) (few : s.base.extents.prod < 2 ^ 53)
    (known : s.base.initial.length = 1 ∨ s.region.IsFinite) :
    s.initialValue = ps.map s.base.value? := by
  rw [initialValue_of_isView isView]
  rcases known with single | isFinite
  · obtain ⟨v, initial⟩ := List.length_eq_one_iff.1 single
    have value (x : Number) : s.base.valueAt? x = some v := by
      rw [Base.valueAt?, initial]
    have length := (lists.mayDenote_elements few).length_eq
    have constant : s.base.value? = fun _ => some v := funext fun p => value _
    rw [List.map_congr_left fun x _ => value x, constant, List.map_const', List.map_const', length]
  · exact s.base.map_valueAt? (lists.denotes_elements few isFinite)

/-- For a base with fewer than `2 ^ 53` elements, chains of views do what their steps say: the values
of the last signal are those of the base from which the rows of each slice have been selected, if
offset and strides of the last signal are numbers or all elements have the same value, and every
slice in range of any signal of a chain is made, if its elements can be listed. -/
theorem selects_correct (few : b.extents.prod < 2 ^ 53) :
    (∀ values s xs, broadcast b.initial b.size = .ok values →
      Selects b (values.map some) s xs → b.initial.length = 1 ∨ s.region.IsFinite →
        broadcast s.initialValue s.size = .ok xs) ∧
    ∀ (α : Type) (flat : List α) s xs, Selects b flat s xs →
      ∀ start stop step i j k, s.InRange start stop step i j k →
        (rowsBelow i j k).length * (Shape.tail (s.shape.map Number.countBelow)).prod < 2 ^ 32 →
          ∀ id name?, ∃ t, s.slice id start stop step name? = .ok t := by
  refine ⟨fun values s xs areValues selects known => ?_,
    fun α flat s xs selects start stop step i j k range listed id name? =>
      selects.exists_slice few range listed id name?⟩
  obtain ⟨sized, length⟩ := Base.sized_of_broadcast few areValues
  have holds := b.holds_of_broadcast areValues (length ▸ few)
  obtain ⟨rfl, ps, lists, isSelected⟩ := selects.exists_lists few
  cases isView : s.isView with
  | false =>
    have whole := eq_ofBase_of_not_isView isView
    rw [selects.eq_flat isView, whole]
    exact holds.read_eq
  | true =>
    rw [initialValue_eq_of_lists isView lists few known, isSelected _ holds.value_eq]
    exact broadcast_of_length (lists.denotes_size sized) (lists.length_le.trans_lt few)
      (List.length_map _)

open MemoryLayout in
/-- The last row of the shelf as a vector. -/
def flattened : Signal :=
  ⟨shelf, some ⟨3, "flattened", ⟨[2], 4, [1]⟩, rfl⟩, by decide +kernel⟩

open MemoryLayout in
theorem selects_correct_flattened :
    broadcast flattened.initialValue flattened.size = .ok [some 17, some 19] ∧
      ∃ t, flattened.slice 4 1 2 1 (some "corner") = .ok t := by
  have all : Selects shelf (([5, 7, 11, 13, 17, 19] : List Number).map some) (ofBase shelf) _ :=
    .base
  have outer := all.slice (i := 0) (j := 3) (k := 2) (by constructor <;> decide +kernel)
    (by decide +kernel : (ofBase shelf).slice 1 0 3 2 (some "ends") = .ok ends)
  have last := outer.slice (i := 1) (j := 2) (k := 1) (by constructor <;> decide +kernel)
    (by decide +kernel : ends.slice 2 1 2 1 (some "bottom") = .ok bottom)
  have selects := last.reshape (by decide +kernel : [(2 : Number)].all Number.isNatural = true)
    (by decide +kernel : bottom.reshape 3 [2] (some "flattened") = .ok flattened)
  have values : selectRows (Shape.tail (ends.shape.map Number.countBelow)).prod (rowsBelow 1 2 1)
      (selectRows (Shape.tail ((ofBase shelf).shape.map Number.countBelow)).prod (rowsBelow 0 3 2)
        (([5, 7, 11, 13, 17, 19] : List Number).map some)) = [some 17, some 19] := by
    decide +kernel
  rw [values] at selects
  obtain ⟨read, made⟩ := selects_correct (by decide +kernel : shelf.extents.prod < 2 ^ 53)
  refine ⟨read _ _ _ (by decide +kernel) selects (.inr (by decide +kernel)), ?_⟩
  exact made _ _ _ _ selects _ _ _ 1 2 1 (by constructor <;> decide +kernel) (by decide +kernel) _ _

/-- A vector so long that its last elements have no numbers of their own. -/
def vast : Base :=
  ⟨0, "vast", .float32, [18014398509481984], [0], false, false, by decide +kernel, .inl rfl⟩

/-- A vector of which a list cannot hold the elements. -/
def lengthy : Base :=
  ⟨0, "lengthy", .float32, [4294967296], [0], false, false, by decide +kernel, .inl rfl⟩

open MemoryLayout in
/-- With an infinite stride a chain of views has no values, and behind `2 ^ 53` elements or with
`2 ^ 32` elements a slice in range is refused. -/
theorem selects_limits :
    (broadcast plank.initial plank.size = .ok [5, 7, 11] ∧
      Selects plank (([5, 7, 11] : List Number).map some) onlyRow [some 5, some 7, some 11] ∧
        broadcast onlyRow.initialValue onlyRow.size = .ok [none, none, none]) ∧
    (ofBase vast).InRange 18014398509481982 18014398509481984 1 18014398509481982
        18014398509481984 1 ∧
      (ofBase vast).slice 1 18014398509481982 18014398509481984 1 none =
        .error (.viewOutside [2] 18014398509481982 "vast" [18014398509481984]) ∧
    (ofBase lengthy).InRange 0 4294967296 1 0 4294967296 1 ∧
      (ofBase lengthy).slice 1 0 4294967296 1 none = .error .lengthInvalid := by
  refine ⟨⟨by decide +kernel, ?_, by decide +kernel⟩, ?_, by decide +kernel, ?_, by decide +kernel⟩
  · have all : Selects plank (([5, 7, 11] : List Number).map some) (ofBase plank) _ := .base
    have row := all.slice (i := 0) (j := 1) (k := 2 ^ 1023) (by constructor <;> decide +kernel)
      (by decide +kernel : (ofBase plank).slice 1 0 1 (.finite (2 ^ 1023)) (some "row") = .ok onlyRow)
    have values : selectRows (Shape.tail ((ofBase plank).shape.map Number.countBelow)).prod
        (rowsBelow 0 1 (2 ^ 1023)) (([5, 7, 11] : List Number).map some) =
          [some 5, some 7, some 11] := by
      decide +kernel
    rwa [values] at row
  · constructor <;> decide +kernel
  · constructor <;> decide +kernel

end Signal

end BatchGraph
