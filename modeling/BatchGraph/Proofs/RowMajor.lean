import BatchGraph.Proofs.Containment

/-!
Elements in row-major order.

The elements of a region lie under the cursors that an odometer shows, the last axis the fastest.
After `n` ticks its positions are the digits of `n` in the mixed radix of the extents
(`Shape.tick_digits`), so that element `n` is the offset plus, for each axis, as many strides as the
digit says (`elements_rowMajor`).  Such sums are not rounded as long as they and the products in
them are below `2 ^ 53` (`Region.IsExact`), as for every signal of a base with fewer elements
(`Signal.isExact`); beyond that they are (`elements_rounded`).

A region with elements is contiguous if and only if they follow each other.  Its strides are
compared one by one, except on axes of at most one position; and digits times strides add up to the
number itself if the strides on all other axes are the products of the later extents, and only then
(`Shape.sum_parts_eq_iff`).
-/

namespace BatchGraph

namespace Shape

variable {shape strides : List Number} {ns : List Nat}

/-! ## Digits -/

/-- The digits of a number in the mixed radix of the extents: on each axis the number, divided by
the product of the later extents, modulo the extent. -/
def digits : (extents : List Nat) → (n : Nat) → List Nat
  | [], _ => []
  | extent :: inner, n => n / inner.prod % extent :: digits inner n

theorem digits_add_mul (ns : List Nat) (n k : Nat) :
    digits ns (n + k * ns.prod) = digits ns n := by
  induction ns generalizing k with
  | nil => rfl
  | cons extent ns ih =>
    rw [List.prod_cons, ← Nat.mul_assoc, digits, ih, digits]
    congr 1
    rcases Nat.eq_zero_or_pos ns.prod with none | some_
    · simp [none]
    · rw [Nat.add_mul_div_right _ _ some_, Nat.add_mul_mod_self_right]

/-- The cursors are the digits of the numbers up to the size. -/
theorem cursors_eq (extents : Denotes shape ns) (some_ : ns.prod ≠ 0) :
    cursors shape = (List.range ns.prod).map (digits ns) := by
  induction extents with
  | nil => rfl
  | @cons extent n inner ns first _ ih =>
    rw [List.prod_cons] at some_ ⊢
    obtain ⟨rows, width⟩ := Nat.mul_ne_zero_iff.1 some_
    have positive : 0 < ns.prod := Nat.pos_of_ne_zero width
    rw [cursors, positions_eq first (Nat.pos_of_ne_zero rows), ih width, ← rowPositions_range,
      rowPositions, List.map_flatMap]
    refine List.flatMap_congr fun i isRow => ?_
    rw [List.map_map, List.map_map]
    refine List.map_congr_left fun k inside => ?_
    rw [List.mem_range] at isRow inside
    have quotient : (i * ns.prod + k) / ns.prod = i := by
      rw [Nat.add_comm, Nat.add_mul_div_right _ _ positive, Nat.div_eq_of_lt inside, Nat.zero_add]
    rw [Function.comp_apply, Function.comp_apply, digits, quotient, Nat.mod_eq_of_lt isRow,
      Nat.add_comm, digits_add_mul]

/-! ## The odometer -/

/-- Moves the cursor by one position.  An axis that comes to its end starts again, and then the axis
before it moves; the second part says whether all axes have started again. -/
def tick : (shape : List Number) → (cursor : List Nat) → List Nat × Bool
  | extent :: inner, i :: cursor =>
    match tick inner cursor with
    | (cursor, false) => (i :: cursor, false)
    | (cursor, true) =>
      if (Number.ofNat (i + 1)).lt extent then ((i + 1) :: cursor, false) else (0 :: cursor, true)
  | _, _ => ([], true)

/-- What the odometer shows after `n` ticks. -/
def odometer (shape : List Number) (n : Nat) : List Nat :=
  (fun cursor => (tick shape cursor).1)^[n] (List.replicate shape.length 0)

/-- A tick takes the digits of a number to those of the next one. -/
theorem tick_digits (extents : Denotes shape ns) (some_ : ns.prod ≠ 0) (few : ns.prod < 2 ^ 53)
    (n : Nat) :
    tick shape (digits ns n) = (digits ns (n + 1), decide ((n + 1) % ns.prod = 0)) := by
  induction extents with
  | nil => simp [tick, digits, Nat.mod_one]
  | @cons extent e inner ns first _ ih =>
    obtain ⟨⟨positive, small⟩, width, few⟩ := of_prod_cons some_ few
    have digit : n / ns.prod % e < e := Nat.mod_lt _ positive
    have wraps : (n + 1) % (e :: ns).prod =
        (n + 1) % ns.prod + ns.prod * ((n + 1) / ns.prod % e) := by
      rw [List.prod_cons, Nat.mul_comm, Nat.mod_mul]
    rw [digits, tick, ih width few, digits, wraps]
    by_cases carry : (n + 1) % ns.prod = 0
    · have quotient : (n + 1) / ns.prod % e = (n / ns.prod % e + 1) % e := by
        rw [Nat.succ_div_of_dvd (Nat.dvd_of_mod_eq_zero carry), Nat.mod_add_mod]
      have less : (Number.ofNat (n / ns.prod % e + 1)).lt extent = true ↔
          n / ns.prod % e + 1 < e := (Number.denotes_ofNat (by omega)).lt_iff first
      simp only [carry, decide_true, less, quotient]
      split
      case isTrue next => simp [Nat.mod_eq_of_lt next, width]
      case isFalse full =>
        have all : n / ns.prod % e + 1 = e := by omega
        simp [all]
    · have quotient : (n + 1) / ns.prod = n / ns.prod :=
        Nat.succ_div_of_not_dvd fun divides => carry (Nat.mod_eq_zero_of_dvd divides)
      simp [carry, quotient]

theorem digits_zero (ns : List Nat) : digits ns 0 = List.replicate ns.length 0 := by
  induction ns with
  | nil => rfl
  | cons extent ns ih => rw [digits, ih, Nat.zero_div, Nat.zero_mod]; rfl

/-- After `n` ticks the odometer shows the digits of `n`. -/
theorem odometer_eq (extents : Denotes shape ns) (some_ : ns.prod ≠ 0) (few : ns.prod < 2 ^ 53)
    (n : Nat) : odometer shape n = digits ns n := by
  induction n with
  | zero =>
    rw [digits_zero, ← extents.length_eq]
    rfl
  | succ n ih =>
    rw [odometer, Function.iterate_succ_apply', ← odometer, ih, tick_digits extents some_ few]

/-! ## Sums of strides -/

/-- What the axes add to the offset: as many strides as the cursor says. -/
def parts (strides : List Int) (cursor : List Nat) : List Int :=
  List.zipWith (fun (i : Nat) stride => i * stride) cursor strides

theorem positionFrom_eq (strides : List Number) (a : Int) (cursor : List Nat) :
    positionFrom strides a cursor = a + (parts (strides.map Number.integer) cursor).sum := by
  induction strides generalizing a cursor with
  | nil => simp [positionFrom, parts]
  | cons stride strides ih =>
    cases cursor with
    | nil => simp [positionFrom, parts]
    | cons i cursor =>
      refine (ih (a + i * stride.integer) cursor).trans ?_
      simp [parts, add_assoc]

/-- Each axis with a choice of positions steps over as much as the axes behind it have. -/
def Unbroken : (extents : List Nat) → (strides : List Int) → Prop
  | extent :: inner, stride :: strides =>
    (extent ≤ 1 ∨ stride = (inner.prod : Nat)) ∧ Unbroken inner strides
  | _, _ => True

/-- The digits of each number add up to it exactly if the strides are those of an array. -/
theorem sum_parts_eq_iff {bs : List Int} (rank : bs.length = ns.length) (some_ : ns.prod ≠ 0) :
    (∀ n < ns.prod, (parts bs (digits ns n)).sum = n) ↔ Unbroken ns bs := by
  induction ns generalizing bs with
  | nil => simp [digits, parts, Unbroken]
  | cons extent ns ih =>
    obtain ⟨b, bs, rfl⟩ := List.exists_cons_of_length_eq_add_one rank
    rw [List.prod_cons] at some_ ⊢
    obtain ⟨rows, width⟩ := Nat.mul_ne_zero_iff.1 some_
    have positive : 0 < ns.prod := Nat.pos_of_ne_zero width
    have width_le : ns.prod ≤ extent * ns.prod :=
      Nat.le_mul_of_pos_left _ (Nat.pos_of_ne_zero rows)
    have sum (n : Nat) : (parts (b :: bs) (digits (extent :: ns) n)).sum =
        (n / ns.prod % extent : Nat) * b + (parts bs (digits ns n)).sum := by
      rw [digits, parts, List.zipWith_cons_cons, List.sum_cons, ← parts]
    have inner := ih (Nat.succ.inj rank) width
    rw [Unbroken, ← inner]
    refine ⟨fun all => ?_, fun ⟨axis, all⟩ n less => ?_⟩
    · have inside (n : Nat) (less : n < ns.prod) : (parts bs (digits ns n)).sum = n := by
        have whole := all n (less.trans_le width_le)
        rwa [sum, Nat.div_eq_of_lt less, Nat.zero_mod, Nat.cast_zero, zero_mul, zero_add] at whole
      refine ⟨?_, inside⟩
      -- The first number with a digit other than zero on this axis tells its stride.
      by_contra! broken
      obtain ⟨many, differs⟩ := broken
      have next := all ns.prod (lt_mul_of_one_lt_left positive many)
      have wrapped : digits ns ns.prod = digits ns 0 := by
        have wrapped := digits_add_mul ns 0 1
        rwa [Nat.zero_add, Nat.one_mul] at wrapped
      rw [sum, Nat.div_self positive, Nat.mod_eq_of_lt many, wrapped, inside 0 positive,
        Nat.cast_one, one_mul, Nat.cast_zero, add_zero] at next
      exact differs next
    · have row : n / ns.prod < extent := Nat.div_lt_of_lt_mul (by rwa [Nat.mul_comm])
      have split : n % ns.prod + n / ns.prod * ns.prod = n := Nat.mod_add_div' n ns.prod
      have rest : (parts bs (digits ns n)).sum = (n % ns.prod : Nat) := by
        rw [← all _ (Nat.mod_lt n positive), ← digits_add_mul ns (n % ns.prod) (n / ns.prod), split]
      have first : ((n / ns.prod : Nat) : Int) * b = (n / ns.prod : Nat) * (ns.prod : Nat) := by
        rcases axis with single | stride
        · have zero : n / ns.prod = 0 := Nat.lt_one_iff.1 (row.trans_le single)
          rw [zero, Nat.cast_zero, zero_mul, zero_mul]
        · rw [stride]
      rw [sum, Nat.mod_eq_of_lt row, rest, first, add_comm, ← Nat.cast_mul, ← Nat.cast_add, split]

/-! ## Exact sums -/

/-- Elements are added up without rounding, as long as they and what the axes add are small. -/
theorem value?_addressFrom (extents : Denotes shape ns) (rank : strides.length = shape.length)
    (integral : ∀ stride ∈ strides, stride.isInteger = true) (some_ : ns.prod ≠ 0)
    (few : ns.prod < 2 ^ 53) {x : Number} {a : Int} (value : x.value? = some (a : Rat))
    (exact : ∀ cursor ∈ cursors shape, (positionFrom strides a cursor).natAbs < 2 ^ 53 ∧
      ∀ part ∈ parts (strides.map Number.integer) cursor, part.natAbs < 2 ^ 53) :
    ∀ cursor ∈ cursors shape,
      (addressFrom strides x cursor).value? = some (positionFrom strides a cursor : Rat) := by
  induction extents generalizing x a strides with
  | nil =>
    intro cursor member
    rw [List.mem_singleton.1 member]
    exact value
  | @cons extent e inner ns first rest ih =>
    obtain ⟨stride, strides, rfl⟩ := List.exists_cons_of_length_eq_add_one rank
    rw [List.forall_mem_cons] at integral
    obtain ⟨⟨positive, small⟩, width, few⟩ := of_prod_cons some_ few
    intro cursor member
    obtain ⟨i, isPosition, cursor, isInner, rfl⟩ := mem_cursors_cons_iff.1 member
    have below := isPosition
    rw [positions_eq first positive] at below
    -- The sum so far is the element at the first position of all further axes.
    obtain ⟨start, parts_⟩ := exact _ (cons_mem_cursors isPosition (replicate_mem_cursors inner))
    have start : (a + i * stride.integer).natAbs < 2 ^ 53 := by
      have position := positionFrom_replicate strides (a + i * stride.integer) inner.length
      rwa [← position]
    have index : (Number.ofNat i).Denotes i := Number.denotes_ofNat (below.trans small)
    have product : (Number.ofNat i * stride).value? = some ((i * stride.integer : Int) : Rat) :=
      Number.value?_mul (by rwa [Int.cast_natCast]) (Number.value?_of_isInteger integral.1)
        (parts_ _ List.mem_cons_self)
    have next := Number.value?_add value product start
    refine ih (Nat.succ.inj rank) integral.2 width few next ?_ cursor isInner
    intro cursor member
    obtain ⟨sum, all⟩ := exact _ (cons_mem_cursors isPosition member)
    exact ⟨sum, fun part isPart => all part (List.mem_cons_of_mem _ isPart)⟩

/-- What an axis adds is the distance between two positions. -/
theorem natAbs_lt_of_mem_parts {bound : Nat} (rank : strides.length = shape.length) {a : Int}
    (inside : ∀ cursor ∈ cursors shape, ∃ p < bound, ((p : Nat) : Int) =
      positionFrom strides a cursor) :
    ∀ cursor ∈ cursors shape, ∀ part ∈ parts (strides.map Number.integer) cursor,
      part.natAbs < bound := by
  induction shape generalizing strides a with
  | nil =>
    intro cursor member part isPart
    rw [List.mem_singleton.1 member] at isPart
    cases isPart
  | cons extent inner ih =>
    obtain ⟨stride, strides, rfl⟩ := List.exists_cons_of_length_eq_add_one rank
    intro cursor member part isPart
    obtain ⟨i, isPosition, cursor, isInner, rfl⟩ := mem_cursors_cons_iff.1 member
    have row {i : Nat} (less : i < positions extent) :
        ∃ p < bound, ((p : Nat) : Int) = a + i * stride.integer := by
      obtain ⟨p, below, isPlace⟩ := inside _ (cons_mem_cursors less (replicate_mem_cursors inner))
      exact ⟨p, below, isPlace.trans (positionFrom_replicate strides _ _)⟩
    rcases List.mem_cons.1 isPart with rfl | isPart
    · obtain ⟨first, below, isFirst⟩ := row (positions_pos extent)
      obtain ⟨p, below', isPlace⟩ := row isPosition
      rw [Nat.cast_zero, zero_mul, add_zero] at isFirst
      change (i * stride.integer).natAbs < bound
      omega
    · exact ih (Nat.succ.inj rank)
        (fun cursor member => inside _ (cons_mem_cursors isPosition member)) cursor isInner part
        isPart

end Shape

namespace Region

variable {r : Region} {b : Base} {ns : List Nat}

/-! ## Elements by their number -/

/-- Where element `n` ought to be: the offset and, for each axis, as many strides as the digit of
`n` says. -/
def index (r : Region) (ns : List Nat) (n : Nat) : Int :=
  r.offset.integer + (Shape.parts (r.strides.map Number.integer) (Shape.digits ns n)).sum

/-- What is added up for an element, and the sums, are so small that nothing is rounded. -/
structure IsExact (r : Region) (ns : List Nat) : Prop where
  index : ∀ n < ns.prod, (r.index ns n).natAbs < 2 ^ 53
  parts : ∀ n < ns.prod, ∀ part ∈ Shape.parts (r.strides.map Number.integer) (Shape.digits ns n),
    part.natAbs < 2 ^ 53

theorem elements_eq_nil_of_prod_eq_zero (extents : Shape.Denotes r.shape ns)
    (empty : ns.prod = 0) : r.elements = [] := by
  apply List.eq_nil_of_length_eq_zero
  rw [length_elements]
  exact extents.tracks_size.countBelow_eq_zero_iff.2 empty

/-- Element `n` is under the digits of `n`. -/
theorem elements_eq_map_digits (extents : Shape.Denotes r.shape ns) (few : ns.prod < 2 ^ 53) :
    r.elements = (List.range ns.prod).map fun n => r.address (Shape.digits ns n) := by
  by_cases empty : ns.prod = 0
  · rw [elements_eq_nil_of_prod_eq_zero extents empty, empty]
    rfl
  · rw [elements_eq_map_cursors extents empty few, Shape.cursors_eq extents empty, List.map_map]
    rfl

theorem forall_mem_cursors_iff (extents : Shape.Denotes r.shape ns) (some_ : ns.prod ≠ 0)
    {holds : List Nat → Prop} :
    (∀ cursor ∈ Shape.cursors r.shape, holds cursor) ↔
      ∀ n < ns.prod, holds (Shape.digits ns n) := by
  simp [Shape.cursors_eq extents some_]

theorem IsExact.value?_address (exact : r.IsExact ns) (extents : Shape.Denotes r.shape ns)
    (rank : r.strides.length = r.shape.length) (integral : r.IsIntegral) (few : ns.prod < 2 ^ 53)
    {n : Nat} (less : n < ns.prod) :
    (r.address (Shape.digits ns n)).value? = some (r.index ns n : Rat) := by
  have some_ : ns.prod ≠ 0 := Nat.ne_zero_of_lt less
  have small (n : Nat) (less : n < ns.prod) :
      (Shape.positionFrom r.strides r.offset.integer (Shape.digits ns n)).natAbs < 2 ^ 53 ∧
        ∀ part ∈ Shape.parts (r.strides.map Number.integer) (Shape.digits ns n),
          part.natAbs < 2 ^ 53 := by
    rw [Shape.positionFrom_eq]
    exact ⟨exact.index n less, exact.parts n less⟩
  have value := Shape.value?_addressFrom extents rank integral.strides some_ few
    (Number.value?_of_isInteger integral.offset)
    ((forall_mem_cursors_iff extents some_).2 small)
  rw [Region.index, ← Shape.positionFrom_eq]
  exact (forall_mem_cursors_iff extents some_).1 value n less

theorem IsExact.map_elements (exact : r.IsExact ns) (extents : Shape.Denotes r.shape ns)
    (rank : r.strides.length = r.shape.length) (integral : r.IsIntegral)
    (few : ns.prod < 2 ^ 53) :
    r.elements.map Number.toInt? = (List.range ns.prod).map fun n => some (r.index ns n) := by
  rw [elements_eq_map_digits extents few, List.map_map]
  refine List.map_congr_left fun n inside => ?_
  exact Number.toInt?_of_value
    (exact.value?_address extents rank integral few (List.mem_range.1 inside))

/-- Elements inside a base are exact. -/
theorem Plotted.isExact (plotted : r.Plotted b ns) : r.IsExact ns := by
  have places := plotted.exists_address
  have inside : ∀ cursor ∈ Shape.cursors r.shape, ∃ p < b.extents.prod,
      ((p : Nat) : Int) = Shape.positionFrom r.strides r.offset.integer cursor := by
    intro cursor member
    obtain ⟨p, less, -, isPlace⟩ := places cursor member
    exact ⟨p, less, isPlace⟩
  have parts := Shape.natAbs_lt_of_mem_parts plotted.rank inside
  rw [forall_mem_cursors_iff plotted.extents plotted.some_] at inside parts
  refine ⟨fun n less => ?_, fun n less part isPart => ?_⟩
  · obtain ⟨p, below, isPlace⟩ := inside n less
    rw [Region.index, ← Shape.positionFrom_eq, ← isPlace, Int.natAbs_natCast]
    exact below.trans plotted.sized.small
  · exact (parts n less part isPart).trans plotted.sized.small

/-! ## Runs -/

/-- Strides are compared one by one, except on axes of at most one position. -/
theorem isContiguous_iff {shape strides : List Number} {offset : Number}
    (extents : Shape.Denotes shape ns) (rank : strides.length = shape.length)
    (integral : ∀ stride ∈ strides, stride.isInteger = true) (some_ : ns.prod ≠ 0)
    (few : ns.prod < 2 ^ 53) :
    (mk shape offset strides).isContiguous = true ↔
      Shape.Unbroken ns (strides.map Number.integer) := by
  induction extents generalizing strides with
  | nil => simp [isContiguous, Shape.Unbroken]
  | @cons extent e inner ns first rest ih =>
    obtain ⟨stride, strides, rfl⟩ := List.exists_cons_of_length_eq_add_one rank
    rw [List.forall_mem_cons] at integral
    obtain ⟨-, width, few⟩ := Shape.of_prod_cons some_ few
    have span : (Shape.span inner).Denotes ns.prod :=
      Shape.denotes_span rest (by rwa [Shape.bulk_eq_prod width])
    have natural : stride.same (Shape.span inner) = true ↔ stride.integer = (ns.prod : Nat) := by
      rw [Number.same_iff_of_value (Number.value?_of_isInteger integral.1) span,
        ← Int.cast_natCast, Int.cast_inj]
    rw [List.map_cons, Shape.Unbroken, ← ih (Nat.succ.inj rank) integral.2 width few, ← natural,
      ← first.le_iff Number.denotes_one]
    simp only [isContiguous, Shape.rowMajor, List.zip_cons_cons, List.all_cons, Bool.and_eq_true,
      Bool.or_eq_true]

/-- A region with elements is contiguous if and only if they ought to follow each other. -/
theorem isContiguous_iff_index (extents : Shape.Denotes r.shape ns)
    (rank : r.strides.length = r.shape.length) (integral : r.IsIntegral) (some_ : ns.prod ≠ 0)
    (few : ns.prod < 2 ^ 53) :
    r.isContiguous = true ↔ ∀ n < ns.prod, r.index ns n = r.offset.integer + n := by
  have rank' : (r.strides.map Number.integer).length = ns.length := by
    rw [List.length_map, rank, extents.length_eq]
  rw [isContiguous_iff extents rank integral.strides some_ few,
    ← Shape.sum_parts_eq_iff rank' some_]
  simp only [index, add_right_inj]

end Region

/-- The elements of a signal of integer geometry, whose base has an exact size, are exact. -/
theorem Signal.isExact {s : Signal} {ns : List Nat} (sized : s.base.Sized)
    (extents : Shape.Denotes s.shape ns) (integral : s.region.IsIntegral)
    (few : ns.prod < 2 ^ 53) : s.region.IsExact ns := by
  by_cases empty : ns.prod = 0
  · constructor <;> intro n less <;> rw [empty] at less <;> cases less
  · have plotted : s.region.Plotted s.base ns :=
      ⟨sized, extents, empty, few, s.length_strides, integral, s.inside_of_sized sized⟩
    exact plotted.isExact

namespace Region

variable {r : Region} {ns : List Nat}

/-- The elements of a region of integer geometry can be listed if they are fewer than `2 ^ 32`, and
are those under the cursors that an odometer shows, which are the digits of their numbers.  Unless
sums are rounded, element `n` is the offset plus as many strides on each axis as the digit says, and
a region with elements is contiguous if and only if they follow each other.  No sum is rounded in
signals of bases with an exact size. -/
theorem elements_rowMajor (extents : Shape.Denotes r.shape ns)
    (rank : r.strides.length = r.shape.length) (integral : r.IsIntegral)
    (listed : ns.prod < 2 ^ 32) :
    r.enumerate = .ok r.elements ∧ r.elements.length = ns.prod ∧
      r.elements = (List.range ns.prod).map (fun n => r.address (Shape.odometer r.shape n)) ∧
      (∀ n < ns.prod, Shape.odometer r.shape n = Shape.digits ns n) ∧
      (r.IsExact ns →
        r.elements.map Number.toInt? = (List.range ns.prod).map (fun n => some (r.index ns n)) ∧
        (0 < ns.prod → (r.isContiguous = true ↔ r.elements.map Number.toInt? =
          (List.range ns.prod).map fun n : Nat => some (r.offset.integer + n)))) ∧
      ∀ s : Signal, s.region = r → s.base.Sized → r.IsExact ns := by
  have few : ns.prod < 2 ^ 53 := listed.trans (by norm_num)
  have elements := elements_eq_map_digits extents few
  have length : r.elements.length = ns.prod := by
    rw [elements, List.length_map, List.length_range]
  have shows (n : Nat) (less : n < ns.prod) : Shape.odometer r.shape n = Shape.digits ns n :=
    Shape.odometer_eq extents (Nat.ne_zero_of_lt less) few n
  refine ⟨?_, length, ?_, shows, fun exact => ?_, ?_⟩
  · rw [enumerate_eq_ok_iff, ← length_elements, length]
    exact ⟨listed, rfl⟩
  · rw [elements]
    refine List.map_congr_left fun n inside => ?_
    rw [shows n (List.mem_range.1 inside)]
  · have indices := exact.map_elements extents rank integral few
    refine ⟨indices, fun positive => ?_⟩
    rw [isContiguous_iff_index extents rank integral positive.ne' few, indices, List.map_inj_left]
    simp only [List.mem_range, Option.some.injEq]
  · rintro s rfl sized
    exact s.isExact sized extents integral few

open MemoryLayout in
theorem elements_rowMajor_backwards :
    backwards.region.enumerate = .ok backwards.elements ∧
      backwards.elements.map Number.toInt? = [some 4, some 5, some 2, some 3] ∧
      backwards.isContiguous = false := by
  have extents : Shape.Denotes backwards.region.shape [2, 2] := .cons rfl (.cons rfl .nil)
  obtain ⟨enumerated, -, -, -, exact, isExact⟩ := elements_rowMajor extents rfl
    ⟨by decide +kernel, by decide +kernel⟩ (by decide)
  obtain ⟨indices, isRun⟩ := exact (isExact backwards rfl ⟨by decide +kernel, by decide +kernel⟩)
  have elements : backwards.region.elements.map Number.toInt? =
      [some 4, some 5, some 2, some 3] := by
    rw [indices]
    decide +kernel
  refine ⟨enumerated, elements, Bool.eq_false_iff.2 fun contiguous => ?_⟩
  have run := (isRun (by decide)).1 contiguous
  rw [elements] at run
  revert run
  decide +kernel

/-- So many elements that the last ones are no longer numbered one by one. -/
def expanse : Base :=
  ⟨0, "expanse", .float32, [9007199254741000], [0], false, false, by decide +kernel, .inl rfl⟩

/-- Four elements, of which the last one should be two behind the first one. -/
def square : Signal :=
  ⟨expanse, some ⟨1, "square", ⟨[2, 2], 9007199254740992, [1, 1]⟩, rfl⟩, by decide +kernel⟩

/-- Two elements, of which the second one should be two behind the first one. -/
def leap : Signal :=
  ⟨expanse, some ⟨1, "leap", ⟨[2], 9007199254740991, [2]⟩, rfl⟩, by decide +kernel⟩

/-- From `2 ^ 53` on sums of offset and strides are rounded: elements are not where they ought to
be, and may follow each other although the region is not contiguous.  As many as `2 ^ 32` elements
are not listed at all. -/
theorem elements_rounded :
    (square.elements.map Number.toInt? = List.replicate 4 (some (2 ^ 53)) ∧
      (List.range 4).map (square.region.index [2, 2]) =
        [2 ^ 53, 2 ^ 53 + 1, 2 ^ 53 + 1, 2 ^ 53 + 2]) ∧
    (leap.elements.map Number.toInt? = [some (2 ^ 53 - 1), some (2 ^ 53)] ∧
      leap.isContiguous = false) ∧
    expanse.region.enumerate = .error .lengthInvalid := by
  decide +kernel

end Region

end BatchGraph
