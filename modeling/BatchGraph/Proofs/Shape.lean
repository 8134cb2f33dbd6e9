import Mathlib.Algebra.BigOperators.Ring.List
import Mathlib.Data.List.Forall2
import BatchGraph.Proofs.Number.Exact

/-!
Shapes of natural extents, and the elements of runs of rows.

`Shape.Denotes shape ns` relates the extents of a shape to natural numbers.  Sizes, spans and
strides are then those of the natural numbers, as long as the extents that are not zero multiply to
less than `2 ^ 53` (`Shape.bulk`); a zero among them makes the size zero, but not the partial
products.

A region whose inner axes lie as in a whole array consists of rows.  `forall₂_elements_rows` lists
its elements by row and position in the row, and those of a whole array are a range.
-/

namespace BatchGraph

namespace Shape

/-! ## Natural extents -/

def Denotes (shape : List Number) (ns : List Nat) : Prop := List.Forall₂ Number.Denotes shape ns

theorem denotes_of_natural {shape : List Number} (natural : shape.all Number.isNatural = true) :
    Denotes shape (shape.map Number.countBelow) := by
  refine List.forall₂_map_right_iff.2 (List.forall₂_same.2 fun extent member => ?_)
  obtain ⟨n, isNat⟩ := Number.exists_denotes_of_isNatural (List.all_eq_true.1 natural extent member)
  rwa [isNat.countBelow_eq]

/-- The product of the extents that are not zero. -/
def bulk (ns : List Nat) : Nat := (ns.filter (· ≠ 0)).prod

theorem bulk_pos (ns : List Nat) : 0 < bulk ns := by
  apply Nat.pos_of_ne_zero
  intro zero
  have member := List.prod_eq_zero_iff.1 zero
  simp at member

theorem bulk_cons_zero (ns : List Nat) : bulk (0 :: ns) = bulk ns := by
  simp [bulk]

theorem bulk_cons {n : Nat} (nonzero : n ≠ 0) (ns : List Nat) :
    bulk (n :: ns) = n * bulk ns := by
  simp [bulk, nonzero]

theorem bulk_le_cons (n : Nat) (ns : List Nat) : bulk ns ≤ bulk (n :: ns) := by
  by_cases zero : n = 0
  · rw [zero, bulk_cons_zero]
  · rw [bulk_cons zero]
    exact Nat.le_mul_of_pos_left _ (Nat.pos_of_ne_zero zero)

theorem le_bulk_cons (n : Nat) (ns : List Nat) : n * bulk ns ≤ bulk (n :: ns) := by
  by_cases zero : n = 0
  · simp [zero]
  · rw [bulk_cons zero]

theorem bulk_cons_le_bulk_cons {m n : Nat} (le : m ≤ n) (ns : List Nat) :
    bulk (m :: ns) ≤ bulk (n :: ns) := by
  by_cases zero : m = 0
  · rw [zero, bulk_cons_zero]
    exact bulk_le_cons n ns
  · rw [bulk_cons zero]
    exact (Nat.mul_le_mul_right _ le).trans (le_bulk_cons n ns)

theorem prod_le_bulk (ns : List Nat) : ns.prod ≤ bulk ns := by
  induction ns with
  | nil => rfl
  | cons n ns ih =>
    rw [List.prod_cons]
    exact (Nat.mul_le_mul_left n ih).trans (le_bulk_cons n ns)

theorem bulk_eq_prod {ns : List Nat} (nonzero : ns.prod ≠ 0) : bulk ns = ns.prod := by
  rw [bulk, List.filter_eq_self.2]
  intro n member
  have differs : n ≠ 0 := by
    intro same
    subst same
    exact nonzero (List.prod_eq_zero_iff.2 member)
  simpa using differs

/-- Where there are elements, no axis is empty, and the first axis and the others are as small as
all of them. -/
theorem of_prod_cons {n bound : Nat} {ns : List Nat} (some_ : (n :: ns).prod ≠ 0)
    (few : (n :: ns).prod < bound) : (0 < n ∧ n < bound) ∧ ns.prod ≠ 0 ∧ ns.prod < bound := by
  rw [List.prod_cons] at some_ few
  obtain ⟨rows, width⟩ := Nat.mul_ne_zero_iff.1 some_
  have positive : 0 < n := Nat.pos_of_ne_zero rows
  have rows_le : n ≤ n * ns.prod := Nat.le_mul_of_pos_right _ (Nat.pos_of_ne_zero width)
  have width_le : ns.prod ≤ n * ns.prod := Nat.le_mul_of_pos_left _ positive
  exact ⟨⟨positive, rows_le.trans_lt few⟩, width, width_le.trans_lt few⟩

/-! ## Sizes and strides -/

variable {shape : List Number} {ns : List Nat}

theorem denotes_foldl_mul {x : Number} {n : Nat} (start : x.Denotes n) (extents : Denotes shape ns)
    (small : n * bulk ns < 2 ^ 53) : (shape.foldl (· * ·) x).Denotes (n * ns.prod) := by
  induction extents generalizing x n with
  | nil => simpa using start
  | @cons extent e shape ns first _ ih =>
    rw [List.foldl_cons, List.prod_cons, ← Nat.mul_assoc]
    have next : n * e * bulk ns < 2 ^ 53 := by
      rw [Nat.mul_assoc]
      exact (Nat.mul_le_mul_left n (le_bulk_cons e ns)).trans_lt small
    refine ih (start.mul first ?_) next
    exact (Nat.le_mul_of_pos_right _ (bulk_pos ns)).trans_lt next

theorem denotes_size (extents : Denotes shape ns) (small : bulk ns < 2 ^ 53) :
    (size shape).Denotes ns.prod := by
  have product := denotes_foldl_mul Number.denotes_one extents (by rwa [Nat.one_mul])
  rwa [Nat.one_mul] at product

theorem denotes_span (extents : Denotes shape ns) (small : bulk ns < 2 ^ 53) :
    (span shape).Denotes ns.prod := by
  induction extents with
  | nil => exact Number.denotes_one
  | @cons extent e shape ns first _ ih =>
    rw [span, List.prod_cons, Nat.mul_comm]
    apply (ih ((bulk_le_cons e ns).trans_lt small)).mul first
    rw [Nat.mul_comm]
    exact ((Nat.mul_le_mul_left e (prod_le_bulk ns)).trans (le_bulk_cons e ns)).trans_lt small

theorem span_eq_prod (ns : List Nat) : span ns = ns.prod := by
  induction ns with
  | nil => rfl
  | cons n ns ih => rw [span, ih, List.prod_cons, Nat.mul_comm]

theorem denotes_rowMajor (extents : Denotes shape ns) (small : bulk ns < 2 ^ 53) :
    Denotes (rowMajor shape) (rowMajor ns) := by
  induction extents with
  | nil => exact .nil
  | @cons _ n _ ns _ rest ih =>
    have small' := (bulk_le_cons n ns).trans_lt small
    refine .cons ?_ (ih small')
    rw [span_eq_prod]
    exact denotes_span rest small'

theorem same_of_denotes {other : List Number} (first : Denotes shape ns)
    (second : Denotes other ns) : same shape other = true := by
  induction first generalizing other with
  | nil =>
    cases second
    rfl
  | cons extent _ ih =>
    cases second with
    | cons extent' rest' =>
      have rest := ih rest'
      simp only [same, List.length_cons, List.zip_cons_cons, List.all_cons, Bool.and_eq_true,
        beq_iff_eq] at rest ⊢
      exact ⟨by rw [rest.1], (extent.same_iff extent').2 rfl, rest.2⟩

/-! ## Axis 0 and the axes beyond it -/

theorem tail_normalized (shape : List Number) : tail (normalized shape) = tail shape := by
  cases shape <;> rfl

theorem normalized_eq (shape : List Number) : normalized shape = leading shape :: tail shape := by
  cases shape <;> rfl

theorem size_normalized (shape : List Number) : size (normalized shape) = size shape := by
  cases shape with
  | nil =>
    have one : size ([1] : List Number) = size ([] : List Number) := by decide +kernel
    exact one
  | cons _ _ => rfl

theorem map_countBelow (extents : Denotes shape ns) :
    shape.map Number.countBelow = ns := by
  induction extents with
  | nil => rfl
  | cons first _ ih => rw [List.map_cons, first.countBelow_eq, ih]

theorem denotes_normalized (extents : Denotes shape ns) :
    Denotes (normalized shape) (normalized ns) := by
  cases extents with
  | nil => exact .cons Number.denotes_one .nil
  | cons first rest => exact .cons first rest

theorem denotes_tail (extents : Denotes shape ns) :
    Denotes (tail shape) (tail ns) := by
  cases extents with
  | nil => exact .nil
  | cons _ rest => exact rest

theorem denotes_leading (extents : Denotes shape ns) :
    (leading shape).Denotes (leading ns) := by
  cases extents with
  | nil => exact Number.denotes_one
  | cons first _ => exact first

theorem prod_eq (ns : List Nat) : ns.prod = leading ns * (tail ns).prod := by
  cases ns with
  | nil => rfl
  | cons n ns => rfl

theorem bulk_tail_le (ns : List Nat) : bulk (tail ns) ≤ bulk ns := by
  cases ns with
  | nil => exact le_rfl
  | cons n ns => exact bulk_le_cons n ns

/-! ## Elements -/

/-- The positions of the elements of some rows of equal width. -/
def rowPositions (width : Nat) (rows : List Nat) : List Nat :=
  rows.flatMap fun i => (List.range width).map (i * width + ·)

theorem rowPositions_range (width count : Nat) :
    rowPositions width (List.range count) = List.range (count * width) := by
  induction count with
  | zero => simp [rowPositions]
  | succ count ih =>
    have last : rowPositions width (List.range (count + 1)) =
        rowPositions width (List.range count) ++ (List.range width).map (count * width + ·) := by
      simp [rowPositions, List.range_succ]
    rw [last, ih, Nat.succ_mul, List.range_add]

/-- A row inside ends inside. -/
theorem row_le {r rows : Nat} (inside : r < rows) (width : Nat) :
    r * width + width ≤ rows * width := by
  rw [← Nat.succ_mul]
  exact Nat.mul_le_mul_right _ inside

theorem lt_of_mem_rowPositions {width rows q : Nat} {picked : List Nat}
    (inside : ∀ r ∈ picked, r < rows) (member : q ∈ rowPositions width picked) :
    q < rows * width := by
  obtain ⟨r, isPicked, isPosition⟩ := List.mem_flatMap.1 member
  obtain ⟨j, less, rfl⟩ := List.mem_map.1 isPosition
  rw [List.mem_range] at less
  have row := row_le (inside r isPicked) width
  omega

theorem length_rowPositions (width : Nat) (rows : List Nat) :
    (rowPositions width rows).length = rows.length * width := by
  simp [rowPositions, List.length_flatMap]

/-- The element under a cursor, starting from `x`. -/
def addressFrom (strides : List Number) (x : Number) (cursor : List Nat) : Number :=
  (cursor.zip strides).foldl (fun element (i, stride) => element + Number.ofNat i * stride) x

theorem positions_eq {extent : Number} {n : Nat} (h : extent.Denotes n) (positive : 0 < n) :
    positions extent = n := by
  rw [positions, h.countBelow_eq]
  omega

/-- The elements under all cursors, given those under the cursors of the inner axes. -/
theorem forall₂_addresses_cons {R : Number → Nat → Prop} {extent stride x : Number}
    {inner strides : List Number} {n : Nat} {blocks : Nat → List Nat} (h : extent.Denotes n)
    (positive : 0 < n)
    (block : ∀ i < n, List.Forall₂ R
      ((cursors inner).map (addressFrom strides (x + Number.ofNat i * stride))) (blocks i)) :
    List.Forall₂ R ((cursors (extent :: inner)).map (addressFrom (stride :: strides) x))
      ((List.range n).flatMap blocks) := by
  have split : (cursors (extent :: inner)).map (addressFrom (stride :: strides) x) =
      (List.range n).flatMap fun i =>
        (cursors inner).map (addressFrom strides (x + Number.ofNat i * stride)) := by
    rw [cursors, positions_eq h positive, List.map_flatMap]
    simp only [List.map_map]
    rfl
  rw [split]
  refine List.rel_flatMap (R := fun i j => i = j ∧ i < n) (List.forall₂_same.2 ?_) ?_
  · exact fun i member => ⟨rfl, List.mem_range.1 member⟩
  · rintro i _ ⟨rfl, less⟩
    exact block i less

/-- The elements of an array without gaps, from some element on. -/
theorem forall₂_addresses {x : Number} {a : Nat} (start : x.Denotes a)
    (extents : Denotes shape ns) (nonempty : ns.prod ≠ 0) (small : a + ns.prod < 2 ^ 53) :
    List.Forall₂ Number.Denotes ((cursors shape).map (addressFrom (rowMajor shape) x))
      ((List.range ns.prod).map (a + ·)) := by
  induction extents generalizing x a with
  | nil => exact .cons start .nil
  | @cons extent n inner ns first rest ih =>
    rw [List.prod_cons] at nonempty small
    have positive : 0 < n := Nat.pos_of_ne_zero (Nat.mul_ne_zero_iff.1 nonempty).1
    have nonempty' := (Nat.mul_ne_zero_iff.1 nonempty).2
    have width : 0 < ns.prod := Nat.pos_of_ne_zero nonempty'
    have inside : ns.prod ≤ n * ns.prod := Nat.le_mul_of_pos_left _ positive
    have stride : (span inner).Denotes ns.prod := by
      apply denotes_span rest
      rw [bulk_eq_prod nonempty']
      omega
    have blocks : (List.range (n * ns.prod)).map (a + ·) =
        (List.range n).flatMap fun i => (List.range ns.prod).map (a + i * ns.prod + ·) := by
      rw [← rowPositions_range, rowPositions, List.map_flatMap]
      simp [Function.comp_def, Nat.add_assoc]
    rw [List.prod_cons, blocks, rowMajor]
    apply forall₂_addresses_cons first positive
    intro i less
    have row : i * ns.prod + ns.prod ≤ n * ns.prod := by
      rw [← Nat.succ_mul]
      exact Nat.mul_le_mul_right _ less
    have index : i ≤ i * ns.prod := Nat.le_mul_of_pos_right _ width
    refine ih (start.add ((Number.denotes_ofNat ?_).mul stride ?_) ?_) nonempty' ?_ <;> omega

end Shape

namespace Region

variable {shape inner : List Number} {ns : List Nat}

/-- Strides that look like those of a whole array leave no gaps. -/
theorem isContiguous_of_same {offset : Number} {strides : List Number}
    (equal : Shape.same strides (Shape.rowMajor shape) = true) :
    (mk shape offset strides).isContiguous = true := by
  rw [Shape.same, Bool.and_eq_true, List.all_eq_true] at equal
  simp only [isContiguous, List.all_eq_true, Bool.or_eq_true]
  exact fun entry member => .inr (equal.2 entry.2 (List.of_mem_zip member).2)

theorem elements_eq_nil {r : Region} (empty : r.size.Denotes 0) : r.elements = [] := by
  rw [elements, empty.countBelow_eq]
  rfl

/-- There is one element for each cursor, if there are as many cursors as the size says. -/
theorem forall₂_elements {R : Number → Nat → Prop} {r : Region} {ps : List Nat}
    (size : r.size.Denotes ps.length)
    (addresses : List.Forall₂ R
      ((Shape.cursors r.shape).map (Shape.addressFrom r.strides r.offset)) ps) :
    List.Forall₂ R r.elements ps := by
  have length := addresses.length_eq
  rw [elements, size.countBelow_eq]
  split
  case h_1 empty =>
    rw [List.eq_nil_of_length_eq_zero empty]
    exact .nil
  case h_2 =>
    have all : cycleTo ((Shape.cursors r.shape).map r.address) ps.length =
        (Shape.cursors r.shape).map r.address := if_pos length
    rw [all]
    exact addresses

/-- The elements of a region of whole rows of an array: `c` rows from `first` on, `step` apart, all
of which are inside the array. -/
theorem forall₂_elements_rows {count offset stride : Number} {c first step rows : Nat}
    (hcount : count.Denotes c) (extents : Shape.Denotes inner ns)
    (hoffset : offset.Denotes (first * ns.prod)) (hstride : stride.Denotes (step * ns.prod))
    (positive : 0 < step) (within : 0 < c → first + (c - 1) * step < rows)
    (small : Shape.bulk (rows :: ns) < 2 ^ 53) :
    List.Forall₂ Number.Denotes
      (elements ⟨count :: inner, offset, stride :: Shape.rowMajor inner⟩)
      (Shape.rowPositions ns.prod ((List.range c).map (first + · * step))) := by
  have inside (i : Nat) (less : i < c) : first + i * step < rows := by
    have last := within (by omega)
    have bound : i * step ≤ (c - 1) * step := Nat.mul_le_mul_right _ (by omega)
    omega
  have fits : c ≤ rows := by
    by_contra more
    have index : rows ≤ rows * step := Nat.le_mul_of_pos_right _ positive
    have bound := inside rows (by omega)
    omega
  have small' : Shape.bulk (c :: ns) < 2 ^ 53 :=
    (Shape.bulk_cons_le_bulk_cons fits ns).trans_lt small
  have size : (Shape.size (count :: inner)).Denotes (c * ns.prod) := by
    have product := Shape.denotes_size (List.Forall₂.cons hcount extents) small'
    rwa [List.prod_cons] at product
  by_cases empty : c * ns.prod = 0
  · have none : Shape.rowPositions ns.prod ((List.range c).map (first + · * step)) = [] := by
      apply List.eq_nil_of_length_eq_zero
      rw [Shape.length_rowPositions, List.length_map, List.length_range, empty]
    rw [none, elements_eq_nil (by rwa [empty] at size)]
    exact .nil
  · have nonempty := (Nat.mul_ne_zero_iff.1 empty).2
    have width : 0 < ns.prod := Nat.pos_of_ne_zero nonempty
    have total : rows * ns.prod < 2 ^ 53 := by
      rw [← Shape.bulk_eq_prod nonempty]
      exact (Shape.le_bulk_cons rows ns).trans_lt small
    refine forall₂_elements ?_ ?_
    · rw [Shape.length_rowPositions, List.length_map, List.length_range]
      exact size
    · rw [Shape.rowPositions, List.flatMap_map]
      refine Shape.forall₂_addresses_cons hcount
        (Nat.pos_of_ne_zero (Nat.mul_ne_zero_iff.1 empty).1) fun i less => ?_
      have row := Shape.row_le (inside i less) ns.prod
      have split : (first + i * step) * ns.prod = first * ns.prod + i * (step * ns.prod) := by
        rw [Nat.add_mul, Nat.mul_assoc]
      have index : i ≤ i * (step * ns.prod) :=
        Nat.le_mul_of_pos_right _ (Nat.mul_pos positive width)
      rw [split] at row ⊢
      refine Shape.forall₂_addresses (hoffset.add ((Number.denotes_ofNat ?_).mul hstride ?_) ?_)
        extents nonempty ?_ <;> omega

/-- The elements of an array are all of it. -/
theorem forall₂_elements_whole (extents : Shape.Denotes shape ns)
    (small : Shape.bulk ns < 2 ^ 53) :
    List.Forall₂ Number.Denotes (whole shape).elements (List.range ns.prod) := by
  cases extents with
  | nil =>
    refine forall₂_elements (Shape.denotes_size .nil small) ?_
    exact .cons Number.denotes_zero .nil
  | @cons extent n inner ns first rest =>
    have rows : List.Forall₂ Number.Denotes (whole (extent :: inner)).elements
        (Shape.rowPositions ns.prod ((List.range n).map (0 + · * 1))) := by
      refine forall₂_elements_rows first rest ?_ ?_ one_pos ?_ small
      · rw [Nat.zero_mul]
        exact Number.denotes_zero
      · rw [Nat.one_mul]
        exact Shape.denotes_span rest ((Shape.bulk_le_cons n ns).trans_lt small)
      · omega
    simpa [Shape.rowPositions_range] using rows

end Region

end BatchGraph
