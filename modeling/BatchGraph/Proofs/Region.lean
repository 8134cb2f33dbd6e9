import BatchGraph.Proofs.Number.Order
import BatchGraph.Proofs.Number.Signed

/-!
Elements of regions with strides of any kind.

A region without gaps has the elements of an array in their order, except that the stride of an axis
with one position may be no number, or infinite, and then the elements are no numbers.  So they are
related to their positions by `Number.MayDenote` in general, and by `Number.Denotes` if no stride
spoils them; all that either relation needs is that it can be summed (`Number.Summable`,
`forall₂_elements_of_contiguous`).  What is known of a region in general is known of its elements
under cursors at the first position of every inner axis (`lands_addressFrom_replicate`).
-/

namespace BatchGraph

namespace Number

variable {x y : Number} {m n : Nat}

/-- The number has the value of a natural number, if it is a number at all. -/
def MayDenote (x : Number) (n : Nat) : Prop := x = nan ∨ x.Denotes n

theorem MayDenote.add (hx : x.MayDenote m) (hy : y.MayDenote n) (small : m + n < 2 ^ 53) :
    (x + y).MayDenote (m + n) := by
  rcases hx with rfl | hx
  · exact .inl rfl
  · rcases hy with rfl | hy
    · refine .inl ?_
      cases x <;> rfl
    · exact .inr (hx.add hy small)

theorem Denotes.mayDenote_mul (hx : x.Denotes 0) (y : Number) : (x * y).MayDenote 0 := by
  have isZero : x.isZero = true := hx.isZero_iff.2 rfl
  cases y with
  | nan =>
    left
    cases x <;> rfl
  | infinity negative =>
    left
    change Number.mul x (infinity negative) = nan
    rcases denotes_iff.1 hx with rfl | ⟨rfl, -⟩ <;> simp only [Number.mul, isZero, if_true]
  | negativeZero => exact .inr (hx.zero_mul rfl)
  | finite q => exact .inr (hx.zero_mul rfl)

/-- Positions of elements can be summed up in the relation. -/
structure Summable (R : Number → Nat → Prop) : Prop where
  of_denotes {x : Number} {n : Nat} (denotes : x.Denotes n) : R x n
  add {x y : Number} {m n : Nat} (first : R x m) (second : R y n) (small : m + n < 2 ^ 53) :
    R (x + y) (m + n)

theorem summable_denotes : Summable Denotes := ⟨id, Denotes.add⟩

theorem summable_mayDenote : Summable MayDenote := ⟨.inr, MayDenote.add⟩

end Number

namespace Shape

variable {shape : List Number} {ns : List Nat}

/-! ## Cursors -/

theorem positions_pos (extent : Number) : 0 < positions extent :=
  lt_of_lt_of_le one_pos (Nat.le_max_left 1 _)

/-- The first axis and the others are independent of each other. -/
theorem mem_cursors_cons_iff {extent : Number} {inner : List Number} {cursor : List Nat} :
    cursor ∈ cursors (extent :: inner) ↔
      ∃ i < positions extent, ∃ rest ∈ cursors inner, cursor = i :: rest := by
  simp only [cursors, List.mem_flatMap, List.mem_range, List.mem_map, eq_comm]

theorem cons_mem_cursors {extent : Number} {inner : List Number} {i : Nat} {rest : List Nat}
    (less : i < positions extent) (member : rest ∈ cursors inner) :
    i :: rest ∈ cursors (extent :: inner) :=
  mem_cursors_cons_iff.2 ⟨i, less, rest, member, rfl⟩

theorem replicate_mem_cursors (shape : List Number) :
    List.replicate shape.length 0 ∈ cursors shape := by
  induction shape with
  | nil => exact List.mem_singleton_self _
  | cons extent inner ih => exact cons_mem_cursors (positions_pos extent) ih

theorem length_cursors (extents : Denotes shape ns) (nonempty : ns.prod ≠ 0) :
    (cursors shape).length = ns.prod := by
  induction extents with
  | nil => rfl
  | @cons extent n inner ns first _ ih =>
    rw [List.prod_cons] at nonempty ⊢
    obtain ⟨some_, nonempty'⟩ := Nat.mul_ne_zero_iff.1 nonempty
    simp [cursors, List.length_flatMap, positions_eq first (Nat.pos_of_ne_zero some_),
      ih nonempty']

/-! ## Addresses -/

/-- The elements of a region without gaps, from some element on. -/
theorem forall₂_addresses_of_contiguous {R : Number → Nat → Prop} (sum : Number.Summable R)
    {x : Number} {a : Nat} {strides : List Number} (start : R x a) (extents : Denotes shape ns)
    (rank : strides.length = shape.length)
    (fixed : ∀ stride ∈ strides, R (Number.ofNat 0 * stride) 0)
    (contiguous : (Region.mk shape x strides).isContiguous = true)
    (nonempty : ns.prod ≠ 0) (small : a + ns.prod < 2 ^ 53) :
    List.Forall₂ R ((cursors shape).map (addressFrom strides x))
      ((List.range ns.prod).map (a + ·)) := by
  induction extents generalizing x a strides with
  | nil => exact .cons start .nil
  | @cons extent n inner ns first rest ih =>
    obtain ⟨stride, strides, rfl⟩ := List.exists_cons_of_length_eq_add_one rank
    simp only [Region.isContiguous, rowMajor, List.zip_cons_cons, List.all_cons,
      Bool.and_eq_true, Bool.or_eq_true] at contiguous
    obtain ⟨axis, contiguous⟩ := contiguous
    rw [List.forall_mem_cons] at fixed
    rw [List.prod_cons] at nonempty small
    obtain ⟨some_, nonempty'⟩ := Nat.mul_ne_zero_iff.1 nonempty
    have positive : 0 < n := Nat.pos_of_ne_zero some_
    have inside : ns.prod ≤ n * ns.prod := Nat.le_mul_of_pos_left _ positive
    have span : (span inner).Denotes ns.prod := by
      apply denotes_span rest
      rw [bulk_eq_prod nonempty']
      omega
    have blocks : (List.range (n * ns.prod)).map (a + ·) =
        (List.range n).flatMap fun i => (List.range ns.prod).map (a + i * ns.prod + ·) := by
      rw [← rowPositions_range, rowPositions, List.map_flatMap]
      simp [Function.comp_def, Nat.add_assoc]
    rw [List.prod_cons, blocks]
    apply forall₂_addresses_cons first positive
    intro i less
    have row : i * ns.prod + ns.prod ≤ n * ns.prod := by
      rw [← Nat.succ_mul]
      exact Nat.mul_le_mul_right _ less
    refine ih (sum.add start ?_ (by omega)) (by simpa using rank) fixed.2 contiguous nonempty'
      (by omega)
    rcases axis with single | natural
    · have least : n ≤ 1 := (first.le_iff Number.denotes_one).1 single
      have zero : i = 0 := by omega
      rw [zero, Nat.zero_mul]
      exact fixed.1
    · rw [Number.same_comm] at natural
      have index : i ≤ i * ns.prod := Nat.le_mul_of_pos_right _ (Nat.pos_of_ne_zero nonempty')
      exact sum.of_denotes
        ((Number.denotes_ofNat (by omega)).mul (span.of_same natural) (by omega))

/-- Under the first positions of all axes lies the element from which the region starts. -/
theorem lands_addressFrom_replicate {x : Number} {a : Int} {strides : List Number}
    (lands : x.Lands a) (fixed : ∀ stride ∈ strides, (Number.ofNat 0 * stride).Denotes 0)
    (rank : Nat) : (addressFrom strides x (List.replicate rank 0)).Lands a := by
  induction strides generalizing x rank with
  | nil => rwa [addressFrom, List.zip_nil_right]
  | cons stride strides ih =>
    rw [List.forall_mem_cons] at fixed
    cases rank with
    | zero => exact lands
    | succ rank => exact ih (lands.add_denotes_zero fixed.1) fixed.2 rank

end Shape

namespace Region

variable {ns : List Nat}

theorem length_elements (r : Region) : r.elements.length = r.size.countBelow := by
  rw [elements]
  split
  case h_1 none => rw [none]; rfl
  case h_2 =>
    have some_ := List.ne_nil_of_mem (Shape.replicate_mem_cursors r.shape)
    exact length_cycleTo (by simpa using some_) _

theorem elements_eq {r : Region} (size : r.size.Denotes (Shape.cursors r.shape).length) :
    r.elements = (Shape.cursors r.shape).map r.address := by
  have some_ : (Shape.cursors r.shape).length ≠ 0 := fun none =>
    List.ne_nil_of_mem (Shape.replicate_mem_cursors r.shape) (List.length_eq_zero_iff.1 none)
  rw [elements, size.countBelow_eq]
  split
  case h_1 none => exact absurd none some_
  case h_2 => exact if_pos (List.length_map _)

/-- There is an element under each cursor, if there are any, but not too many. -/
theorem elements_eq_map_cursors {r : Region} (extents : Shape.Denotes r.shape ns)
    (some_ : ns.prod ≠ 0) (few : ns.prod < 2 ^ 53) :
    r.elements = (Shape.cursors r.shape).map r.address := by
  apply elements_eq
  rw [Shape.length_cursors extents some_]
  exact Shape.denotes_size extents (by rwa [Shape.bulk_eq_prod some_])

/-- Each element is under a cursor. -/
theorem mem_elements_iff {r : Region} {x : Number} (extents : Shape.Denotes r.shape ns)
    (some_ : ns.prod ≠ 0) (few : ns.prod < 2 ^ 53) :
    x ∈ r.elements ↔ ∃ cursor ∈ Shape.cursors r.shape, r.address cursor = x := by
  rw [elements_eq_map_cursors extents some_ few, List.mem_map]

/-- The elements of a region without gaps, if there are any. -/
theorem forall₂_elements_of_contiguous {R : Number → Nat → Prop} (sum : Number.Summable R)
    {r : Region} {first : Nat} (extents : Shape.Denotes r.shape ns)
    (rank : r.strides.length = r.shape.length)
    (fixed : ∀ stride ∈ r.strides, R (Number.ofNat 0 * stride) 0)
    (contiguous : r.isContiguous = true) (offset : R r.offset first) (size : r.size.Denotes ns.prod)
    (small : first + ns.prod < 2 ^ 53) :
    List.Forall₂ R r.elements ((List.range ns.prod).map (first + ·)) := by
  by_cases empty : ns.prod = 0
  · rw [empty] at size ⊢
    rw [elements_eq_nil size]
    exact .nil
  · exact forall₂_elements (by rwa [List.length_map, List.length_range])
      (Shape.forall₂_addresses_of_contiguous sum offset extents rank fixed contiguous empty small)

/-- The offset and the strides are numbers. -/
structure IsFinite (r : Region) : Prop where
  offset : r.offset.value?.isSome = true
  strides : ∀ stride ∈ r.strides, stride.value?.isSome = true

instance (r : Region) : Decidable r.IsFinite :=
  decidable_of_iff (r.offset.value?.isSome = true ∧ ∀ stride ∈ r.strides,
    stride.value?.isSome = true) ⟨fun ⟨offset, strides⟩ => ⟨offset, strides⟩,
      fun ⟨offset, strides⟩ => ⟨offset, strides⟩⟩

theorem IsFinite.fixed {r : Region} (isFinite : r.IsFinite) :
    ∀ stride ∈ r.strides, (Number.ofNat 0 * stride).Denotes 0 := by
  intro stride member
  obtain ⟨q, value⟩ := Option.isSome_iff_exists.1 (isFinite.strides stride member)
  exact Number.denotes_zero_mul value

end Region

end BatchGraph
