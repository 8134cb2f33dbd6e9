import BatchGraph.Proofs.Containment
import BatchGraph.Proofs.Dependency.Derived

/-!
Signals are said to share memory exactly if they have a common element.

For two views the elements are compared.  Where one of the signals is a whole base, only the sizes
are, as every element of the view is one of the base.  But a position that is no integer passes the
bounds as well and is no element of the base, so a view must have some element that is one
(`Signal.IsGrounded`), as all views from an integer on have unless a stride is infinite.  Otherwise
the view and the base are said to share memory that they do not share (`mayShareMemory_astray`).
-/

namespace BatchGraph

/-! ## The first element -/

theorem mem_cycleTo_head {α : Type} {value : α} {values : List α} {count : Nat}
    (some_ : count ≠ 0) : value ∈ cycleTo (value :: values) count := by
  unfold cycleTo
  split
  · exact List.mem_cons_self
  · exact List.mem_filterMap.2 ⟨0, List.mem_range.2 (Nat.pos_of_ne_zero some_), by simp⟩

theorem Shape.exists_cursors_eq_cons (shape : List Number) :
    ∃ rest, cursors shape = List.replicate shape.length 0 :: rest := by
  induction shape with
  | nil => exact ⟨[], rfl⟩
  | cons extent inner ih =>
    obtain ⟨rest, split⟩ := ih
    obtain ⟨n, positions⟩ := Nat.exists_eq_add_one.2 (positions_pos extent)
    rw [cursors, positions, List.range_succ_eq_map, List.flatMap_cons, split]
    exact ⟨_, rfl⟩

/-- The first element lies under the first positions of all axes, whatever the extents are. -/
theorem Region.address_replicate_mem {r : Region} (some_ : r.elements ≠ []) :
    r.address (List.replicate r.shape.length 0) ∈ r.elements := by
  obtain ⟨rest, split⟩ := Shape.exists_cursors_eq_cons r.shape
  have count : r.size.countBelow ≠ 0 := by
    rwa [← length_elements, Ne, List.length_eq_zero_iff]
  rw [elements]
  split
  case h_1 none => exact absurd none count
  case h_2 =>
    rw [split, List.map_cons]
    exact mem_cycleTo_head count

namespace Signal

variable {s t : Signal}

/-- A common element of two signals. -/
def Overlaps (s t : Signal) : Prop := ∃ p ∈ s.elements, ∃ q ∈ t.elements, p.place = q.place

instance (s t : Signal) : Decidable (s.Overlaps t) :=
  inferInstanceAs (Decidable (∃ p ∈ s.elements, ∃ q ∈ t.elements, p.place = q.place))

/-- Some position of the signal is an integer, unless it has no positions. -/
def IsGrounded (s : Signal) : Prop := s.elements = [] ∨ ∃ x ∈ s.elements, x.isInteger = true

instance (s : Signal) : Decidable s.IsGrounded :=
  inferInstanceAs (Decidable (s.elements = [] ∨ ∃ x ∈ s.elements, x.isInteger = true))

/-- A signal has elements if and only if its size is positive. -/
theorem zero_lt_size_iff : Number.lt 0 s.size = true ↔ s.elements ≠ [] := by
  rw [Ne, ← List.length_eq_zero_iff]
  rw [elements, Region.length_elements]
  exact Number.zero_lt_iff

/-- A signal that starts from an integer is grounded, unless a stride is infinite. -/
theorem isGrounded_of_isInteger (sized : s.base.Sized) (offset : s.offset.isInteger = true)
    (isFinite : s.region.IsFinite) : s.IsGrounded := by
  by_cases none : s.elements = []
  · exact .inl none
  · have member := Region.address_replicate_mem (r := s.region) none
    have lands : (s.region.address _).Lands s.offset.integer :=
      Shape.lands_addressFrom_replicate (Number.lands_of_value (Number.value?_of_isInteger offset))
        isFinite.fixed s.region.shape.length
    obtain ⟨p, less, isPosition⟩ := sized.exists_of_lands lands (inside_of_sized sized _ member)
    rw [isPosition] at lands
    exact .inr ⟨_, member, (lands.denotes (less.trans sized.small)).isInteger⟩

theorem isGrounded_of_not_isView (sized : s.base.Sized) (isWhole : s.isView = false) :
    s.IsGrounded := by
  by_cases none : s.elements = []
  · exact .inl none
  · obtain ⟨x, member⟩ := List.exists_mem_of_ne_nil _ none
    have inBase := member
    rw [eq_ofBase_of_not_isView isWhole] at inBase
    obtain ⟨p, -, denotes⟩ := exists_partner (forall₂_elements_root sized) inBase
    exact .inr ⟨x, member, denotes.isInteger⟩

/-- An integer position of a signal is a position of its base. -/
theorem overlaps_of_isGrounded (sized : s.base.Sized) (base : s.base = t.base)
    (isWhole : s.isView = false) (some_ : t.elements ≠ []) (grounded : t.IsGrounded) :
    s.Overlaps t := by
  obtain ⟨x, member, isInt⟩ := grounded.resolve_left some_
  have outside := inside_of_sized (base ▸ sized) x member
  rw [← base] at outside
  have lands := Number.lands_of_value (Number.value?_of_isInteger isInt)
  obtain ⟨p, less, isPosition⟩ := sized.exists_of_lands lands outside
  rw [isPosition] at lands
  obtain ⟨y, inBase, denotes⟩ := addresses_root sized less
  rw [root, ← eq_ofBase_of_not_isView isWhole] at inBase
  refine ⟨y, inBase, x, member, ?_⟩
  rw [denotes.place_eq, (lands.denotes (less.trans sized.small)).place_eq]

theorem Overlaps.symm (overlaps : s.Overlaps t) : t.Overlaps s := by
  obtain ⟨p, inS, q, inT, same⟩ := overlaps
  exact ⟨q, inT, p, inS, same.symm⟩

/-- For a base and a view of it, having elements decides. -/
theorem overlaps_of_isView_ne (base : s.base = t.base) (differ : s.isView ≠ t.isView)
    (sized : s.base.Sized) (groundedS : s.IsGrounded) (groundedT : t.IsGrounded)
    (someS : s.elements ≠ []) (someT : t.elements ≠ []) : s.Overlaps t := by
  rcases Bool.eq_false_or_eq_true s.isView with isView | isWhole
  · have isWhole : t.isView = false := by simpa [isView] using differ.symm
    exact (overlaps_of_isGrounded (base ▸ sized) base.symm isWhole someS groundedS).symm
  · exact overlaps_of_isGrounded sized base isWhole someT groundedT

/-- What is said to share memory has a common element. -/
theorem overlaps_of_mayShareMemory
    (exact : s.isView ≠ t.isView → s.base.Sized ∧ s.IsGrounded ∧ t.IsGrounded)
    (shares : s.mayShareMemory t = true) : s.Overlaps t := by
  have base := base_eq_of_mayShareMemory shares
  rw [mayShareMemory, decide_eq_true base, Bool.true_and] at shares
  split at shares
  case isTrue =>
    obtain ⟨q, inT, common⟩ := List.any_eq_true.1 shares
    obtain ⟨p, inS, same⟩ := List.mem_map.1 (List.contains_iff_mem.1 common)
    exact ⟨p, inS, q, inT, same⟩
  case isFalse notViews =>
    rw [Bool.and_eq_true, zero_lt_size_iff, zero_lt_size_iff] at shares
    by_cases same : s.isView = t.isView
    · have isWhole : s.isView = false := by simpa [← same] using notViews
      have isWhole' : t.isView = false := same ▸ isWhole
      obtain rfl : s = t := by
        rw [eq_ofBase_of_not_isView isWhole, eq_ofBase_of_not_isView isWhole', base]
      obtain ⟨x, member⟩ := List.exists_mem_of_ne_nil _ shares.1
      exact ⟨x, member, x, member, rfl⟩
    · obtain ⟨sized, groundedS, groundedT⟩ := exact same
      exact overlaps_of_isView_ne base same sized groundedS groundedT shares.1 shares.2

/-- Signals are said to share memory if and only if they have the same base and a common element,
and it does not matter which of them is asked.  Where one is a whole base and the other a view, the
view must have an integer position, if any; it has one if it starts from one and its strides are
finite. -/
theorem mayShareMemory_exact (s t : Signal) :
    s.mayShareMemory t = t.mayShareMemory s ∧
      ((s.isView ≠ t.isView → s.base.Sized ∧ s.IsGrounded ∧ t.IsGrounded) →
        (s.mayShareMemory t = true ↔ s.base = t.base ∧ s.Overlaps t)) ∧
      (s.base.Sized → s.isView = false ∨ s.offset.isInteger = true ∧ s.region.IsFinite →
        s.IsGrounded) := by
  refine ⟨mayShareMemory_comm s t, fun exact => ⟨fun shares => ?_, fun holds => ?_⟩,
    fun sized regular => ?_⟩
  · exact ⟨base_eq_of_mayShareMemory shares, overlaps_of_mayShareMemory exact shares⟩
  · obtain ⟨base, p, inS, q, inT, same⟩ := holds
    exact mayShareMemory_of_common base inS inT same
  · rcases regular with isWhole | ⟨offset, isFinite⟩
    · exact isGrounded_of_not_isView sized isWhole
    · exact isGrounded_of_isInteger sized offset isFinite

open MemoryLayout in
/-- The shelf shares memory with its rows read backwards. -/
theorem mayShareMemory_exact_backwards : (ofBase shelf).Overlaps backwards := by
  have sized : shelf.Sized := ⟨by decide +kernel, by decide +kernel⟩
  have whole := (mayShareMemory_exact (ofBase shelf) backwards).2.2 sized (.inl rfl)
  have view := (mayShareMemory_exact backwards (ofBase shelf)).2.2 sized
    (.inr (by decide +kernel))
  have shares := (mayShareMemory_exact (ofBase shelf) backwards).2.1 fun _ => ⟨sized, whole, view⟩
  exact (shares.1 (by decide +kernel)).2

open MemoryLayout in
/-- The plank and its only row, sliced with a step that makes the stride infinite, have no common
element, and neither have three numbers and what lies half-way between two of them. -/
theorem mayShareMemory_astray :
    ((ofBase plank).slice 1 0 1 (.ofDecimal 1 308) (some "row") = .ok onlyRow ∧
      (ofBase plank).mayShareMemory onlyRow = true ∧ ¬ (ofBase plank).Overlaps onlyRow) ∧
    ∃ between, (ofBase triple).view 1 [1] (.finite (1 / 2)) none none = .ok between ∧
      (ofBase triple).mayShareMemory between = true ∧ ¬ (ofBase triple).Overlaps between := by
  refine ⟨by decide +kernel, ⟨triple, some ⟨1, "triple[view]", ⟨[1], .finite (1 / 2), [1]⟩, rfl⟩,
    by decide +kernel⟩, ?_⟩
  decide +kernel

end Signal

end BatchGraph
