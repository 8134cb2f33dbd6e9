import BatchGraph.Proofs.Layout.Values
import BatchGraph.Proofs.Number.Product

/-!
Reading rows of arrays that store the values of a base.

`BackingArray.Stores` says where an array has the values of a base, each of them converted; gathering
picked rows of the base then gives its converted values at the positions of these rows
(`Stores.gather_eq_ok`).  A layout presents a signal if the rows of the signal are picked rows of its
base and the signal has the values that are there (`Presents`).  What a layout presents is read back
as it was declared, up to the conversion (`Presents.read_eq_ok`), and passes its check if they can be
listed and the conversion keeps them (`Presents.checkRows_eq`).
-/

namespace BatchGraph

namespace Base

/-- The number of elements in one step along axis 0. -/
def width (b : Base) : Nat := (Shape.tail b.extents).prod

def rows (b : Base) : Nat := Shape.leading b.extents

theorem prod_extents (b : Base) : b.extents.prod = b.rows * b.width := Shape.prod_eq b.extents

/-- Numbers of elements differ only if rows have elements. -/
theorem width_pos {b : Base} {m n : Nat} (differ : m * b.width ≠ n * b.width) : 0 < b.width := by
  refine Nat.pos_of_ne_zero fun zero => differ ?_
  rw [zero, Nat.mul_zero, Nat.mul_zero]

/-- The initial values of some rows. -/
def rowValues (b : Base) (picked : List Nat) : List (Option Number) :=
  (Shape.rowPositions b.width picked).map b.value?

end Base

/-! ## Gathering -/

namespace BackingArray

/-- The array has the values of the base from row `start` on, each of them converted by `f` and
`copies` times in a row. -/
structure Stores (a : BackingArray) (f : Number → Number) (start copies : Nat) (b : Base) :
    Prop where
  small : 0 < b.rows → b.width * copies < 2 ^ 53
  width : a.rowSize.Tracks (b.width * copies)
  data : ∀ p < b.extents.prod * copies,
    a.data[start * (b.width * copies) + p]? = (b.value? (p / copies)).map f

/-- Only the conversion of the values of the base matters. -/
theorem Stores.congr {a : BackingArray} {f g : Number → Number} {start copies : Nat} {b : Base}
    (stores : a.Stores f start copies b)
    (same : ∀ p < b.extents.prod, (b.value? p).map f = (b.value? p).map g) :
    a.Stores g start copies b := by
  refine ⟨stores.small, stores.width, fun p less => ?_⟩
  rw [stores.data p less, same]
  exact Nat.div_lt_of_lt_mul (by rwa [Nat.mul_comm])

theorem row_eq {a : BackingArray} {width : Nat} (h : a.rowSize.Tracks width)
    (small : width < 2 ^ 53) (i : Nat) :
    a.row (some (Number.count i)) = (List.range width).map fun j => a.data[i * width + j]? := by
  rw [row, h.countBelow_eq small]
  apply List.map_congr_left
  intro j member
  have exact := h.denotes small (Nat.zero_lt_of_lt (List.mem_range.1 member))
  have position : (position a.rowSize (Number.count i) j).Denotes (i * width + j) := by
    rw [position, (Number.denotes_count i).toInt?_eq, exact.toInt?_eq]
    simp [Number.Denotes, Number.value?]
  rw [Option.bind_some, valueAt?, position.toNat?_eq, Option.bind_some]

/-- Gathering rows of a base gives the converted values of these rows. -/
theorem Stores.gather_eq_ok {a : BackingArray} {f : Number → Number} {start copies : Nat} {b : Base}
    {rows : Rows} {picked : List Nat} (stores : a.Stores f start copies b)
    (key : a.key.same rows.key = true)
    (indices : rows.indices = picked.map fun r => some (Number.count (start + r)))
    (inside : ∀ r ∈ picked, r < b.rows) :
    rows.gather a = .ok (tile ((b.rowValues picked).map (Option.map f)) copies) := by
  have row (r : Nat) (isPicked : r ∈ picked) :
      a.row (some (Number.count (start + r))) =
        ((List.range (b.width * copies)).map (r * (b.width * copies) + ·)).map
          fun p => (b.value? (p / copies)).map f := by
    rw [row_eq stores.width (stores.small (Nat.zero_lt_of_lt (inside r isPicked))), List.map_map]
    apply List.map_congr_left
    intro j member
    rw [List.mem_range] at member
    have position : (start + r) * (b.width * copies) + j =
        start * (b.width * copies) + (r * (b.width * copies) + j) := by
      rw [Nat.add_mul, Nat.add_assoc]
    have bound : r * (b.width * copies) + j < b.extents.prod * copies := by
      have row := Shape.row_le (inside r isPicked) (b.width * copies)
      rw [b.prod_extents, Nat.mul_assoc]
      omega
    rw [position, stores.data _ bound]
    rfl
  have all : rows.indices.flatMap a.row =
      (Shape.rowPositions (b.width * copies) picked).map
        fun p => (b.value? (p / copies)).map f := by
    rw [indices, List.flatMap_map, Shape.rowPositions, List.map_flatMap]
    exact List.flatMap_congr row
  have values :
      (Shape.rowPositions (b.width * copies) picked).map
          (fun p => (b.value? (p / copies)).map f) =
        tile ((b.rowValues picked).map (Option.map f)) copies := by
    rw [Base.rowValues, tile_map, tile_map, ← map_div_rowPositions, List.map_map, List.map_map]
    rfl
  rw [Rows.gather, key, all, values]
  rfl

end BackingArray

/-- The rows are the picked ones of the base of a signal, which begins at row `start`; they have the
shape of the signal, and its values are there. -/
structure Rows.Shows (rows : Rows) (s : Signal) (start : Nat) (picked : List Nat) : Prop where
  indices : rows.indices = picked.map fun r => some (Number.count (start + r))
  inside : ∀ r ∈ picked, r < s.base.rows
  shape : Shape.same rows.shape (Shape.normalized s.shape) = true
  minibatched : rows.minibatched = s.minibatched
  initial : broadcast s.initialValue s.size = .ok (s.base.rowValues picked)

/-! ## Layouts -/

namespace MemoryLayout

variable {layout : MemoryLayout} {s : Signal} {rows : Rows}

/-- The signal is shown by rows of an array that stores the values of its base, converted by `f`. -/
def Presents (layout : MemoryLayout) (f : Number → Number) (s : Signal) (rows : Rows) : Prop :=
  ∃ a start picked, layout.array? rows.key = some a ∧ a.key.same rows.key = true ∧
    a.Stores f start (layout.copies s) s.base ∧ rows.Shows s start picked

variable {f g : Number → Number}

theorem Presents.congr (presents : layout.Presents f s rows)
    (same : ∀ p < s.base.extents.prod, (s.base.value? p).map f = (s.base.value? p).map g) :
    layout.Presents g s rows := by
  obtain ⟨a, start, picked, array, key, stores, shows⟩ := presents
  exact ⟨a, start, picked, array, key, stores.congr same, shows⟩

/-- What is presented is gathered and read back as it is converted. -/
theorem Presents.read_eq_ok (presents : layout.Presents f s rows)
    (entry : layout.rows.lookup s = some rows) (positive : 0 < layout.minibatchSize) :
    ∃ a values, layout.array? rows.key = some a ∧ broadcast s.initialValue s.size = .ok values ∧
      rows.gather a = .ok (tile (values.map (Option.map f)) (layout.copies s)) ∧
      layout.read s = .ok (values.map (Option.map f)) := by
  obtain ⟨a, start, picked, array, key, stores, shows⟩ := presents
  have gathered := stores.gather_eq_ok key shows.indices shows.inside
  refine ⟨a, _, array, shows.initial, gathered, ?_⟩
  rw [read, entry]
  simp only
  rw [array]
  simp only
  rw [gathered, Except.ok_bind, shows.minibatched, copies]
  split
  · rw [everyNth_tile _ positive]
    rfl
  · rw [tile_one]
    rfl

/-- The check of what is presented only asks whether its values can be listed, if the conversion
keeps them close. -/
theorem Presents.checkRows_eq (presents : layout.Presents f s rows)
    (close : ∀ p < s.base.extents.prod,
      ∃ v, s.base.value? p = some v ∧ (f v).isClose v = true) :
    ∃ values, broadcast s.initialValue s.size = .ok values ∧
      layout.checkRows s rows = checkLength (values.length * layout.copies s) := by
  obtain ⟨a, start, picked, array, key, stores, shows⟩ := presents
  have stored : ∀ value ∈ tile (s.base.rowValues picked) (layout.copies s),
      isStored value (value.map f) = true := by
    intro value member
    obtain ⟨value', member, isCopy⟩ := List.mem_flatMap.1 member
    rw [List.eq_of_mem_replicate isCopy]
    obtain ⟨p, isPosition, rfl⟩ := List.mem_map.1 member
    have bound := Shape.lt_of_mem_rowPositions shows.inside isPosition
    rw [← s.base.prod_extents] at bound
    obtain ⟨v, isValue, isClose⟩ := close _ bound
    rw [isValue]
    exact isClose
  refine ⟨_, shows.initial, ?_⟩
  rw [checkRows, if_neg (by rw [shows.shape]; decide)]
  simp only
  rw [array]
  simp only
  rw [stores.gather_eq_ok key shows.indices shows.inside, Except.ok_bind, shows.initial,
    Except.ok_bind, tile_map, if_neg (fun differ => differ (List.length_map _)), List.length_map,
    length_tile]
  have none : ((tile (s.base.rowValues picked) (layout.copies s)).zip
      ((tile (s.base.rowValues picked) (layout.copies s)).map (Option.map f))).findIdx?
        (fun entry => !isStored entry.1 entry.2) = none := by
    rw [List.findIdx?_eq_none_iff]
    rintro ⟨value, value'⟩ member
    rw [List.zip_map_right, List.zip, List.zipWith_self, List.map_map] at member
    obtain ⟨other, isValue, same⟩ := List.mem_map.1 member
    cases same
    simpa using stored _ isValue
  rw [none]
  cases checkLength ((s.base.rowValues picked).length * layout.copies s) <;> rfl

end MemoryLayout

end BatchGraph
