import BatchGraph.Number.Decimal

/-!
Extents of an array, one per axis, first axis slowest, and strided sets of its elements.

Extents, offsets and strides are numbers: a product of extents is rounded like any other, may exceed
every finite number, and then may have no value at all.  A `Region` is defined for whatever extents
it is given; which regions can be views is decided by `BatchGraph.Signal.Declare`.
-/

namespace BatchGraph

namespace Shape

variable {α : Type}

/-! ## Parts of a shape -/

/-- The extents beyond axis 0. -/
def tail (shape : List α) : List α := shape.drop 1

variable [OfNat α 1]

/-- A scalar is stored as a vector of length one. -/
def normalized : List α → List α
  | [] => [1]
  | shape => shape

/-- The extent of axis 0, where a scalar counts as one row. -/
def leading : List α → α
  | [] => 1
  | extent :: _ => extent

/-! ## Products of extents -/

variable [Mul α]

def size (shape : List α) : α := shape.foldl (· * ·) 1

/-- The number of elements that one step along the axis before `inner` passes over. -/
def span : List α → α
  | [] => 1
  | extent :: inner => span inner * extent

/-- Element strides of an array without gaps whose last axis is the fastest. -/
def rowMajor : List α → List α
  | [] => []
  | _ :: inner => span inner :: rowMajor inner

@[simp] theorem length_rowMajor (shape : List α) : (rowMajor shape).length = shape.length := by
  induction shape with
  | nil => rfl
  | cons _ _ ih => simp [rowMajor, ih]

end Shape

/-- Two shapes, or other lists of numbers, have the same entries in the numeric order. -/
def Shape.same (a b : List Number) : Bool :=
  a.length == b.length && (a.zip b).all fun (x, y) => x.same y

/-- Extents in messages: separated by commas, without brackets. -/
def Shape.text (shape : List Number) : String := ",".intercalate (shape.map Number.text)

/-! ## Cursors -/

/-- How many positions an axis has.  An extent below one leaves the axis at its first position. -/
def Shape.positions (extent : Number) : Nat := max 1 extent.countBelow

/-- The positions on all axes, last axis fastest. -/
def Shape.cursors : (shape : List Number) → List (List Nat)
  | [] => [[]]
  | extent :: inner =>
    (List.range (positions extent)).flatMap fun i => (cursors inner).map (i :: ·)

/-- `values` repeated from the start until there are `count` of them; none if there are none. -/
def cycleTo {α : Type} (values : List α) (count : Nat) : List α :=
  if values.length = count then values
  else (List.range count).filterMap fun i => values[i % values.length]?

theorem length_cycleTo {α : Type} {values : List α} (h : values ≠ []) (count : Nat) :
    (cycleTo values count).length = count := by
  have positive : 0 < values.length := List.length_pos_iff.2 h
  unfold cycleTo
  split
  · assumption
  · rw [List.filterMap_length_eq_length.2]
    · simp
    · intro i _
      simp [Nat.mod_lt i positive]

/-! ## Regions -/

/-- A strided set of elements of a flat array, in row-major order of the shape. -/
structure Region where
  shape : List Number
  offset : Number
  strides : List Number
  deriving DecidableEq

namespace Region

def size (r : Region) : Number := Shape.size r.shape

/-- The region of a whole array of the shape. -/
def whole (shape : List Number) : Region := ⟨shape, 0, Shape.rowMajor shape⟩

/-- The element under a cursor, summed up from the first axis on. -/
def address (r : Region) (cursor : List Nat) : Number :=
  (cursor.zip r.strides).foldl (fun element (i, stride) => element + Number.ofNat i * stride)
    r.offset

/-- Elements in order, as many as the size says.  An even number of negative extents has a positive
product but no positions of its own, so the same elements come round again. -/
def elements (r : Region) : List Number :=
  match r.size.countBelow with
  | 0 => []
  | count => cycleTo ((Shape.cursors r.shape).map r.address) count

/-- The elements are a run of the array: an axis of at most one position has no say in that. -/
def isContiguous (r : Region) : Bool :=
  (r.shape.zip (r.strides.zip (Shape.rowMajor r.shape))).all fun (extent, stride, natural) =>
    extent.le 1 || stride.same natural

end Region

end BatchGraph
