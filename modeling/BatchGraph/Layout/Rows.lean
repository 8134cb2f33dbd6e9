import BatchGraph.Error
import BatchGraph.Number.Storage

/-!
Backing arrays and rows of them.

A `BackingArray` is one buffer whose rows run along axis 0.  `Rows` names some rows of an array by
their indices and presents them under a shape of its own: `reshape` changes the shape only,
`sliceRows` picks rows, `gather` reads the values.  Indices are numbers as they are given, so they
need not be those of rows: a picked position between two rows has no index, and an index that is
none of a row, or none at all, reads as missing values.
-/

namespace BatchGraph

/-! ## Backing arrays -/

structure BackingArray where
  key : Number
  storage : Storage
  shape : List Number
  data : Array Number
  trainable : Bool
  minibatched : Bool
  deriving DecidableEq

namespace BackingArray

/-- Elements per row. -/
def rowSize (a : BackingArray) : Number := Shape.size (Shape.tail a.shape)

/-- The position of element `j` of row `i`.  Elements of whole rows are counted exactly. -/
def position (rowSize i : Number) (j : Nat) : Number :=
  match i.toInt?, rowSize.toInt? with
  | some i, some width => .finite (i * width + j)
  | _, _ => i * rowSize + Number.ofNat j

/-- The value at a position, if that is a position of the data. -/
def valueAt? (a : BackingArray) (position : Number) : Option Number :=
  position.toNat?.bind (a.data[·]?)

/-- The values of a row. -/
def row (a : BackingArray) (i : Option Number) : List (Option Number) :=
  let rowSize := a.rowSize
  (List.range rowSize.countBelow).map fun j => i.bind fun i => a.valueAt? (position rowSize i j)

end BackingArray

/-! ## Rows -/

structure Rows where
  indices : List (Option Number)
  key : Number
  storage : Storage
  shape : List Number
  minibatched : Bool
  label : String
  deriving DecidableEq

namespace Rows

def count (r : Rows) : Nat := r.indices.length

/-- The same rows under a shape with the same number of elements. -/
def reshape (r : Rows) (shape : List Number) (label : String) : Except Error Rows :=
  if !(Shape.size shape).same (Shape.size r.shape) then .error (.rowsReshape r.label r.shape shape)
  else .ok { r with shape, label }

/-- The index at a position, which a position between two rows has not, or the error that names the
position. -/
def index (r : Rows) (position : Number) : Except Error (Option Number) :=
  if position.lt 0 || (Number.count r.count).le position then
    .error (.rowRange position r.label r.count)
  else .ok (position.toNat?.bind (r.indices[·]?)).join

/-- The indices at `start + k * step`, `start + (k + 1) * step`, …, `count` of them, or the first
error. -/
def pick (r : Rows) (start step : Number) (k : Nat) :
    (count : Nat) → Except Error (List (Option Number))
  | 0 => .ok []
  | count + 1 => do
    let i ← r.index (start + Number.ofNat k * step)
    return i :: (← pick r start step (k + 1) count)

/-- The rows at `start`, `start + step`, …, `count` of them. -/
def sliceRows (r : Rows) (start step count : Number) (label : String) : Except Error Rows := do
  let indices ← r.pick start step 0 count.countBelow
  return { r with indices, shape := count :: Shape.tail r.shape, label }

/-- The values of the rows one after the other, the minibatch axis included. -/
def gather (r : Rows) (a : BackingArray) : Except Error (List (Option Number)) :=
  if !a.key.same r.key then .error (.rowsArray r.label r.key a.key)
  else .ok (r.indices.flatMap a.row)

/-- Two indices agree: they are equal, or both are missing. -/
def sameIndex : Option Number → Option Number → Bool
  | some i, some j => i.same j
  | none, none => true
  | _, _ => false

/-- The same rows of the same array under the same shape, whatever the label. -/
def same (r t : Rows) : Bool :=
  r.key.same t.key && decide (r.storage = t.storage) && r.minibatched == t.minibatched &&
    Shape.same r.shape t.shape && r.count == t.count &&
    (r.indices.zip t.indices).all fun (i, j) => sameIndex i j

def text (r : Rows) : String :=
  let indices := ",".intercalate (r.indices.map (·.elim "" Number.text))
  s!"TensorSignal({r.label}, key={r.key.text}, rows=[{indices}], " ++
    s!"shape=[{Shape.text r.shape}])"

end Rows

end BatchGraph
