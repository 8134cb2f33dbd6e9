import BatchGraph.Layout.Partition
import BatchGraph.Layout.Rows

/-!
Packing bases into arrays.

Bases are taken in memory order.  Each is appended to the array for its storage type, its extents
beyond axis 0 and its two flags; at a break all arrays so far are closed, and bases behind it start
new ones.  Arrays are numbered in the order in which they are started.
-/

namespace BatchGraph

/-! ## Values -/

/-- Floats of 32 and 64 bits take the precision of the layout, integers of that size 32 bits. -/
def DType.storage (dtype : DType) (precision : Precision) : Except Error Storage :=
  match dtype with
  | .float32 | .float64 => .ok (.float precision)
  | .int32 | .int64 => .ok .int32
  | unsupported => .error (.dtypeUnsupported unsupported)

/-- The length of a list with so many values.  A list has fewer than `2 ^ 32`. -/
def listLength? (size : Number) : Option Nat := size.toNat?.filter (· < 0x100000000)

/-- Values repeated from the start to the given size. -/
def broadcast {α : Type} (values : List α) (size : Number) : Except Error (List α) :=
  if (Number.ofNat values.length).same size then .ok values
  else if values.isEmpty then .error (.broadcastEmpty size)
  else
    match listLength? size with
    | some length => .ok (cycleTo values length)
    | none => .error .lengthInvalid

/-- Every value `count` times in a row. -/
def tile {α : Type} (values : List α) (count : Nat) : List α :=
  values.flatMap (List.replicate count)

@[simp] theorem length_tile {α : Type} (values : List α) (count : Nat) :
    (tile values count).length = values.length * count := by
  induction values with
  | nil => simp [tile]
  | cons value rest ih =>
    have split : tile (value :: rest) count = List.replicate count value ++ tile rest count := rfl
    rw [split, List.length_append, List.length_replicate, ih, List.length_cons, Nat.succ_mul,
      Nat.add_comm]

/-! ## Packing -/

/-- What the bases of one array have in common. -/
structure ArrayClass where
  storage : Storage
  /-- The extents beyond axis 0; the sign of a zero does not count. -/
  tail : List Number
  trainable : Bool
  minibatched : Bool
  deriving DecidableEq

/-- An array under construction; its values are kept base by base. -/
structure PendingArray where
  kind : ArrayClass
  /-- The extents beyond axis 0 as the first base has them. -/
  tail : List Number
  chunks : List (List Number)
  rows : Nat

namespace PendingArray

/-- A minibatched array has the minibatch as its last axis. -/
def shape (a : PendingArray) (minibatchSize : Nat) : List Number :=
  Number.ofNat a.rows :: a.tail ++
    if a.kind.minibatched then [Number.ofNat minibatchSize] else []

def toArray (a : PendingArray) (key : Nat) (minibatchSize : Nat) : BackingArray where
  key := .count key
  storage := a.kind.storage
  shape := a.shape minibatchSize
  data := a.kind.storage.allocate a.chunks.flatten
  trainable := a.kind.trainable
  minibatched := a.kind.minibatched

end PendingArray

/-- The arrays that are not closed, by class, all arrays by number, and the rows of the bases. -/
structure Packing where
  current : List (ArrayClass × Nat) := []
  arrays : List PendingArray := []
  placed : List (Signal × Rows) := []

namespace Packing

/-- The number of the array for a class, which is started if there is none. -/
def array (p : Packing) (kind : ArrayClass) (tail : List Number) : Nat × Packing :=
  match p.current.lookup kind with
  | some key => (key, p)
  | none =>
    let key := p.arrays.length
    (key, { p with
      current := p.current ++ [(kind, key)]
      arrays := p.arrays ++ [⟨kind, tail, [], 0⟩] })

/-- Appends the rows of a base to an array. -/
def append (p : Packing) (key : Nat) (kind : ArrayClass) (s : Signal) (values : List Number) :
    Packing :=
  let shape := Shape.normalized s.shape
  let count := (Shape.leading s.shape).countBelow
  let start := (p.arrays[key]?).elim 0 PendingArray.rows
  let indices := (List.range count).map fun k => some (Number.count (start + k))
  { p with
    arrays := p.arrays.modify key fun a =>
      { a with chunks := a.chunks ++ [values], rows := a.rows + count }
    placed := p.placed ++ [(s, ⟨indices, .count key, kind.storage, shape, s.minibatched, s.name⟩)] }

/-- Packs the base at position `i` of the order. -/
def add (precision : Precision) (minibatchSize : Nat) (breaks : List Nat) (p : Packing)
    (entry : Signal × Nat) : Except Error Packing :=
  let (s, i) := entry
  if s.isView then .error (.layoutView s.name)
  else if (p.placed.lookup s).isSome then .error (.layoutRepeated s.name)
  else do
    let p := if breaks.contains i then { p with current := [] } else p
    let storage ← s.dtype.storage precision
    let shape := Shape.normalized s.shape
    let tail := Shape.tail shape
    let kind : ArrayClass := ⟨storage, tail.map Number.place, s.trainable, s.minibatched⟩
    let (key, p) := p.array kind tail
    let values ← broadcast s.base.initial (Shape.size shape)
    checkLength (values.length * if s.minibatched then minibatchSize else 1)
    checkLength (Shape.leading s.shape).countBelow
    return p.append key kind s (if s.minibatched then tile values minibatchSize else values)

def ofSignals (precision : Precision) (minibatchSize : Nat) (breaks : List Nat)
    (signals : List Signal) : Except Error Packing :=
  signals.zipIdx.foldlM (add precision minibatchSize breaks) {}

/-- The values of an array are joined to one list. -/
def checkLengths (p : Packing) : Except Error Unit :=
  p.arrays.forM fun a => checkLength a.chunks.flatten.length

end Packing

end BatchGraph
