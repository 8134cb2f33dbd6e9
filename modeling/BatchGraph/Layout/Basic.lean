import BatchGraph.Layout.View

/-!
The memory layout of a plan: backing arrays, and for every signal the rows that hold it.

`MemoryLayout.build` packs the bases, places the views and then checks that every signal reads back
its initial value, up to the precision of the storage.  `MemoryLayout.read` reads a signal back.
-/

namespace BatchGraph

structure MemoryLayout where
  /-- In the order of their keys, which count from zero. -/
  arrays : List BackingArray
  /-- The bases in memory order, then the views as the plan meets them. -/
  rows : List (Signal × Rows)
  minibatchSize : Nat
  deriving DecidableEq

namespace MemoryLayout

def array? (layout : MemoryLayout) (key : Number) : Option BackingArray :=
  layout.arrays.find? (·.key = key)

/-! ## Reading back -/

/-- How often each value of the signal is stored. -/
def copies (layout : MemoryLayout) (s : Signal) : Nat :=
  if s.minibatched then layout.minibatchSize else 1

/-- Every `count`-th value, starting with the first. -/
def everyNth {α : Type} (values : List α) (count : Nat) : List α :=
  (values.zipIdx.filter fun (_, i) => i % count = 0).map (·.1)

/-- The initial value of a signal as it is stored, for the first entry of the minibatch. -/
def read (layout : MemoryLayout) (s : Signal) : Except Error (List (Option Number)) :=
  match layout.rows.lookup s with
  | none => .error (.layoutUnread s.name)
  | some rows =>
    match layout.array? rows.key with
    | none => .error (.layoutArray rows.key)
    | some a => do
      let values ← rows.gather a
      return if rows.minibatched then everyNth values layout.minibatchSize else values

/-! ## Check -/

/-- The stored value is close to the expected one, if there are both. -/
def isStored : (expected stored : Option Number) → Bool
  | some expected, some stored => stored.isClose expected
  | _, _ => false

/-- The rows present the shape of the signal and hold its initial value. -/
def checkRows (layout : MemoryLayout) (s : Signal) (rows : Rows) : Except Error Unit :=
  let shape := Shape.normalized s.shape
  if !Shape.same rows.shape shape then .error (.rowsShape rows.shape s.name shape)
  else
    match layout.array? rows.key with
    | none => .error (.rowsArrayMissing rows.label rows.key)
    | some a => do
      let actual ← rows.gather a
      checkLength actual.length
      let values ← broadcast s.initialValue s.size
      let expected := tile values (layout.copies s)
      if actual.length ≠ expected.length then
        .error (.rowsCount rows.label actual.length s.name expected.length)
      else
        match (expected.zip actual).findIdx? fun (value, stored) => !isStored value stored with
        | some i => .error (.rowsValue s.name (i / layout.copies s))
        | none => .ok ()

def check (layout : MemoryLayout) : Except Error Unit :=
  layout.rows.forM fun (s, rows) => layout.checkRows s rows

/-! ## Building -/

/-- A layout of the given bases in this order and of the views of the plan. -/
def build (signals : List Signal) (plan : Plan) (precision : Precision) (minibatchSize : Nat) :
    Except Error MemoryLayout := do
  let breaks ← Partition.breaks signals plan
  let packing ← Packing.ofSignals precision minibatchSize breaks signals
  packing.checkLengths
  let rows ← placeViews packing.placed plan
  let arrays := packing.arrays.mapIdx fun key a => a.toArray key minibatchSize
  let layout : MemoryLayout := ⟨arrays, rows, minibatchSize⟩
  layout.check
  return layout

/-- The minibatch size must be a positive integer. -/
def minibatchSize? (size : Number) : Option Nat := size.toNat?.filter (0 < ·)

/-- A layout for a minibatch size that need not be one. -/
def buildFor (signals : List Signal) (plan : Plan) (precision : Precision)
    (minibatchSize : Number) : Except Error MemoryLayout :=
  match minibatchSize? minibatchSize with
  | some size => build signals plan precision size
  | none => .error (.minibatchSize minibatchSize.text)

end MemoryLayout

end BatchGraph
