import BatchGraph.Number.Rounding

/-!
Storage types of backing arrays.

An array holds floating-point values of one `Precision` or 32-bit signed integers.  `Storage.store`
is what one value becomes when it is put into such an array and read again: rounded to the
precision, or truncated and taken modulo `2 ^ 32`.
-/

namespace BatchGraph

inductive Precision where
  | single
  | double
  deriving DecidableEq

def Precision.name : Precision → String
  | single => "float32"
  | double => "float64"

def Precision.ofName? : String → Option Precision
  | "float32" => some single
  | "float64" => some double
  | _ => none

inductive Storage where
  | float (precision : Precision)
  | int32
  deriving DecidableEq

namespace Storage

def name : Storage → String
  | float precision => precision.name
  | int32 => "int32"

def ofName? : String → Option Storage
  | "int32" => some int32
  | other => (Precision.ofName? other).map float

/-- The value that an array of this type gives back for `x`. -/
def store : Storage → Number → Number
  | float .double, x => x
  | float .single, .finite q => binary32.round q
  | float .single, x => x
  | int32, x => .finite (x.truncate.bmod 0x100000000 : Int)

/-- The contents of an array of this type filled with `values`. -/
def allocate (storage : Storage) (values : List Number) : Array Number :=
  (values.map storage.store).toArray

@[simp] theorem size_allocate (storage : Storage) (values : List Number) :
    (storage.allocate values).size = values.length := by
  simp [allocate]

end Storage

end BatchGraph
