/-!
Element types that a signal can be declared with.  Which of them can be laid out in memory is
decided by `BatchGraph.Layout.Pack`; a name outside the known ones is kept as it is.
-/

namespace BatchGraph

inductive DType where
  | float16
  | float32
  | float64
  | int8
  | int16
  | int32
  | int64
  | bool
  | other (name : String)
  deriving DecidableEq

namespace DType

def name : DType → String
  | float16 => "float16"
  | float32 => "float32"
  | float64 => "float64"
  | int8 => "int8"
  | int16 => "int16"
  | int32 => "int32"
  | int64 => "int64"
  | bool => "bool"
  | other name => name

def ofName (text : String) : DType :=
  ([float16, float32, float64, int8, int16, int32, int64, bool].find? (·.name = text)).getD
    (other text)

/-- Initial values of these types must be integers. -/
def isInteger : DType → Bool
  | int8 | int16 | int32 | int64 => true
  | _ => false

end DType

end BatchGraph
