import BatchGraph.Assoc
import BatchGraph.Plan.Basic

/-!
Where the memory order can be cut.

The bases at one slot of a group should become rows of one array, so they span a stretch of the
order that must not be cut.  `Partition.breaks` lists the positions in front of which no stretch is
open.  Groups that start with a reset are left out; one large reset would otherwise span most of the
order.
-/

namespace BatchGraph

namespace Partition

def position (positions : List (Signal × Nat)) (base : Signal) : Except Error Nat :=
  match positions.lookup base with
  | some i => .ok i
  | none => .error (.layoutLacks base.name)

/-- The bases at a slot of all operators. -/
def slotBases (ops : List Operator) (slot : Nat) : Except Error (List Signal) :=
  ops.mapM fun op =>
    match op.allSignals[slot]? with
    | some s => .ok s.root
    | none => .error .groupRagged

/-- The first and the last of some bases in the order. -/
def span (positions : List (Signal × Nat)) (bases : List Signal) :
    Except Error (List (Signal × Signal)) := do
  let places : List Nat ← bases.mapM (position positions)
  let baseAt := fun place => (bases.zip places).find? (·.2 = place)
  match places.min?.bind baseAt, places.max?.bind baseAt with
  | some (first, _), some (last, _) => return [(first, last)]
  | _, _ => return []

/-- The spans of a group, one per slot of its first operator. -/
def groupSpans (positions : List (Signal × Nat)) (ops : List Operator) :
    Except Error (List (Signal × Signal)) :=
  match ops with
  | [] => .error .groupRagged
  | first :: _ =>
    if first.action.builder = .reset then .ok []
    else do
      let spans ← (List.range first.allSignals.length).mapM fun slot => do
        span positions (← slotBases ops slot)
      return spans.flatten

/-- How many spans start with the signal, less those that end with it. -/
def opened (spans : List (Signal × Signal)) (s : Signal) : Int :=
  (spans.countP (·.1 = s) : Int) - (spans.countP (·.2 = s) : Int)

/-- The positions behind the signals that leave no span open, given the position of the first one
and the number of spans open in front of it. -/
def closings (spans : List (Signal × Signal)) : List Signal → (position : Nat) → Int → List Nat
  | [], _, _ => []
  | s :: rest, i, before =>
    let now := before + opened spans s
    let later := closings spans rest (i + 1) now
    if now = 0 then (i + 1) :: later else later

def breaks (signals : List Signal) (plan : Plan) : Except Error (List Nat) := do
  let spans ← plan.mapM (groupSpans (Assoc.lastPositions signals))
  return closings spans.flatten signals 0 0

end Partition

end BatchGraph
