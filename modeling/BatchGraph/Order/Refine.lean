import BatchGraph.Assoc
import BatchGraph.Order.ReadBlock

/-!
Bringing the signals and the operators of a plan into a common order.

A refinement pass visits the read blocks from the lightest to the heaviest.  It sorts the operators
of the block's group by the positions of what they read; then, for every block of the group, it
moves the bases of the block into the order of their operators.  A move takes place within the
window that the bases span, and only if every signal stays among signals of the same membership:
signals that are not read there may stand before the bases of the first membership or behind those
of the last.
-/

namespace BatchGraph

/-- An order of signals and the groups of a plan. -/
structure OrderState where
  order : List Signal
  groups : List (List Operator)
  deriving DecidableEq

namespace Refine

/-- Positions by signal; they follow the moves of a pass. -/
abbrev Positions := List (Signal × Nat)

def position (positions : Positions) (s : Signal) : Except Error Nat :=
  match positions.lookup s with
  | some i => .ok i
  | none => .error (.orderLacks s.name)

/-! ## Operators by position -/

/-- The position of the base that an operator reads, and the offset of its view. -/
abbrev ReadKey := Nat × Number

/-- Keys at one position are told apart by their offsets, if these compare. -/
def ReadKey.before (a b : ReadKey) : Bool := a.1 < b.1 || (a.1 == b.1 && a.2.lt b.2)

/-- A number that compares with the others. -/
def ReadKey.compares (key : ReadKey) : Bool := key.2 != .nan

def readKey (analysis : ReadAnalysis) (positions : Positions) (slot : Nat) (op : Operator) :
    Except Error ReadKey := do
  let read ← ReadAnalysis.readAt analysis.reads op slot
  return (← position positions read.root, read.offset)

/-- Fails if there is no key for one of two operators.  Both signals are looked up before their
positions. -/
def checkPair (analysis : ReadAnalysis) (positions : Positions) (slot : Nat)
    (pair : Operator × Operator) : Except Error Unit := do
  let first ← ReadAnalysis.readAt analysis.reads pair.1 slot
  let second ← ReadAnalysis.readAt analysis.reads pair.2 slot
  let _ ← position positions first.root
  let _ ← position positions second.root

/-- Fails if an operator has no key; of several, the one that sorting meets first is named. -/
def checkKeys (analysis : ReadAnalysis) (positions : Positions) (slot : Nat)
    (ops : List Operator) : Except Error Unit :=
  let before := fun a b =>
    match readKey analysis positions slot a, readKey analysis positions slot b with
    | .ok a, .ok b => ReadKey.before a b
    | _, _ => false
  (RunSort.firstComparisons before (RunSort.shortestRun ops.length) ops).forM
    (checkPair analysis positions slot)

/-- Sorts operators by what they read at a slot. -/
def sortOperators (analysis : ReadAnalysis) (positions : Positions) (slot : Nat)
    (ops : List Operator) : Except Error (List Operator) := do
  checkKeys analysis positions slot ops
  let keys ← ops.mapM (readKey analysis positions slot)
  let sorted := RunSort.stableSort (fun a b => ReadKey.before a.2 b.2) (ReadKey.compares ·.2)
    (ops.zip keys)
  return sorted.map (·.1)

/-! ## Signals by operator -/

/-- What is known after a part of a window: whether its last signals belong to the window's first
membership, the signals behind the read ones, and the highest operators of the membership at hand
and of the one before. -/
structure Scan where
  membership : Option (List Nat) := none
  inFirst : Bool := true
  highest : Int := -1
  highestBefore : Int := -1
  before : List Signal := []
  behind : List Signal := []

/-- The scan enters a membership. -/
def Scan.enter (scan : Scan) (membership : List Nat) : Scan :=
  { scan with
    membership := some membership
    inFirst := scan.membership.isNone
    highest := -1
    highestBefore := scan.highest }

/-- Reads on by one signal.  Fails if the window cannot be sorted: signals that are not read stand
between two memberships, or a signal would have to move to an earlier membership. -/
def Scan.step (ranks : List (Signal × Nat)) (membership : Signal → List Nat) (scan : Scan)
    (s : Signal) : Option Scan :=
  let entering := decide (scan.membership ≠ some (membership s))
  if entering && !scan.behind.isEmpty then none
  else
    let scan := if entering then scan.enter (membership s) else scan
    match ranks.lookup s with
    | some rank =>
      if (rank : Int) < scan.highestBefore then none
      else some { scan with highest := max scan.highest rank }
    | none =>
      if scan.inFirst then some { scan with before := scan.before ++ [s] }
      else some { scan with behind := scan.behind ++ [s] }

/-- The read signals in the order of the last operators that read them. -/
def byRank (ranks : List (Signal × Nat)) : List Signal :=
  (ranks.mergeSort fun a b => decide (a.2 ≤ b.2)).map (·.1)

/-- The signals of a window in their new order, if they can be sorted. -/
def rearrange? (ranks : List (Signal × Nat)) (membership : Signal → List Nat)
    (window : List Signal) : Option (List Signal) :=
  (window.foldlM (Scan.step ranks membership) {}).map fun scan =>
    scan.before ++ byRank ranks ++ scan.behind

/-- The order with the positions that its signals have been given. -/
structure Arrangement where
  order : List Signal
  positions : Positions

namespace Arrangement

def ofOrder (order : List Signal) : Arrangement := ⟨order, Assoc.lastPositions order⟩

/-- Puts signals at the positions from `start` on. -/
def put (arrangement : Arrangement) (start : Nat) (segment : List Signal) : Arrangement :=
  (segment.zipIdx start).foldl
    (fun a (s, i) => ⟨a.order.set i s, Assoc.insert s i a.positions⟩) arrangement

/-- Moves the bases of a read block into the order of the operators, if that is possible. -/
def sortBlock (analysis : ReadAnalysis) (ops : List Operator) (arrangement : Arrangement)
    (slot : Nat) : Except Error Arrangement := do
  let reads ← ops.mapM fun op => ReadAnalysis.readAt analysis.reads op slot
  let ranks := Assoc.lastPositions (reads.map Signal.root)
  if ranks.length = 1 then return arrangement
  else
    let places : List Nat ← ranks.mapM fun (s, _) => position arrangement.positions s
    match places.min?, places.max? with
    | some first, some last =>
      let window := (arrangement.order.drop first).take (last + 1 - first)
      match rearrange? ranks analysis.membership window with
      | some segment => return arrangement.put first segment
      | none => return arrangement
    | _, _ => return arrangement

end Arrangement

/-! ## Passes -/

/-- Sorts the operators of a block's group, then the bases of all blocks of the group. -/
def visit (analysis : ReadAnalysis) (state : Arrangement × List (List Operator))
    (block : ReadBlock) : Except Error (Arrangement × List (List Operator)) := do
  let (arrangement, groups) := state
  match groups[block.group]? with
  | none => .error (.orderGroup block.group)
  | some [_] => return state
  | some ops =>
    let ops ← sortOperators analysis arrangement.positions block.slot ops
    let slots := (analysis.sortedReads.filter (·.group = block.group)).map (·.slot)
    let arrangement ← slots.foldlM (Arrangement.sortBlock analysis ops) arrangement
    return (arrangement, groups.set block.group ops)

/-- One refinement pass. -/
def pass (analysis : ReadAnalysis) (state : OrderState) : Except Error OrderState := do
  let (arrangement, groups) ←
    analysis.sortedReads.foldlM (visit analysis) (.ofOrder state.order, state.groups)
  return ⟨arrangement.order, groups⟩

end Refine

end BatchGraph
