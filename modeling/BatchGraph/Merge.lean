import BatchGraph.Operator

/-!
Which operators can run as one batched computation.

`mergeable` compares an operator with the first member of a group only.  Every rule says that the
two agree on some property, so being mergeable is transitive and symmetric, and the other members
have been compared before.  Only nodes never merge, not even with themselves.
-/

namespace BatchGraph

/-- Process types with a batched implementation of their own; all others share one. -/
def specializedProcesses : List String := ["lowpass", "linear-filter"]

/-- The batched implementations of the two process types are the same. -/
def sameProcess (a b : String) : Bool :=
  if b ∈ specializedProcesses then a == b else !specializedProcesses.contains a

/-- Equal leading extents let the arguments of all operators stack into one block. -/
def sameLeading (a b : List Signal) : Bool :=
  (a.zip b).all fun (s, t) => (Shape.leading s.shape).same (Shape.leading t.shape)

/-- The rules that depend on the action, for operators with pairwise compatible signals. -/
def mergeableActions (a b : Operator) : Bool :=
  match a.action, b.action with
  | .reset _, _ => true
  | .copy inc, .copy inc' => inc == inc'
  | .elementwise, _ => sameLeading a.allSignals b.allSignals
  | .dot _, _ => true
  | .func usesTime, .func usesTime' => usesTime == usesTime'
  | .neurons type _, .neurons type' _ => type == type'
  | .process type mode, .process type' mode' => sameProcess type type' && decide (mode = mode')
  | _, _ => false

/-- Two operators can be members of one group. -/
def mergeablePair (a b : Operator) : Bool :=
  decide (a.action.builder = b.action.builder) &&
    Role.all.all (fun role => (a.signals role).length == (b.signals role).length) &&
    (a.allSignals.zip b.allSignals).all (fun (s, t) => s.compatible t) &&
    mergeableActions a b

/-- An operator can join a group; an empty group takes any. -/
def mergeable (op : Operator) : List Operator → Bool
  | [] => true
  | first :: _ => mergeablePair op first

/-! ## First fit -/

/-- The operator joins the first group that takes it, or else starts a new one at the end. -/
def firstFit (op : Operator) : List (List Operator) → List (List Operator)
  | [] => [[op]]
  | group :: groups =>
    if mergeable op group then (group ++ [op]) :: groups else group :: firstFit op groups

/-- The candidates are fitted one after the other. -/
def assignToGroups (groups : List (List Operator)) (candidates : List Operator) :
    List (List Operator) :=
  candidates.foldl (fun groups op => firstFit op groups) groups

end BatchGraph
