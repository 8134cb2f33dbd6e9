import BatchGraph.Dependency.Indexed
import BatchGraph.Plan.Basic

/-!
Planning one locally best group at a time.

Operators whose dependencies have all run wait in mergeable groups.  Each step runs the largest
group, the earliest of equally large ones, and fits the operators that this frees into the groups
that are still waiting.
-/

namespace BatchGraph

namespace Greedy

/-- The position of the largest group, the earliest of equally large ones. -/
def largest (groups : List (List Operator)) : Nat :=
  groups.findIdx fun group => groups.all fun other => other.length ≤ group.length

/-- All predecessors of the operator have run. -/
def isFree (g : OperatorGraph) (done : List Nat) (i : Nat) : Bool :=
  (g.predecessorsOf i).all done.contains

/-- Runs operators one after the other.  Returns all that have run, and the operators freed by each,
in the order in which they were freed. -/
def run (g : OperatorGraph) (done : List Nat) : List Nat → List Nat × List Nat
  | [] => (done, [])
  | i :: rest =>
    let done := i :: done
    let freed := (g.successorsOf i).filter (isFree g done)
    let (all, later) := run g done rest
    (all, freed ++ later)

/-- Schedules up to `steps` groups, given those that are waiting, the operators freed last and those
that have run. -/
def schedule (g : OperatorGraph) :
    (steps : Nat) → (waiting : List (List Operator)) → (freed done : List Nat) → Except Error Plan
  | 0, _, _, _ => .ok []
  | steps + 1, waiting, freed, done =>
    if done.length = g.size then .ok []
    else
      let waiting := assignToGroups waiting (g.select freed)
      let chosen := largest waiting
      match waiting[chosen]? with
      | none => .error (.cycle (g.size - done.length))
      | some group => do
        let (done, freed) := run g done (group.filterMap g.operators.idxOf?)
        return group :: (← schedule g steps (waiting.eraseIdx chosen) freed done)

end Greedy

/-- Every group runs at least one operator, so there are at most as many groups as operators. -/
def greedyPlan (g : OperatorGraph) : Except Error Plan :=
  Greedy.schedule g g.size [] ((List.range g.size).filter (Greedy.isFree g [])) []

end BatchGraph
