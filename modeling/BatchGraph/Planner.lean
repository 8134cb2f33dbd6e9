import BatchGraph.Plan.Condensed
import BatchGraph.Plan.Exhaustive
import BatchGraph.Plan.Greedy
import BatchGraph.Plan.Singleton

/-!
The planners by name.
-/

namespace BatchGraph

inductive Planner where
  | greedy
  | tree
  | noop
  | transitive
  deriving DecidableEq

namespace Planner

def all : List Planner := [greedy, tree, noop, transitive]

def name : Planner → String
  | greedy => "greedy"
  | tree => "tree"
  | noop => "noop"
  | transitive => "transitive"

def ofName? (text : String) : Option Planner := all.find? (·.name = text)

def ofName (text : String) : Except Error Planner :=
  match ofName? text with
  | some planner => .ok planner
  | none => .error (.plannerUnknown text (all.map name))

def schedule : Planner → OperatorGraph → Except Error Plan
  | greedy => greedyPlan
  | tree => exhaustivePlan
  | noop => singletonPlan
  | transitive => condensedPlan

/-- Plans the operators under the given dependencies, or under the derived ones. -/
def plan (planner : Planner) (ops : List Operator) (graph? : Option DependencyGraph) :
    Except Error Plan := do
  planner.schedule (← OperatorGraph.ofDependencies ops graph?)

end Planner

end BatchGraph
