import BatchGraph.Dependency.Indexed
import BatchGraph.Dependency.Toposort
import BatchGraph.Plan.Basic

/-!
Planning without any merging: a topological order, every operator in a group of its own.
-/

namespace BatchGraph

def singletonPlan (g : OperatorGraph) : Except Error Plan := do
  let order ← toposort g.successors
  return (g.select order).map ([·])

end BatchGraph
