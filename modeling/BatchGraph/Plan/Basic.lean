import BatchGraph.Merge

/-!
Plans: groups of operators in execution order.

The operators of a group run as one batched computation, so they should be mergeable, and whatever
an operator depends on should run in an earlier group.  `BatchGraph.Plan.Check` tests the latter.
-/

namespace BatchGraph

abbrev Plan := List (List Operator)

namespace Plan

def operatorCount (plan : Plan) : Nat := plan.flatten.length

/-- One line per group: its number and the texts of its operators. -/
def text (plan : Plan) : String :=
  "\n".intercalate (plan.mapIdx fun i group =>
    let operators := ", ".intercalate (group.map Operator.text)
    s!"  {i}: ({operators})")

/-- The bases that the operators access, in the order of their first access. -/
def bases (plan : Plan) : List Signal :=
  (plan.flatten.flatMap fun op => op.allSignals.map Signal.root).eraseDups

end Plan

end BatchGraph
