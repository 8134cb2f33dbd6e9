import BatchGraph.Dependency.Indexed
import BatchGraph.Plan.Basic

/-!
Checking a plan against the dependencies.

`Plan.check` first places every operator of the plan, group by group, and refuses empty groups,
foreign operators and repetitions.  Then it goes through the operators in their own order and
refuses one that was not placed or that does not run after all of its dependencies.
-/

namespace BatchGraph

namespace Plan

/-- Groups by position of the operator. -/
abbrev Placement := List (Nat × Nat)

def place (g : OperatorGraph) (group : Nat) :
    List Operator → Placement → Except Error Placement
  | [], placed => .ok placed
  | op :: ops, placed => do
    let i ← g.index op
    match placed.lookup i with
    | some first => .error (.scheduledTwice op.text first group)
    | none => place g group ops ((i, group) :: placed)

/-- Places the groups of a plan, the first of which has the number `group`. -/
def placeGroups (g : OperatorGraph) : (group : Nat) → Plan → Placement → Except Error Placement
  | _, [], placed => .ok placed
  | group, ops :: plan, placed =>
    if ops.isEmpty then .error (.groupEmpty group)
    else do placeGroups g (group + 1) plan (← place g group ops placed)

/-- An operator that is not placed at all is reported when its own turn comes. -/
def checkOperator (g : OperatorGraph) (placed : Placement) (i : Nat) (op : Operator) :
    Except Error Unit :=
  match placed.lookup i with
  | none => .error (.unscheduled op.text)
  | some group =>
    (g.predecessorsOf i).forM fun j =>
      match placed.lookup j, g.operators[j]? with
      | some earlier, some dependency =>
        if group ≤ earlier then .error (.scheduledEarly op.text group dependency.text earlier)
        else .ok ()
      | _, _ => .ok ()

/-- Every operator is scheduled exactly once and after all of its dependencies. -/
def check (ops : List Operator) (plan : Plan) (graph? : Option DependencyGraph) :
    Except Error Unit := do
  let g ← OperatorGraph.ofDependencies ops graph?
  let placed ← placeGroups g 0 plan []
  g.operators.zipIdx.forM fun (op, i) => checkOperator g placed i op

end Plan

end BatchGraph
