import BatchGraph.Order.Hamming
import BatchGraph.Order.Refine

/-!
The memory order of the bases of a plan.

`orderSignals` starts from the chain of memberships and refines until nothing changes or the limit
of passes is reached.  `discoveryOrder` leaves everything as the plan has it.  Both keep the groups
of the plan; only the operators inside a group may change places.
-/

namespace BatchGraph

structure SignalOrder where
  /-- The bases in memory order. -/
  signals : List Signal
  plan : Plan
  /-- How many refinement passes were run. -/
  passes : Nat
  /-- The last pass changed nothing. -/
  converged : Bool
  deriving DecidableEq

/-- The limit of refinement passes where none is given. -/
def defaultPasses : Nat := 10

def discoveryOrder (plan : Plan) : SignalOrder := ⟨plan.bases, plan, 0, true⟩

namespace ReadAnalysis

/-- The place in the chain of every base that is read. -/
def places (analysis : ReadAnalysis) : List (Signal × Int) := Hamming.sort analysis.memberships

/-- The bases by their place in the chain; those in no block come first. -/
def hammingOrder (analysis : ReadAnalysis) : List Signal :=
  let places := analysis.places
  let place := fun s => (places.lookup s).getD (-1)
  analysis.signals.mergeSort fun a b => decide (place a ≤ place b)

/-- Runs up to `limit` passes.  Returns the last state, the number of passes, and whether the last
pass changed nothing. -/
def settle (analysis : ReadAnalysis) : (limit : Nat) → OrderState →
    Except Error (OrderState × Nat × Bool)
  | 0, state => .ok (state, 0, false)
  | limit + 1, state => do
    let next ← Refine.pass analysis state
    if next = state then return (next, 1, true)
    else
      let (last, passes, converged) ← settle analysis limit next
      return (last, passes + 1, converged)

/-! ## What refinement must keep -/

/-- Every position of the order has a signal of the same membership as at the start. -/
def checkOrder (analysis : ReadAnalysis) (start order : List Signal) : Except Error Unit :=
  if order.length ≠ start.length then .error (.orderLength start.length order.length)
  else
    (start.zip order).zipIdx.forM fun ((s, t), i) =>
      if analysis.membership s = analysis.membership t then .ok ()
      else .error (.orderLeftBlock t.name i)

/-- Every group has as many operators as at the start, and no other ones. -/
def checkGroups (plan groups : Plan) : Except Error Unit :=
  if groups.length ≠ plan.length then .error (.groupCount plan.length groups.length)
  else
    (plan.zip groups).zipIdx.forM fun ((group, reordered), i) =>
      if reordered.length = group.length ∧ reordered.all group.contains then .ok ()
      else .error (.groupMembers i)

end ReadAnalysis

/-- Orders signals and operators so that the reads of each group are runs of memory where that is
possible.  A plan that reads nothing stays in the order of discovery. -/
def orderSignals (plan : Plan) (limit : Nat) : Except Error SignalOrder := do
  let analysis ← ReadAnalysis.ofPlan plan
  if analysis.blocks.isEmpty then return ⟨analysis.signals, plan, 0, true⟩
  else
    let start := analysis.hammingOrder
    let (state, passes, converged) ← analysis.settle limit ⟨start, plan⟩
    analysis.checkOrder start state.order
    ReadAnalysis.checkGroups plan state.groups
    return ⟨state.order, state.groups, passes, converged⟩

end BatchGraph
