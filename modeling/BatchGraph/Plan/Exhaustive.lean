import BatchGraph.Dependency.Indexed
import BatchGraph.Plan.Basic
import Std.Data.HashMap

/-!
Planning with the fewest groups.

The best way to go on depends only on which operators remain.  `Exhaustive.shortest` tries every
mergeable group of the free ones as the next and keeps the first of the shortest plans.
`Exhaustive.search` computes the same with a memory of the remainders that it has already solved;
there are exponentially many of them in the worst case.
-/

namespace BatchGraph

namespace Exhaustive

/-- The remaining operators of which no predecessor remains. -/
def free (g : OperatorGraph) (remaining : List Nat) : List Nat :=
  remaining.filter fun i => (g.predecessorsOf i).all fun j => !remaining.contains j

/-- The mergeable groups of the free operators. -/
def candidates (g : OperatorGraph) (remaining : List Nat) : List (List Nat) :=
  (assignToGroups [] (g.select (free g remaining))).map fun group =>
    group.filterMap g.operators.idxOf?

def without (remaining group : List Nat) : List Nat :=
  remaining.filter fun i => !group.contains i

/-- The shorter one of two plans, the first unless the second is really shorter.  No plan yet is an
empty one. -/
def shorter (best next : List (List Nat)) : List (List Nat) :=
  if best.isEmpty || next.length < best.length then next else best

/-- The first of the shortest plans for the remaining operators, of which there are at most one more
than `depth`. -/
def shortest (g : OperatorGraph) :
    (depth : Nat) → (remaining : List Nat) → Except Error (List (List Nat))
  | _, [] => .ok []
  | _, [i] => .ok [[i]]
  | 0, remaining => .error (.cycle remaining.length)
  | depth + 1, remaining =>
    match candidates g remaining with
    | [] => .error (.cycle remaining.length)
    | groups =>
      groups.foldlM (fun best group => do
        let rest ← shortest g depth (without remaining group)
        return shorter best (group :: rest)) []

/-! ## Search with a memory -/

/-- Solved remainders, and how many remainders of two or more operators were looked into. -/
structure Memory where
  solved : Std.HashMap (List Nat) (List (List Nat)) := {}
  visited : Nat := 0

def search (g : OperatorGraph) :
    (depth : Nat) → (remaining : List Nat) → StateT Memory (Except Error) (List (List Nat))
  | _, [] => return []
  | _, [i] => return [[i]]
  | 0, remaining => throw (.cycle remaining.length)
  | depth + 1, remaining => do
    match (← get).solved[remaining]? with
    | some plan => return plan
    | none =>
      modify fun memory => { memory with visited := memory.visited + 1 }
      match candidates g remaining with
      | [] => throw (.cycle remaining.length)
      | groups =>
        let plan ← groups.foldlM (fun best group => do
          let rest ← search g depth (without remaining group)
          return shorter best (group :: rest)) []
        modify fun memory => { memory with solved := memory.solved.insert remaining plan }
        return plan

end Exhaustive

/-- The plan, and how many remainders the search has looked into. -/
def exhaustiveSearch (g : OperatorGraph) : Except Error (Plan × Nat) := do
  let (plan, memory) ← (Exhaustive.search g g.size (List.range g.size)).run {}
  return (plan.map g.select, memory.visited)

def exhaustivePlan (g : OperatorGraph) : Except Error Plan :=
  (exhaustiveSearch g).map (·.1)

end BatchGraph
