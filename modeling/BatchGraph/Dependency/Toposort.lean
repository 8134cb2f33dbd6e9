import BatchGraph.Error

/-!
Topological order of a table of successors.

Nodes are the positions of the table.  A node is taken when all edges into it, counted with
repetitions, start at nodes taken before; of the nodes that can be taken, the one that has been so
for longest.  Nodes that are never taken lie on a cycle or behind one.
-/

namespace BatchGraph

/-- How many edges lead to each node. -/
def indegrees (successors : List (List Nat)) : List Nat :=
  let targets := successors.flatten
  (List.range successors.length).map fun node => targets.count node

/-- Removes one edge to each of `targets` in turn.  Returns the remaining counts and the nodes whose
last edge was removed, in that order. -/
def release (degrees : List Nat) : List Nat → List Nat × List Nat
  | [] => (degrees, [])
  | target :: targets =>
    let degrees := degrees.modify target (· - 1)
    let (rest, freed) := release degrees targets
    (rest, if degrees[target]? = some 0 then target :: freed else freed)

/-- Takes up to `count` nodes from the front of the queue; freed nodes join at its end. -/
def takeFree (successors : List (List Nat)) : (count : Nat) → (degrees queue : List Nat) → List Nat
  | 0, _, _ => []
  | _, _, [] => []
  | count + 1, degrees, node :: queue =>
    let (degrees, freed) := release degrees (successors[node]?.getD [])
    node :: takeFree successors count degrees (queue ++ freed)

def toposort (successors : List (List Nat)) : Except Error (List Nat) :=
  let count := successors.length
  let degrees := indegrees successors
  let free := (List.range count).filter fun node => degrees[node]? = some 0
  let sorted := takeFree successors count degrees free
  if sorted.length = count then .ok sorted else .error (.cycle (count - sorted.length))

end BatchGraph
