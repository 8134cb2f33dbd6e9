import BatchGraph.Dependency.Closure
import BatchGraph.Dependency.Indexed
import BatchGraph.Dependency.Toposort
import BatchGraph.Plan.Basic

/-!
Planning by merging operators that no path connects.

A `Condensed` graph has nodes that stand for sets of operators; at first every operator is a node.
Each step takes the last operator that is still alone, adds every other one that is mergeable with
it and not connected to any operator added so far, and makes one node of them.  As the members of a
node are unconnected, the graph stays acyclic, and a topological order of it is the plan.
-/

namespace BatchGraph

/-- Nodes are positions in `members` and `forward`.  A node that was merged into another one is not
`alive` and has neither members nor edges. -/
structure Condensed where
  members : List (List Nat)
  forward : List (List Nat)
  nodeOf : List Nat
  alive : List Nat

namespace Condensed

def ofGraph (g : OperatorGraph) : Condensed :=
  let nodes := List.range g.size
  ⟨nodes.map ([·]), g.successors, nodes, nodes⟩

def membersOf (c : Condensed) (node : Nat) : List Nat := c.members[node]?.getD []

def forwardOf (c : Condensed) (node : Nat) : List Nat := c.forward[node]?.getD []

def node (c : Condensed) (i : Nat) : Nat := c.nodeOf[i]?.getD i

/-- Replaces the nodes of some operators by one new node at the end. -/
def condense (c : Condensed) (operators : List Nat) : Condensed :=
  let nodes := (operators.map c.node).eraseDups
  let isMerged := fun node => nodes.contains node
  let merged := c.forward.length
  let members := nodes.flatMap c.membersOf
  let redirect := fun targets =>
    if targets.any isMerged then targets.filter (!isMerged ·) ++ [merged] else targets
  { members := (c.members.mapIdx fun i group => if isMerged i then [] else group) ++ [members]
    forward :=
      (c.forward.mapIdx fun i targets => if isMerged i then [] else redirect targets) ++
        [((nodes.flatMap c.forwardOf).filter (!isMerged ·)).eraseDups]
    nodeOf := c.nodeOf.mapIdx fun i node => if members.contains i then merged else node
    alive := c.alive.filter (!isMerged ·) ++ [merged] }

/-- A path leads from one of the two operators to the other. -/
def connected (c : Condensed) (closure : Closure) (i j : Nat) : Bool :=
  closure.reaches (c.node i) (c.node j) || closure.reaches (c.node j) (c.node i)

/-- The nodes that are alive in topological order. -/
def order (c : Condensed) : Except Error (List Nat) := do
  return (← toposort c.forward).filter c.alive.contains

end Condensed

/-- The operators that are still alone, the last first, the graph, and what its nodes reach, which
changes with the graph only. -/
structure Merging where
  alone : List Nat
  graph : Condensed
  closure : Closure
  closure_eq : closure = .ofSuccessors graph.forward

namespace Merging

/-- Every operator is alone. -/
def start (g : OperatorGraph) : Merging :=
  let graph := Condensed.ofGraph g
  ⟨(List.range g.size).reverse, graph, .ofSuccessors graph.forward, rfl⟩

/-- Adds to a group every candidate that is mergeable with it and not connected to it. -/
def absorb (g : OperatorGraph) (m : Merging) (group candidates : List Nat) : List Nat :=
  candidates.foldl (fun group i =>
    if (g.select [i]).all (mergeable · (g.select group)) &&
        !group.any (m.graph.connected m.closure · i)
    then group ++ [i] else group) group

/-- Merges one group. -/
def step (g : OperatorGraph) (m : Merging) : Merging :=
  match m.alone with
  | [] => m
  | seed :: rest =>
    let group := absorb g m [seed] rest.reverse
    if group.length ≤ 1 then { m with alone := rest }
    else
      let graph := m.graph.condense group
      ⟨rest.filter fun i => !group.contains i, graph, .ofSuccessors graph.forward, rfl⟩

def steps (g : OperatorGraph) : (count : Nat) → Merging → Merging
  | 0, m => m
  | count + 1, m => steps g count (m.step g)

end Merging

/-- Every step uses up an operator that is alone, so `g.size` steps are enough. -/
def condensedPlan (g : OperatorGraph) : Except Error Plan := do
  let c := (Merging.steps g g.size (Merging.start g)).graph
  return (← c.order).map fun node => g.select (c.membersOf node)

end BatchGraph
