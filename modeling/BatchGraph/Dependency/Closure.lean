/-!
Reachability in a table of successors.

Row `i` of a `Closure` is a set of nodes, one bit each: those that a depth-first search from node
`i` comes across.  The search looks at the node on top of its stack; one that is new is marked, and
its successors come on top of the others.  A node may be on the stack many times, and the start is
marked only if an edge leads back to it.
-/

namespace BatchGraph

/-- Nodes reachable from each node by a path of at least one edge. -/
structure Closure where
  rows : List Nat

namespace Closure

/-! ## Search -/

/-- The nodes that have been marked, one bit each, and those to be looked at, the next one first. -/
structure Search where
  marked : Nat
  stack : List Nat
  deriving DecidableEq

namespace Search

def start (successors : List (List Nat)) (node : Nat) : Search :=
  ⟨0, (successors[node]?.getD []).reverse⟩

/-- Looks at the next node. -/
def step (successors : List (List Nat)) (s : Search) : Search :=
  match s.stack with
  | [] => s
  | node :: stack =>
    if s.marked.testBit node then { s with stack }
    else ⟨s.marked ||| 1 <<< node, (successors[node]?.getD []).reverse ++ stack⟩

/-- Looks at nodes until none is left, but at no more than `count` of them. -/
def run (successors : List (List Nat)) : (count : Nat) → Search → Search
  | 0, s => s
  | count + 1, s => if s.stack.isEmpty then s else run successors count (s.step successors)

/-- How many nodes a search from `node` comes to look at, at most: the successors of the start, and
those of every node that is marked. -/
def limit (successors : List (List Nat)) (node : Nat) : Nat :=
  (successors[node]?.getD []).length + successors.flatten.length

end Search

/-! ## Reachable nodes -/

def ofSuccessors (successors : List (List Nat)) : Closure :=
  ⟨(List.range successors.length).map fun node =>
    ((Search.start successors node).run successors (Search.limit successors node)).marked⟩

def reaches (c : Closure) (start target : Nat) : Bool := (c.rows[start]?.getD 0).testBit target

/-- The nodes reachable from `start`, in ascending order. -/
def reachable (c : Closure) (start : Nat) : List Nat :=
  (List.range c.rows.length).filter (c.reaches start)

end Closure

end BatchGraph
