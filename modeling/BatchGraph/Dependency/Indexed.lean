import BatchGraph.Dependency.Basic

/-!
Dependency graphs over positions in the operator list.

`OperatorGraph.ofDependencies` checks that the operators are distinct, that the graph speaks about
them only and that no operator depends on itself.  A `Progress` marks operators as retired without
changing the graph.
-/

namespace BatchGraph

/-- Successors and predecessors of the operators by position. -/
structure OperatorGraph where
  operators : List Operator
  successors : List (List Nat)
  predecessors : List (List Nat)

/-- The first operator that stands in the list before. -/
def firstRepeated? : (ops : List Operator) → (seen : List Operator) → Option Operator
  | [], _ => none
  | op :: ops, seen => if op ∈ seen then some op else firstRepeated? ops (op :: seen)

namespace DependencyGraph

/-- The edges by position in `ops`, in the order of the graph. -/
def edges (g : DependencyGraph) (ops : List Operator) : Except Error (List (Nat × Nat)) := do
  let edges ← g.entries.mapM fun (op, successors) =>
    match ops.idxOf? op with
    | none => .error (.sourceUnknown op.text)
    | some source =>
      successors.mapM fun successor =>
        match ops.idxOf? successor with
        | none => .error (.successorUnknown successor.text)
        | some target => if target = source then .error (.cycle 1) else .ok (source, target)
  return edges.flatten

end DependencyGraph

namespace OperatorGraph

/-- Uses the given graph, or the derived one if there is none. -/
def ofDependencies (ops : List Operator) (graph? : Option DependencyGraph) :
    Except Error OperatorGraph := do
  match firstRepeated? ops [] with
  | some op => .error (.operatorRepeated op.text)
  | none =>
    let graph ← graph?.elim (DependencyGraph.derive ops) .ok
    let edges ← graph.edges ops
    let nodes := List.range ops.length
    return {
      operators := ops
      successors := nodes.map fun i => ((edges.filter (·.1 = i)).map (·.2)).eraseDups
      predecessors := nodes.map fun i => ((edges.filter (·.2 = i)).map (·.1)).eraseDups }

def size (g : OperatorGraph) : Nat := g.operators.length

def successorsOf (g : OperatorGraph) (i : Nat) : List Nat := g.successors[i]?.getD []

def predecessorsOf (g : OperatorGraph) (i : Nat) : List Nat := g.predecessors[i]?.getD []

def index (g : OperatorGraph) (op : Operator) : Except Error Nat :=
  match g.operators.idxOf? op with
  | some i => .ok i
  | none => .error (.operatorUnknown op.text)

/-- The operators at the given positions. -/
def select (g : OperatorGraph) (positions : List Nat) : List Operator :=
  positions.filterMap (g.operators[·]?)

end OperatorGraph

/-! ## Retiring operators -/

/-- A graph of which some positions are retired.  Any number can be, whether it is a position of the
graph or not. -/
structure Progress where
  graph : OperatorGraph
  retired : List Number

namespace Progress

def start (graph : OperatorGraph) : Progress := ⟨graph, []⟩

def isRetired (p : Progress) (i : Number) : Bool := p.retired.contains i.place

def retire (p : Progress) (i : Number) : Progress :=
  if p.isRetired i then p else { p with retired := i.place :: p.retired }

def remaining (p : Progress) : Int := p.graph.size - p.retired.length

/-- How many predecessors of an operator are not retired. -/
def pendingPredecessors (p : Progress) (i : Nat) : Nat :=
  ((p.graph.predecessorsOf i).filter fun (j : Nat) => !p.isRetired (.count j)).length

end Progress

end BatchGraph
