import BatchGraph.Options
import BatchGraph.Plan.Check

/-!
Compiling an operator graph: dependencies, plan, memory order and memory layout.

The stages stand alone, so that a trace can tell how far a compilation got; `compile` runs them in
order and returns nothing unless every stage succeeds.
-/

namespace BatchGraph

structure CompileStats where
  operators : Nat
  groups : Nat
  signals : Nat
  baseArrays : Nat
  sortPasses : Nat
  sortConverged : Bool
  deriving DecidableEq

structure Compiled where
  plan : Plan
  /-- The bases in memory order. -/
  signals : List Signal
  layout : MemoryLayout
  stats : CompileStats

namespace Compile

/-! ## Stages -/

/-- The given dependencies, or the derived ones. -/
def dependencies (ops : List Operator) (graph? : Option DependencyGraph) :
    Except Error DependencyGraph :=
  graph?.elim (DependencyGraph.derive ops) .ok

/-- The plan, checked if the options say so. -/
def plan (options : Options) (ops : List Operator) (graph : DependencyGraph) :
    Except Error Plan := do
  let plan ← options.planner.plan ops (some graph)
  if options.validate.holds then Plan.check ops plan (some graph)
  return plan

def order (options : Options) (plan : Plan) : Except Error SignalOrder :=
  match options.sorter with
  | .order => orderSignals plan options.sortPasses.countBelow
  | .noop => .ok (discoveryOrder plan)

def layout (options : Options) (ordered : SignalOrder) : Except Error MemoryLayout :=
  MemoryLayout.buildFor ordered.signals ordered.plan options.precision options.minibatchSize

end Compile

/-- Compiles operators under resolved options. -/
def compile (options : Options) (ops : List Operator) (graph? : Option DependencyGraph) :
    Except Error Compiled := do
  let graph ← Compile.dependencies ops graph?
  let plan ← Compile.plan options ops graph
  let ordered ← Compile.order options plan
  let layout ← Compile.layout options ordered
  return {
    plan := ordered.plan
    signals := ordered.signals
    layout
    stats := {
      operators := ops.length
      groups := ordered.plan.length
      signals := ordered.signals.length
      baseArrays := layout.arrays.length
      sortPasses := ordered.passes
      sortConverged := ordered.converged } }

/-- Resolves the options and compiles. -/
def compileGraph (env : Environment) (settings : Settings) (ops : List Operator)
    (graph? : Option DependencyGraph) : Except Error Compiled := do
  compile (← Options.resolve env settings) ops graph?

end BatchGraph
