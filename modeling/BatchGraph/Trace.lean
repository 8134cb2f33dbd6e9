import BatchGraph.Compile

/-!
What the stages of a compilation report.

A stage reports after it has succeeded, and ordering reports once on the way; a compilation that
fails has the reports of what succeeded before.  Reports are computed beside the stages, from the
same functions, so nothing that a stage returns depends on them.
-/

namespace BatchGraph

inductive TraceEvent where
  | note (scope message : String)
  /-- A stage of a compilation is over. -/
  | timing (stage : String)
  deriving DecidableEq

namespace TraceEvent

/-- The line of a report; `elapsed` is the time that a stage took. -/
def line (elapsed : String) : TraceEvent → String
  | note scope message => s!"[{scope}] {message}"
  | timing stage => s!"[compile-timing] {stage}={elapsed}ms"

/-- Notes and timings are shown if their variable is set to `1`. -/
def isShown (env : Environment) : TraceEvent → Bool
  | note .. => env.debug? = some "1"
  | timing _ => env.timing? = some "1"

end TraceEvent

namespace Trace

/-! ## Stages -/

/-- What is said about a plan beside its groups. -/
def planTitle (planner : Planner) (g : OperatorGraph) (plan : Plan) : String :=
  match planner with
  | .greedy => s!"greedy plan ({plan.length} groups)"
  | .tree =>
    let visited := (exhaustiveSearch g).toOption.elim 0 (·.2)
    s!"tree plan ({plan.length} groups, {visited} states)"
  | .noop => "noop plan"
  | .transitive => s!"transitive plan ({plan.length} groups)"

def ofPlanning (planner : Planner) (ops : List Operator) (graph? : Option DependencyGraph) :
    List TraceEvent :=
  let report : Except Error (List TraceEvent) := do
    let g ← OperatorGraph.ofDependencies ops graph?
    let plan ← planner.schedule g
    return [.note "planner" s!"{planTitle planner g plan}\n{plan.text}"]
  report.toOption.getD []

def names (signals : List Signal) : String := " ".intercalate (signals.map Signal.name)

def ofOrdering (plan : Plan) (limit : Nat) : List TraceEvent :=
  match ReadAnalysis.ofPlan plan with
  | .error _ => []
  | .ok analysis =>
    if analysis.blocks.isEmpty then []
    else
      let start := names analysis.hammingOrder
      let blocks := analysis.uniqueBlocks.length
      .note "signal-order" s!"{blocks} unique read blocks, hamming order: {start}" ::
        match orderSignals plan limit with
        | .error _ => []
        | .ok ordered =>
          let outcome := if ordered.converged then "converged" else "stopped"
          [.note "signal-order"
            s!"{outcome} after {ordered.passes} pass(es): {names ordered.signals}"]

def arrayText (a : BackingArray) : String :=
  let trainable := if a.trainable then " trainable" else ""
  s!"{a.key.text}:{a.storage.name}[{Shape.text a.shape}]{trainable}"

def ofLayout (signals : List Signal) (plan : Plan) (layout : MemoryLayout) : List TraceEvent :=
  let breaks := (Partition.breaks signals plan).toOption.elim 0 List.length
  let arrays := ", ".intercalate (layout.arrays.map arrayText)
  let count := layout.arrays.length
  [.note "memory-layout" s!"{count} base array(s), {breaks} partition break(s): {arrays}"]

def statsText (stats : CompileStats) : String :=
  let counts := [("operators", stats.operators), ("groups", stats.groups),
    ("signals", stats.signals), ("baseArrays", stats.baseArrays), ("sortPasses", stats.sortPasses)]
  let fields := counts.map fun (name, value) => s!"\"{name}\":{value}"
  let converged := if stats.sortConverged then "true" else "false"
  "\x7b" ++ ",".intercalate (fields ++ [s!"\"sortConverged\":{converged}"]) ++ "\x7d"

/-! ## Compilations -/

/-- The reports of ordering and layout in a compilation that has reached the plan. -/
def ofPlanned (options : Options) (ops : List Operator) (graph? : Option DependencyGraph)
    (plan : Plan) : List TraceEvent :=
  let notes :=
    if options.sorter = .order then ofOrdering plan options.sortPasses.countBelow else []
  notes ++
    match Compile.order options plan with
    | .error _ => []
    | .ok ordered =>
      .timing s!"order({options.sorter.name})" ::
        match compile options ops graph? with
        | .error _ => []
        | .ok compiled =>
          ofLayout ordered.signals ordered.plan compiled.layout ++
            [.timing "layout", .note "compile" (statsText compiled.stats)]

def ofCompilation (env : Environment) (settings : Settings) (ops : List Operator)
    (graph? : Option DependencyGraph) : List TraceEvent :=
  let report : Except Error (List TraceEvent) := do
    let options ← Options.resolve env settings
    let graph ← Compile.dependencies ops graph?
    let planning := ofPlanning options.planner ops (some graph)
    match Compile.plan options ops graph with
    | .error _ => return .timing "dependencyGraph" :: planning
    | .ok plan =>
      return .timing "dependencyGraph" :: planning ++
        .timing s!"plan({options.planner.name})" :: ofPlanned options ops graph? plan
  report.toOption.getD []

end Trace

end BatchGraph
