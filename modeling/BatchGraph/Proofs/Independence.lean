import BatchGraph.Proofs.Compile
import BatchGraph.Proofs.Disguise.Layout
import BatchGraph.Proofs.Disguise.Match

/-!
Where things go does not depend on what they hold.

Two lists of operators that are the same but for initial values, names and labels are a disguise of
each other, and every stage of a compilation carries over to the disguise.  So if both compile, they
have the same plan, the same order of signals, and the same places for them in the layout, also
under different precisions and minibatch sizes (`compileGraph_places`).
-/

namespace BatchGraph

variable {options options' : Options} {ops ops' : List Operator} {graph graph' : DependencyGraph}
  {graph? graph?' : Option DependencyGraph} {c c' : Compiled}

/-! ## Compiling in disguise -/

namespace Disguise

variable (d : Disguise)

theorem dependencies_carries (ops : List Operator) (graph? : Option DependencyGraph) :
    Except.Carries d.graph (Compile.dependencies ops graph?)
      (Compile.dependencies (ops.map d.operator) (graph?.map d.graph)) := by
  cases graph? with
  | none => exact d.derive_carries ops
  | some graph => exact .ok graph

theorem order_carries (sorter : options'.sorter = options.sorter)
    (passes : options'.sortPasses = options.sortPasses) (planned : Plan) :
    Except.Carries d.ordered (Compile.order options planned)
      (Compile.order options' (d.plan planned)) := by
  unfold Compile.order
  rw [sorter, passes]
  cases options.sorter with
  | order => exact d.orderSignals_carries planned _
  | noop =>
    have same : discoveryOrder (d.plan planned) = d.ordered (discoveryOrder planned) := by
      rw [discoveryOrder, d.bases_plan]
      rfl
    dsimp only
    rw [same]
    exact .ok _

/-- Two compilations with the same planner, sorter and number of passes mirror each other. -/
theorem compile_places (planner : options'.planner = options.planner)
    (sorter : options'.sorter = options.sorter)
    (passes : options'.sortPasses = options.sortPasses)
    (success : compile options ops graph? = .ok c)
    (success' : compile options' (ops.map d.operator) (graph?.map d.graph) = .ok c') :
    c'.plan = d.plan c.plan ∧ c'.signals = c.signals.map d.signal ∧
      places id c'.layout.rows = places d.signal c.layout.rows := by
  obtain ⟨graph, planned, ordered, isGraph, isPlan, isOrder, isLayout, plan, signals⟩ :=
    Compile.stages_of_compile_eq_ok success
  obtain ⟨graph', planned', ordered', isGraph', isPlan', isOrder', isLayout', plan', signals'⟩ :=
    Compile.stages_of_compile_eq_ok success'
  -- Each stage of the second run is the disguise of that of the first.
  cases (d.dependencies_carries ops graph? graph isGraph).symm.trans isGraph'
  have plans := d.plan_carries options.planner ops graph planned (Compile.of_plan_eq_ok isPlan)
  rw [← planner, Compile.of_plan_eq_ok isPlan'] at plans
  cases plans
  cases (d.order_carries sorter passes planned ordered isOrder).symm.trans isOrder'
  rw [plan, signals, plan', signals']
  exact ⟨rfl, rfl, d.buildFor_places isLayout isLayout'⟩

end Disguise

/-! ## Given dependencies -/

theorem over_of_compile_eq_ok (success : compile options ops (some graph) = .ok c) :
    graph.Over ops := by
  obtain ⟨_, planned, ordered, isGraph, isPlan, -⟩ := Compile.stages_of_compile_eq_ok success
  cases isGraph
  obtain ⟨g, isGraph, -⟩ := Except.bind_eq_ok_iff.1 (Compile.of_plan_eq_ok isPlan)
  exact (OperatorGraph.of_ofDependencies_eq_ok isGraph).2

theorem DependencyGraph.Over.target_mem (isOver : graph.Over ops)
    {entry : Operator × List Operator} (isEntry : entry ∈ graph.entries) {op : Operator}
    (isTarget : op ∈ entry.2) : op ∈ ops :=
  isOver.targets entry.1 op ⟨entry, isEntry, rfl, isTarget⟩

/-- Dependencies between counterparts are exchanged with them. -/
theorem Disguise.graph_eq (d : Disguise)
    (matched : ∀ op ∈ ops, ∀ op' ∈ ops', op'.bare = op.bare → d.operator op = op')
    (isOver : graph.Over ops) (isOver' : graph'.Over ops') (same : graph'.bare = graph.bare) :
    d.graph graph = graph' := by
  have entries : graph.entries.map (Prod.map d.operator (List.map d.operator)) =
      graph'.entries := by
    refine map_eq_of_keys (congrArg DependencyGraph.entries same) fun entry isEntry entry' isEntry'
      bare => ?_
    obtain ⟨source, targets⟩ := Prod.ext_iff.1 bare
    refine Prod.ext (matched _ (isOver.sources _ isEntry) _ (isOver'.sources _ isEntry') source) ?_
    exact map_eq_of_keys targets fun op isTarget op' isTarget' => matched op
      (isOver.target_mem isEntry isTarget) op' (isOver'.target_mem isEntry' isTarget')
  exact congrArg DependencyGraph.mk entries

/-! ## Two compilations -/

/-- Compilations of operators that are the same but for values, names and labels have the same plan,
the same signals in the same order, and the same arrays, rows and shapes for them, whatever the
precisions and the minibatch sizes. -/
theorem compileGraph_places {env env' : Environment} {settings settings' : Settings}
    (identified : Identified ops) (identified' : Identified ops')
    (same : ops'.map Operator.bare = ops.map Operator.bare)
    (sameGraph : graph?'.map DependencyGraph.bare = graph?.map DependencyGraph.bare)
    (resolved : Options.resolve env settings = .ok options)
    (resolved' : Options.resolve env' settings' = .ok options')
    (planner : options'.planner = options.planner) (sorter : options'.sorter = options.sorter)
    (passes : options'.sortPasses = options.sortPasses)
    (success : compileGraph env settings ops graph? = .ok c)
    (success' : compileGraph env' settings' ops' graph?' = .ok c') :
    c'.plan.map (List.map Operator.bare) = c.plan.map (List.map Operator.bare) ∧
      c'.signals.map Signal.bare = c.signals.map Signal.bare ∧
      places Signal.bare c'.layout.rows = places Signal.bare c.layout.rows := by
  rw [compileGraph, resolved, Except.ok_bind] at success
  rw [compileGraph, resolved', Except.ok_bind] at success'
  obtain ⟨d, matched⟩ := exists_disguise identified identified'
  have areOperators : ops.map d.operator = ops' := map_eq_of_keys same matched
  have areGraphs : graph?.map d.graph = graph?' := by
    cases graph? with
    | none => exact (Option.map_eq_none_iff.1 sameGraph).symm
    | some graph =>
      obtain ⟨graph', rfl, bare⟩ := Option.map_eq_some_iff.1 sameGraph
      exact congrArg some (d.graph_eq matched (over_of_compile_eq_ok success)
        (over_of_compile_eq_ok success') bare)
  rw [← areOperators, ← areGraphs] at success'
  obtain ⟨plan, signals, rows⟩ := d.compile_places planner sorter passes success success'
  refine ⟨?_, ?_, ?_⟩
  · simp [plan, Function.comp_def, d.bare_operator]
  · simp [signals, Function.comp_def, d.bare_signal]
  · have images := congrArg (List.map (Prod.map Signal.bare id)) rows
    have bare : Signal.bare ∘ d.signal = Signal.bare := funext d.bare_signal
    rwa [map_places, map_places, bare] at images

namespace Compile

/-- Two elements of the same value for each entry of the minibatch. -/
def filled (name : String) (value : Number) : Signal :=
  .ofBase ⟨0, name, .float32, [2], [value], false, true, by decide +kernel, .inl rfl⟩

def labelled (s : Signal) (label : Option String) : Operator := { reader s with label }

theorem identified_labelled (s : Signal) (label : Option String) :
    Identified [labelled s label] where
  operators a isFirst b isSecond _ := by
    rw [List.mem_singleton.1 isFirst, List.mem_singleton.1 isSecond]
  bases t isFirst u isSecond _ := by
    rw [List.mem_singleton.1 isFirst, List.mem_singleton.1 isSecond]
  views t isFirst u isSecond v isView w isView' _ := by
    rw [List.mem_singleton.1 isFirst] at isView
    rw [List.mem_singleton.1 isSecond] at isView'
    exact Option.some.inj (isView.symm.trans isView')

end Compile

open Compile

/-- Other values under another name, read by an operator with a label, and stored with another
precision and four times each. -/
theorem compileGraph_places_filled :
    ∃ c c', compileGraph {} {} [labelled (filled "x" 0) none] none = .ok c ∧
      compileGraph {} { floatType := .text "float64", minibatchSize := .number 4 }
        [labelled (filled "y" 5) (some "read y")] none = .ok c' ∧
      c'.plan.map (List.map Operator.bare) = c.plan.map (List.map Operator.bare) ∧
      c'.signals.map Signal.bare = c.signals.map Signal.bare ∧
      places Signal.bare c'.layout.rows = places Signal.bare c.layout.rows := by
  have succeed : (compileGraph {} {} [labelled (filled "x" 0) none] none).isOk ∧
      (compileGraph {} { floatType := .text "float64", minibatchSize := .number 4 }
        [labelled (filled "y" 5) (some "read y")] none).isOk := by decide +kernel
  obtain ⟨c, success⟩ := Except.exists_of_isOk succeed.1
  obtain ⟨c', success'⟩ := Except.exists_of_isOk succeed.2
  have resolved' : Options.resolve {} { floatType := .text "float64", minibatchSize := .number 4 } =
      .ok { defaults with precision := .double, minibatchSize := 4 } := rfl
  exact ⟨c, c', success, success', compileGraph_places (identified_labelled (filled "x" 0) none)
    (identified_labelled (filled "y" 5) (some "read y")) rfl rfl
    (Options.resolve_eq_ok selects_defaults) resolved' rfl rfl rfl success success'⟩

end BatchGraph
