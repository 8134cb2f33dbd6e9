import BatchGraph.Compile
import BatchGraph.Proofs.Dependency.Derived
import BatchGraph.Proofs.Operator
import BatchGraph.Proofs.Order.Basic
import BatchGraph.Proofs.Planner

/-!
Compiling succeeds, and what it returns is right.

Under settings that make sense (`Settings.Selects`) no stage fails on operators whose signals are
regular views of storable bases (`Operator.Suitable`) that leave room for each other
(`Packing.Roomy`): the planner finds a plan that passes its check, ordering keeps the groups of the
plan, and the layout presents every signal.
-/

namespace BatchGraph

/-! ## Settings -/

/-- The settings, or the defaults where they are absent, are those of the options. -/
structure Settings.Selects (settings : Settings) (env : Environment) (options : Options) :
    Prop where
  plannerSetting : settings.planner.orElse env.planner = options.plannerSetting
  planner : options.plannerSetting = .text options.planner.name
  sorter : settings.sorter.orElse (.text Sorter.order.name) = .text options.sorter.name
  precision : settings.floatType.orElse (.text Precision.single.name) =
    .text options.precision.name
  minibatchSize : settings.minibatchSize.orElse (.number 1) = .number options.minibatchSize
  positive : ∃ m, 0 < m ∧ options.minibatchSize.Denotes m
  sortPasses : settings.sortPasses.orElse (.number (Number.ofNat defaultPasses)) =
    .number options.sortPasses
  natural : ∃ n, options.sortPasses.Denotes n
  validate : settings.validate.orElse (.flag true) = options.validate

namespace Options

theorem integer?_eq_some {x : Number} {n : Nat} (isNatural : x.Denotes n) {least : Number} {k : Nat}
    (isLeast : least.Denotes k) (reached : k ≤ n) : integer? least (.number x) = some x := by
  have notBelow : least.le x = true := (isLeast.le_iff isNatural).2 reached
  rw [integer?, isNatural.isInteger, notBelow]
  rfl

theorem resolve_eq_ok {env : Environment} {settings : Settings} {options : Options}
    (selects : settings.Selects env options) : resolve env settings = .ok options := by
  obtain ⟨m, positive, isSize⟩ := selects.positive
  obtain ⟨n, isPasses⟩ := selects.natural
  have planner : (options.plannerSetting.display?.bind Planner.ofName?) = some options.planner := by
    rw [selects.planner]
    cases options.planner <;> decide
  have sorter : (text? (.text options.sorter.name)).bind Sorter.ofName? = some options.sorter := by
    cases options.sorter <;> decide
  have precision :
      (text? (.text options.precision.name)).bind Precision.ofName? = some options.precision := by
    cases options.precision <;> decide
  have size := integer?_eq_some isSize Number.denotes_one positive
  have passes := integer?_eq_some isPasses Number.denotes_zero (Nat.zero_le n)
  unfold resolve
  rw [selects.plannerSetting, selects.sorter, selects.precision, selects.minibatchSize,
    selects.sortPasses, selects.validate]
  dsimp only
  rw [planner, sorter, precision, size, passes]
  rfl

end Options

/-! ## Stages -/

namespace Compile

variable {options : Options} {ops : List Operator} {graph : DependencyGraph}

/-- What is planned comes from the planner, whether it is checked or not. -/
theorem of_plan_eq_ok {planned : Plan} (success : plan options ops graph = .ok planned) :
    options.planner.plan ops (some graph) = .ok planned := by
  obtain ⟨found, isPlan, success⟩ := Except.bind_eq_ok_iff.1 success
  split at success
  · obtain ⟨_, -, success⟩ := Except.bind_eq_ok_iff.1 success
    exact isPlan.trans success
  · exact isPlan.trans success

theorem exists_plan (options : Options) (distinct : ops.Nodup) (isOver : graph.Over ops)
    (acyclic : Acyclic graph.Edge) :
    ∃ planned, plan options ops graph = .ok planned ∧ planned.Feasible ops graph ∧
      ∀ group ∈ planned, group ≠ [] := by
  obtain ⟨planned, success⟩ := options.planner.exists_plan_eq_ok distinct isOver acyclic
  obtain ⟨feasible, nonempty⟩ := options.planner.feasible_of_plan_eq_ok distinct isOver success
  refine ⟨planned, ?_, feasible, nonempty⟩
  rw [plan, success, Except.ok_bind, Plan.check_eq_ok distinct isOver feasible nonempty]
  split <;> rfl

theorem exists_order (options : Options) {plan : Plan} (alike : plan.Alike) :
    ∃ ordered, order options plan = .ok ordered ∧ ordered.signals.Perm plan.bases ∧
      Refine.SameGroups plan ordered.plan := by
  unfold order
  split
  · exact exists_orderSignals alike _
  · exact ⟨discoveryOrder plan, rfl, .refl _, .refl plan⟩

/-- The layout has every base and every signal of the plan, with the values that it starts from. -/
theorem exists_layout {ordered : SignalOrder} {m : Nat} (isSize : options.minibatchSize.Denotes m)
    (positive : 0 < m) (distinct : ordered.signals.Nodup)
    (storable : ∀ s ∈ ordered.signals, s = s.root ∧ s.base.Storable options.precision m)
    (roomy : Packing.Roomy options.precision m ordered.signals)
    (slotted : ordered.plan.Slotted ordered.signals)
    (regular : ∀ op ∈ ordered.plan.flatten, ∀ s ∈ op.allSignals, s.Regular) :
    ∃ found, layout options ordered = .ok found ∧
      ∀ s, (s ∈ ordered.signals ∨ ∃ op ∈ ordered.plan.flatten, s ∈ op.allSignals) →
        (∃ rows, found.rows.lookup s = some rows) ∧
          ∃ values, broadcast s.initialValue s.size = .ok values ∧ found.read s = .ok values := by
  obtain ⟨found, built, size, presents⟩ :=
    MemoryLayout.exists_build positive distinct storable roomy slotted regular
  have isPositive : MemoryLayout.minibatchSize? options.minibatchSize = some m := by
    rw [MemoryLayout.minibatchSize?, isSize.toNat?_eq, Option.filter_some,
      if_pos (decide_eq_true positive)]
  refine ⟨found, ?_, fun s known => ?_⟩
  · rw [layout, MemoryLayout.buildFor, isPositive]
    exact built
  · obtain ⟨rows, entry, isPresented⟩ := presents s known
    obtain ⟨_, values, -, initial, -, isRead⟩ := isPresented.read_eq_ok entry (by rwa [size])
    rw [Option.map_id, List.map_id] at isRead
    exact ⟨⟨rows, entry⟩, values, initial, isRead⟩

/-- The stages make up the compilation. -/
theorem exists_compiled {planned : Plan} {ordered : SignalOrder} {found : MemoryLayout}
    (derived : DependencyGraph.derive ops = .ok graph)
    (isPlan : plan options ops graph = .ok planned) (isOrder : order options planned = .ok ordered)
    (isLayout : layout options ordered = .ok found) :
    ∃ compiled, compile options ops none = .ok compiled ∧ compiled.plan = ordered.plan ∧
      compiled.signals = ordered.signals ∧ compiled.layout = found := by
  unfold compile
  rw [dependencies, Option.elim_none, derived, Except.ok_bind, isPlan, Except.ok_bind, isOrder,
    Except.ok_bind, isLayout]
  exact ⟨_, rfl, rfl, rfl, rfl⟩

/-- A compilation that succeeds has passed all stages. -/
theorem stages_of_compile_eq_ok {graph? : Option DependencyGraph} {compiled : Compiled}
    (success : compile options ops graph? = .ok compiled) :
    ∃ graph planned ordered, dependencies ops graph? = .ok graph ∧
      plan options ops graph = .ok planned ∧ order options planned = .ok ordered ∧
      layout options ordered = .ok compiled.layout ∧ compiled.plan = ordered.plan ∧
      compiled.signals = ordered.signals := by
  obtain ⟨graph, isGraph, success⟩ := Except.bind_eq_ok_iff.1 success
  obtain ⟨planned, isPlan, success⟩ := Except.bind_eq_ok_iff.1 success
  obtain ⟨ordered, isOrder, success⟩ := Except.bind_eq_ok_iff.1 success
  obtain ⟨found, isLayout, success⟩ := Except.bind_eq_ok_iff.1 success
  cases success
  exact ⟨graph, planned, ordered, isGraph, isPlan, isOrder, isLayout, rfl, rfl⟩

end Compile

/-! ## The whole compilation -/

/-- The signals of the operator can be laid out. -/
def Operator.Suitable (precision : Precision) (minibatchSize : Nat) (op : Operator) : Prop :=
  ∀ s ∈ op.allSignals, s.Regular ∧ s.base.Storable precision minibatchSize

/-- Compiling succeeds, and the result runs every operator once and behind its dependencies, orders
exactly the bases of the operators, and reads every signal as it was declared. -/
theorem compileGraph_correct {env : Environment} {settings : Settings} {options : Options} {m : Nat}
    {ops : List Operator} {graph : DependencyGraph} (selects : settings.Selects env options)
    (isSize : options.minibatchSize.Denotes m) (distinct : ops.Nodup)
    (built : ∀ op ∈ ops, op.Built) (suitable : ∀ op ∈ ops, op.Suitable options.precision m)
    (roomy : Packing.Roomy options.precision m
      (ops.flatMap fun op => op.allSignals.map Signal.root).eraseDups)
    (derived : DependencyGraph.derive ops = .ok graph) (acyclic : Acyclic graph.Edge) :
    ∃ compiled, compileGraph env settings ops none = .ok compiled ∧
      compiled.plan.Feasible ops graph ∧
      compiled.signals.Perm (ops.flatMap fun op => op.allSignals.map Signal.root).eraseDups ∧
      ∀ s, (s ∈ compiled.signals ∨ ∃ op ∈ ops, s ∈ op.allSignals) →
        (∃ rows, compiled.layout.rows.lookup s = some rows) ∧
          ∃ values, broadcast s.initialValue s.size = .ok values ∧
            compiled.layout.read s = .ok values := by
  obtain ⟨m', positive, isSize'⟩ := selects.positive
  cases isSize.unique isSize'
  obtain ⟨plan, isPlan, feasible, nonempty⟩ :=
    Compile.exists_plan options distinct (DependencyGraph.derive_over derived) acyclic
  obtain ⟨ordered, isOrder, perm, same⟩ := Compile.exists_order options (feasible.alike built)
  have feasible' := feasible.regroup same
  have bases : plan.bases.Perm (ops.flatMap fun op => op.allSignals.map Signal.root).eraseDups :=
    Distinct.eraseDups_perm fun s => by simp only [List.mem_flatMap, feasible.complete.mem_iff]
  have signals := perm.trans bases
  have mem_signals {s : Signal} :
      s ∈ ordered.signals ↔ ∃ op ∈ ops, ∃ t ∈ op.allSignals, t.root = s := by
    rw [signals.mem_iff, List.mem_eraseDups, List.mem_flatMap]
    exact exists_congr fun op => and_congr_right fun _ => List.mem_map
  have inOps {op : Operator} : op ∈ ordered.plan.flatten ↔ op ∈ ops := feasible'.complete.mem_iff
  obtain ⟨layout, isLayout, presents⟩ := Compile.exists_layout isSize positive
    (perm.nodup_iff.2 (Distinct.nodup_eraseDups _))
    (fun s member => by
      obtain ⟨op, isOp, t, isSignal, rfl⟩ := mem_signals.1 member
      exact ⟨rfl, (suitable op isOp t isSignal).2⟩)
    (roomy.of_perm signals)
    (feasible'.slotted (Plan.nonempty_of_sameGroups nonempty same) fun op isOp s isSignal =>
      mem_signals.2 ⟨op, isOp, s, isSignal, rfl⟩)
    (fun op isOp s isSignal => (suitable op (inOps.1 isOp) s isSignal).1)
  obtain ⟨compiled, success, isOrderedPlan, isOrderedSignals, rfl⟩ :=
    Compile.exists_compiled derived isPlan isOrder isLayout
  refine ⟨compiled, ?_, ?_, ?_, fun s known => presents s ?_⟩
  · rw [compileGraph, Options.resolve_eq_ok selects, Except.ok_bind, success]
  · rwa [isOrderedPlan]
  · rwa [isOrderedSignals]
  · rw [isOrderedSignals] at known
    simpa only [inOps] using known

/-! ## Exact and rounded numbers -/

namespace Compile

/-- Two rows of three numbers. -/
def grid : Base := ⟨0, "grid", .float32, [2, 3], [0], false, false, by decide +kernel, .inl rfl⟩

/-- The first row of the grid, as if every second row followed. -/
def row : Signal := ⟨grid, some ⟨1, "row", ⟨[1, 3], 0, [6, 1]⟩, rfl⟩, by decide +kernel⟩

def reader (s : Signal) : Operator := .func 2 false [] [] [s] [] none

/-- The options where nothing is set. -/
def defaults : Options where
  planner := .greedy
  plannerSetting := .text Planner.greedy.name
  sorter := .order
  precision := .single
  minibatchSize := 1
  sortPasses := Number.ofNat defaultPasses
  validate := .flag true

theorem selects_defaults : ({} : Settings).Selects {} defaults where
  plannerSetting := rfl
  planner := rfl
  sorter := rfl
  precision := rfl
  minibatchSize := rfl
  positive := ⟨1, Nat.one_pos, Number.denotes_one⟩
  sortPasses := rfl
  natural := ⟨defaultPasses, by decide +kernel⟩
  validate := rfl

theorem grid_storable : grid.Storable .single 1 where
  dtype := by decide
  isFinite := by decide
  stored storage success := by
    cases success
    decide +kernel
  rows := by decide +kernel
  fits := by decide +kernel
  exact := by decide +kernel

theorem grid_roomy : Packing.Roomy .single 1 [.ofBase grid] := by
  intro kind
  rw [List.filter_singleton]
  cases decide (Packing.class? .single (.ofBase grid) = .ok kind) <;> decide +kernel

theorem row_regular : row.Regular := by
  have leading : (Shape.leading (Signal.ofBase grid).shape).Denotes 2 := by decide +kernel
  have two : (2 : Number).Denotes 2 := by decide +kernel
  have reaches : grid.Reaches (1 * 2) := by
    unfold Base.Reaches
    decide +kernel
  have made : (Signal.ofBase grid).slice 1 0 1 2 (some "row") = .ok row := by decide +kernel
  exact .inl ⟨_, .slice (.base grid) leading Number.denotes_zero Number.denotes_one two
    (Nat.zero_le 1) (by decide) Nat.two_pos reaches made⟩

theorem lone_acyclic (op : Operator) : Acyclic (⟨[(op, [])]⟩ : DependencyGraph).Edge := by
  apply acyclic_of_rank (fun _ => 0)
  intro a b edge
  simp [DependencyGraph.Edge] at edge

end Compile

open Compile

/-- A row of a grid is compiled under the default options. -/
theorem compileGraph_correct_row :
    DependencyGraph.derive [reader row] = .ok ⟨[(reader row, [])]⟩ ∧
    ∃ compiled, compileGraph {} {} [reader row] none = .ok compiled ∧
      compiled.plan.Feasible [reader row] ⟨[(reader row, [])]⟩ ∧
      compiled.signals.Perm [.ofBase grid] ∧
      ∀ s, (s ∈ compiled.signals ∨ ∃ op ∈ [reader row], s ∈ op.allSignals) →
        (∃ rows, compiled.layout.rows.lookup s = some rows) ∧
          ∃ values, broadcast s.initialValue s.size = .ok values ∧
            compiled.layout.read s = .ok values := by
  have derived : DependencyGraph.derive [reader row] = .ok ⟨[(reader row, [])]⟩ := by
    decide +kernel
  have built : ∀ op ∈ [reader row], op.Built := by
    intro op isReader
    rw [List.mem_singleton.1 isReader]
    exact .func 2 false [] [] [row] [] none
  have suitable : ∀ op ∈ [reader row], op.Suitable .single 1 := by
    intro op isReader s isSignal
    rw [List.mem_singleton.1 isReader] at isSignal
    rw [List.mem_singleton.1 isSignal]
    exact ⟨row_regular, grid_storable⟩
  exact ⟨derived, compileGraph_correct selects_defaults Number.denotes_one (by decide) built
    suitable grid_roomy derived (lone_acyclic _)⟩

namespace Compile

/-- The same row under steps that are too long to multiply with the length of a row. -/
def leap : Signal :=
  ⟨grid, some ⟨1, "row", ⟨[1, 3], 0, [Number.ofNat 27021597764222972, 1]⟩, rfl⟩, by decide +kernel⟩

/-- More numbers than a list has. -/
def long : Signal :=
  .ofBase ⟨0, "long", .float32, [Number.ofNat (2 ^ 32)], [0], false, false, by decide +kernel,
    .inl rfl⟩

/-- No numbers, but more rows than a list has. -/
def ranks : Signal :=
  .ofBase ⟨0, "ranks", .float32, [Number.ofNat (2 ^ 32), 0], [0], false, false, by decide +kernel,
    .inl rfl⟩

/-- The square of this number is rounded to infinity. -/
def huge : Number := Number.ofNat (10 ^ 200)

/-- No numbers, though the leading extents multiply to infinity. -/
def hollow : Signal :=
  .ofBase ⟨0, "hollow", .float32, [5, huge, huge, 0], [0], false, false, by decide +kernel,
    .inl rfl⟩

/-- No numbers at all. -/
def nothing : Base := ⟨0, "nothing", .float32, [0], [0], false, false, by decide +kernel, .inl rfl⟩

/-- Nothing under a shape whose strides overflow. -/
def bent : Signal :=
  ⟨nothing, some ⟨1, "bent", ⟨[5, 0, huge, huge], 0, [.nan, .infinity false, huge, 1]⟩, by decide⟩,
    by decide +kernel⟩

/-- One number for each entry of the minibatch. -/
def sample : Signal :=
  .ofBase ⟨0, "sample", .float32, [1], [0], false, true, Base.natural_extents_one,
    Base.initial_length_one⟩

/-- A minibatch with more entries than a list has. -/
def flood : Settings := { minibatchSize := .number (Number.ofNat (2 ^ 32)) }

theorem selects_flood :
    flood.Selects {} { defaults with minibatchSize := Number.ofNat (2 ^ 32) } where
  plannerSetting := rfl
  planner := rfl
  sorter := rfl
  precision := rfl
  minibatchSize := rfl
  positive := ⟨2 ^ 32, by norm_num, Number.denotes_ofNat (n := 2 ^ 32) (by norm_num)⟩
  sortPasses := rfl
  natural := selects_defaults.natural
  validate := rfl

end Compile

/-- Compiling fails where rounding has changed a number, or a list would be too long: slices in
range, reshaped bases and bases do not suffice. -/
theorem compileGraph_rounded :
    (Signal.ofBase grid).slice 1 0 1 (Number.ofNat (2 ^ 53 - 1)) (some "row") = .ok leap ∧
    (Signal.ofBase nothing).reshape 1 [5, 0, huge, huge] (some "bent") = .ok bent ∧
    ({} : Settings).Selects {} defaults ∧
    flood.Selects {} { defaults with minibatchSize := Number.ofNat (2 ^ 32) } ∧
    ∀ entry ∈ [(leap, {}), (long, {}), (ranks, {}), (hollow, {}), (bent, {}), (sample, flood)],
      entry.1.dtype = .float32 ∧
      (∀ v ∈ entry.1.base.initial,
        v.value?.isSome = true ∧ (Storage.float .single).store v = v) ∧
      (reader entry.1).Built ∧
      DependencyGraph.derive [reader entry.1] = .ok ⟨[(reader entry.1, [])]⟩ ∧
      Acyclic (⟨[(reader entry.1, [])]⟩ : DependencyGraph).Edge ∧
      ∃ e, compileGraph {} entry.2 [reader entry.1] none = .error e := by
  refine ⟨by decide +kernel, by decide +kernel, selects_defaults, selects_flood,
    fun entry member => ?_⟩
  have stored : ∀ entry ∈ [(leap, ({} : Settings)), (long, {}), (ranks, {}), (hollow, {}),
      (bent, {}), (sample, flood)], entry.1.dtype = .float32 ∧
      (∀ v ∈ entry.1.base.initial,
        v.value?.isSome = true ∧ (Storage.float .single).store v = v) ∧
      DependencyGraph.derive [reader entry.1] = .ok ⟨[(reader entry.1, [])]⟩ ∧
      (compileGraph {} entry.2 [reader entry.1] none).isOk = false := by decide +kernel
  obtain ⟨dtype, initial, derived, fails⟩ := stored entry member
  refine ⟨dtype, initial, .func 2 false [] [] [entry.1] [] none, derived, lone_acyclic _, ?_⟩
  cases result : compileGraph {} entry.2 [reader entry.1] none with
  | error e => exact ⟨e, rfl⟩
  | ok compiled =>
    rw [result] at fails
    cases fails

end BatchGraph
