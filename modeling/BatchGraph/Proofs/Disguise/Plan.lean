import BatchGraph.Proofs.Assoc
import BatchGraph.Proofs.Dependency.Indexed
import BatchGraph.Proofs.Disguise.Basic
import BatchGraph.Planner

/-!
Planning in disguise.

Dependencies are derived from shared memory, and groups are formed by comparing geometry, so a
disguise of the operators leads to the disguised dependencies and to the disguised plan.  Planners
work on positions and never look at an operator but to merge it; what they return is the same also
where they fail.
-/

namespace BatchGraph

namespace Disguise

variable (d : Disguise)

/-! ## Merging -/

theorem sameLeading_map (xs ys : List Signal) :
    sameLeading (xs.map d.signal) (ys.map d.signal) = sameLeading xs ys := by
  simp [sameLeading, List.zip_map, List.all_map, Function.comp_def]

theorem mergeableActions_operator (a b : Operator) :
    mergeableActions (d.operator a) (d.operator b) = mergeableActions a b := by
  unfold mergeableActions
  rw [d.action_operator, d.action_operator, d.allSignals_operator, d.allSignals_operator,
    d.sameLeading_map]
  cases a.action <;> cases b.action <;> rfl

theorem mergeablePair_operator (a b : Operator) :
    mergeablePair (d.operator a) (d.operator b) = mergeablePair a b := by
  simp [mergeablePair, d.mergeableActions_operator, List.zip_map, Function.comp_def,
    d.compatible_signal]

theorem mergeable_operator (op : Operator) (group : List Operator) :
    mergeable (d.operator op) (group.map d.operator) = mergeable op group := by
  cases group with
  | nil => rfl
  | cons first group => exact d.mergeablePair_operator op first

theorem firstFit_map (op : Operator) (groups : List (List Operator)) :
    firstFit (d.operator op) (groups.map (List.map d.operator)) =
      (firstFit op groups).map (List.map d.operator) := by
  induction groups with
  | nil => rfl
  | cons group groups ih =>
    rw [List.map_cons, firstFit, firstFit, d.mergeable_operator, ih]
    split <;> simp

theorem assignToGroups_map (groups : List (List Operator)) (candidates : List Operator) :
    assignToGroups (groups.map (List.map d.operator)) (candidates.map d.operator) =
      (assignToGroups groups candidates).map (List.map d.operator) := by
  unfold assignToGroups
  induction candidates generalizing groups with
  | nil => rfl
  | cons op candidates ih =>
    rw [List.map_cons, List.foldl_cons, List.foldl_cons, d.firstFit_map, ih]

/-! ## Derived dependencies -/

def access (a : Access) : Access := ⟨d.operator a.operator, d.signal a.signal⟩

theorem ofRole_map (role : Role) (ops : List Operator) :
    Access.ofRole role (ops.map d.operator) = (Access.ofRole role ops).map d.access := by
  simp [Access.ofRole, List.flatMap_map, List.map_flatMap, Function.comp_def, access]

theorem bases_map (accesses : List Access) :
    Access.bases (accesses.map d.access) = (Access.bases accesses).map d.base := by
  rw [Access.bases, Access.bases, ← Distinct.eraseDups_map d.base_injective, List.map_map,
    List.map_map]
  rfl

theorem ofBase_map (accesses : List Access) (b : Base) :
    Access.ofBase (accesses.map d.access) (d.base b) = (Access.ofBase accesses b).map d.access := by
  rw [Access.ofBase, Access.ofBase, List.filter_map]
  congr 1
  refine List.filter_congr fun a _ => ?_
  exact decide_eq_decide.2 d.base_injective.eq_iff

theorem clash_access (a b : Access) : (d.access a).clash (d.access b) = a.clash b := by
  simp [Access.clash, access, d.operator_injective.eq_iff, d.mayShareMemory_signal]

theorem firstClash?_map (accesses : List Access) :
    Access.firstClash? (accesses.map d.access) =
      (Access.firstClash? accesses).map (Prod.map d.access d.access) := by
  induction accesses with
  | nil => rfl
  | cons a later ih =>
    rw [List.map_cons, Access.firstClash?, Access.firstClash?, List.find?_map]
    simp only [Function.comp_def, d.clash_access]
    cases later.find? a.clash with
    | none => exact ih
    | some b => rfl

theorem checkSingleWriter_carries (role : Role) (ops : List Operator) :
    Except.Carries id (checkSingleWriter role ops)
      (checkSingleWriter role (ops.map d.operator)) := by
  unfold checkSingleWriter
  dsimp only
  rw [d.ofRole_map, d.bases_map, List.findSome?_map]
  simp only [Function.comp_def, d.ofBase_map, d.firstClash?_map]
  have mapped (bases : List Base) (clash? : Base → Option (Access × Access))
      (none : bases.findSome? clash? = none) :
      bases.findSome? (fun b => (clash? b).map (Prod.map d.access d.access)) = .none := by
    simpa [List.findSome?_eq_none_iff] using none
  split
  case h_1 none =>
    rw [mapped _ _ none]
    exact .ok ()
  case h_2 => exact .error _ _

theorem conflicts_map (earlier later : Role) (ops : List Operator) :
    conflicts earlier later (ops.map d.operator) =
      (conflicts earlier later ops).map (Prod.map d.operator d.operator) := by
  unfold conflicts
  dsimp only
  simp only [d.ofRole_map, d.bases_map, List.flatMap_map, List.map_flatMap, d.ofBase_map,
    List.filter_map, List.map_map, Function.comp_def, d.clash_access]
  rfl

/-- The dependencies of the disguised operators. -/
def graph (g : DependencyGraph) : DependencyGraph :=
  ⟨g.entries.map (Prod.map d.operator (List.map d.operator))⟩

theorem addSuccessor_map (known : List Operator) (b : Operator) :
    DependencyGraph.addSuccessor (known.map d.operator) (d.operator b) =
      (DependencyGraph.addSuccessor known b).map d.operator := by
  unfold DependencyGraph.addSuccessor
  simp only [List.mem_map_of_injective d.operator_injective]
  split <;> simp

theorem insert_graph (g : DependencyGraph) (a b : Operator) :
    (d.graph g).insert (d.operator a) [d.operator b] = d.graph (g.insert a [b]) := by
  have known : (d.graph g).entries.any (·.1 = d.operator a) = g.entries.any (·.1 = a) := by
    simp [graph, List.any_map, Function.comp_def, d.operator_injective.eq_iff]
  have fresh := d.addSuccessor_map [] b
  unfold DependencyGraph.insert
  rw [known]
  split
  · simp only [graph, List.map_map, DependencyGraph.mk.injEq]
    refine List.map_congr_left fun entry _ => ?_
    simp only [Function.comp, Prod.map, d.operator_injective.eq_iff, List.foldl_cons,
      List.foldl_nil]
    split <;> simp [d.addSuccessor_map]
  · simp only [graph, List.map_append, List.foldl_cons, List.foldl_nil]
    simp [← fresh]

theorem derive_carries (ops : List Operator) :
    Except.Carries d.graph (DependencyGraph.derive ops)
      (DependencyGraph.derive (ops.map d.operator)) := by
  have inserted (edges : List (Operator × Operator)) (g : DependencyGraph) :
      (edges.map (Prod.map d.operator d.operator)).foldl (fun g edge => g.insert edge.1 [edge.2])
        (d.graph g) = d.graph (edges.foldl (fun g edge => g.insert edge.1 [edge.2]) g) := by
    induction edges generalizing g with
    | nil => rfl
    | cons edge edges ih =>
      rw [List.map_cons, List.foldl_cons, List.foldl_cons, ← ih, ← d.insert_graph]
      rfl
  unfold DependencyGraph.derive
  refine (d.checkSingleWriter_carries .sets ops).bind fun _ _ =>
    (d.checkSingleWriter_carries .updates ops).bind fun _ _ => ?_
  have edges : (Role.orderedPairs.flatMap fun roles =>
      conflicts roles.1 roles.2 (ops.map d.operator)) =
        (Role.orderedPairs.flatMap fun roles => conflicts roles.1 roles.2 ops).map
          (Prod.map d.operator d.operator) := by
    rw [List.map_flatMap]
    exact List.flatMap_congr fun roles _ => d.conflicts_map roles.1 roles.2 ops
  have start : (⟨(ops.map d.operator).eraseDups.map (·, [])⟩ : DependencyGraph) =
      d.graph ⟨ops.eraseDups.map (·, [])⟩ := by
    rw [Distinct.eraseDups_map d.operator_injective, graph, List.map_map, List.map_map]
    rfl
  rw [edges, start]
  dsimp only
  rw [inserted]
  exact .ok _

/-! ## Dependencies by position -/

theorem edges_carries (g : DependencyGraph) (ops : List Operator) :
    Except.Carries id (g.edges ops) ((d.graph g).edges (ops.map d.operator)) := by
  have idxOf? := Distinct.idxOf?_map d.operator_injective ops
  unfold DependencyGraph.edges
  refine Except.Carries.bind (.mapM_id fun (op, successors) _ => ?_) fun edges _ => .ok _
  simp only [Prod.map, idxOf?]
  cases ops.idxOf? op with
  | none => exact .error _ _
  | some source =>
    refine .mapM_id fun successor _ => ?_
    rw [idxOf?]
    cases ops.idxOf? successor with
    | none => exact .error _ _
    | some target =>
      dsimp only
      split
      · exact .error _ _
      · exact .ok _

/-- The disguised operators under the same dependencies by position. -/
def positions (g : OperatorGraph) : OperatorGraph where
  operators := g.operators.map d.operator
  successors := g.successors
  predecessors := g.predecessors

theorem firstRepeated?_map {ops : List Operator} (seen : List Operator)
    (fresh : firstRepeated? ops seen = none) :
    firstRepeated? (ops.map d.operator) (seen.map d.operator) = none := by
  rw [firstRepeated?_eq_none_iff] at fresh ⊢
  refine ⟨fresh.1.map d.operator_injective, List.forall_mem_map.2 fun op member => ?_⟩
  rw [List.mem_map_of_injective d.operator_injective]
  exact fresh.2 op member

theorem ofDependencies_carries (ops : List Operator) (g : DependencyGraph) :
    Except.Carries d.positions (OperatorGraph.ofDependencies ops (some g))
      (OperatorGraph.ofDependencies (ops.map d.operator) (some (d.graph g))) := by
  unfold OperatorGraph.ofDependencies
  cases fresh : firstRepeated? ops [] with
  | some op => exact .error _ _
  | none =>
    have fresh' : firstRepeated? (ops.map d.operator) [] = none := d.firstRepeated?_map [] fresh
    rw [fresh']
    simp only [Option.elim_some, Except.ok_bind, List.length_map]
    exact (d.edges_carries g ops).bind fun edges _ => .ok _

/-! ## Planners -/

section Planners

variable (g : OperatorGraph)

@[simp] theorem size_positions : (d.positions g).size = g.size := List.length_map _

@[simp] theorem select_positions (places : List Nat) :
    (d.positions g).select places = (g.select places).map d.operator := by
  simp [OperatorGraph.select, positions, List.map_filterMap]

theorem places_positions (group : List Operator) :
    (group.map d.operator).filterMap (d.positions g).operators.idxOf? =
      group.filterMap g.operators.idxOf? := by
  rw [List.filterMap_map]
  exact congrArg (List.filterMap · group)
    (funext (Distinct.idxOf?_map d.operator_injective g.operators))

theorem largest_map (groups : List (List Operator)) :
    Greedy.largest (groups.map (List.map d.operator)) = Greedy.largest groups := by
  simp [Greedy.largest, List.findIdx_map, List.all_map, Function.comp_def]

theorem run_positions (done batch : List Nat) :
    Greedy.run (d.positions g) done batch = Greedy.run g done batch := by
  induction batch generalizing done with
  | nil => rfl
  | cons i batch ih =>
    rw [Greedy.run, Greedy.run, ih]
    rfl

theorem schedule_positions (steps : Nat) (waiting : List (List Operator)) (freed done : List Nat) :
    Greedy.schedule (d.positions g) steps (waiting.map (List.map d.operator)) freed done =
      (Greedy.schedule g steps waiting freed done).map (List.map (List.map d.operator)) := by
  induction steps generalizing waiting freed done with
  | zero => rfl
  | succ steps ih =>
    unfold Greedy.schedule
    rw [d.size_positions, d.select_positions, d.assignToGroups_map]
    split
    case isTrue => rfl
    case isFalse =>
      generalize assignToGroups waiting (g.select freed) = waiting
      dsimp only
      rw [d.largest_map, List.getElem?_map]
      cases waiting[Greedy.largest waiting]? with
      | none => rfl
      | some group =>
        dsimp only [Option.map_some]
        rw [d.places_positions, d.run_positions, List.eraseIdx_map, ih]
        cases Greedy.schedule g steps _ _ _ <;> rfl

theorem greedyPlan_positions :
    greedyPlan (d.positions g) = (greedyPlan g).map (List.map (List.map d.operator)) := by
  unfold greedyPlan
  rw [d.size_positions]
  exact d.schedule_positions g g.size [] _ []

theorem candidates_positions (remaining : List Nat) :
    Exhaustive.candidates (d.positions g) remaining = Exhaustive.candidates g remaining := by
  unfold Exhaustive.candidates
  rw [d.select_positions]
  have fitted := d.assignToGroups_map [] (g.select (Exhaustive.free (d.positions g) remaining))
  rw [List.map_nil] at fitted
  rw [fitted, List.map_map]
  exact List.map_congr_left fun group _ => d.places_positions g group

theorem search_positions (depth : Nat) (remaining : List Nat) :
    Exhaustive.search (d.positions g) depth remaining = Exhaustive.search g depth remaining := by
  induction depth generalizing remaining with
  | zero =>
    match remaining with
    | [] => rfl
    | [i] => rfl
    | first :: second :: others => rfl
  | succ depth ih =>
    match remaining with
    | [] => rfl
    | [i] => rfl
    | first :: second :: others =>
      unfold Exhaustive.search
      simp only [d.candidates_positions, ih]

theorem exhaustivePlan_positions :
    exhaustivePlan (d.positions g) = (exhaustivePlan g).map (List.map (List.map d.operator)) := by
  unfold exhaustivePlan exhaustiveSearch
  rw [d.size_positions, d.search_positions]
  cases (Exhaustive.search g g.size (List.range g.size)).run {} with
  | error e => rfl
  | ok result =>
    obtain ⟨plan, memory⟩ := result
    have groups : plan.map (d.positions g).select =
        (plan.map g.select).map (List.map d.operator) := by
      rw [List.map_map]
      exact List.map_congr_left fun group _ => d.select_positions g group
    simp only [Except.ok_bind, groups]
    rfl

theorem singletonPlan_positions :
    singletonPlan (d.positions g) = (singletonPlan g).map (List.map (List.map d.operator)) := by
  have table : (d.positions g).successors = g.successors := rfl
  unfold singletonPlan
  rw [table]
  cases toposort g.successors with
  | error e => rfl
  | ok order =>
    rw [Except.ok_bind, Except.ok_bind, d.select_positions, List.map_map]
    exact congrArg Except.ok (by simp [Function.comp_def])

theorem absorb_positions (m : Merging) (group candidates : List Nat) :
    Merging.absorb (d.positions g) m group candidates = Merging.absorb g m group candidates := by
  unfold Merging.absorb
  simp only [d.select_positions, List.all_map, Function.comp_def, d.mergeable_operator]

theorem steps_positions (count : Nat) (m : Merging) :
    Merging.steps (d.positions g) count m = Merging.steps g count m := by
  induction count generalizing m with
  | zero => rfl
  | succ count ih =>
    rw [Merging.steps, Merging.steps, ih]
    simp only [Merging.step, d.absorb_positions]

theorem condensedPlan_positions :
    condensedPlan (d.positions g) = (condensedPlan g).map (List.map (List.map d.operator)) := by
  have start : Merging.start (d.positions g) = Merging.start g := by
    simp only [Merging.start, Condensed.ofGraph, d.size_positions]
    rfl
  unfold condensedPlan
  rw [d.size_positions, d.steps_positions, start]
  dsimp only
  generalize (Merging.steps g g.size (Merging.start g)).graph = c
  cases c.order with
  | error e => rfl
  | ok order =>
    rw [Except.ok_bind, Except.ok_bind]
    refine congrArg Except.ok ?_
    rw [List.map_map]
    exact List.map_congr_left fun node _ => d.select_positions g (c.membersOf node)

/-- A planner looks at operators only to merge them. -/
theorem schedule_eq_map (planner : Planner) :
    planner.schedule (d.positions g) =
      (planner.schedule g).map (List.map (List.map d.operator)) := by
  cases planner with
  | greedy => exact d.greedyPlan_positions g
  | tree => exact d.exhaustivePlan_positions g
  | noop => exact d.singletonPlan_positions g
  | transitive => exact d.condensedPlan_positions g

end Planners

/-- The plan with other operators. -/
abbrev plan (planned : Plan) : Plan := planned.map (List.map d.operator)

theorem plan_carries (planner : Planner) (ops : List Operator) (g : DependencyGraph) :
    Except.Carries d.plan (planner.plan ops (some g))
      (planner.plan (ops.map d.operator) (some (d.graph g))) := by
  refine (d.ofDependencies_carries ops g).bind fun byPosition _ planned success => ?_
  rw [d.schedule_eq_map, success]
  rfl

end Disguise

end BatchGraph
