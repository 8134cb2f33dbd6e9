import BatchGraph.Planner
import BatchGraph.Proofs.Plan.Check
import BatchGraph.Proofs.Plan.Condensed
import BatchGraph.Proofs.Plan.Exhaustive
import BatchGraph.Proofs.Plan.Greedy

/-!
Every planner meets the contract of plans, and the exhaustive one with the fewest groups.

By position each planner is `OperatorGraph.Planned`; here that is said of operators and of the
dependency graph that was given.  Plans from elsewhere are checked before they are used, and the
check passes those that are `Plan.Valid` and no others.
-/

namespace BatchGraph

namespace Planner

variable {ops : List Operator} {graph : DependencyGraph}

theorem schedule_planned {g : OperatorGraph} (wellFormed : g.WellFormed) (planner : Planner) :
    g.Planned (List.range g.size) (planner.schedule g) := by
  cases planner with
  | greedy => exact greedyPlan_planned wellFormed
  | tree => exact exhaustivePlan_planned wellFormed
  | noop => exact singletonPlan_planned wellFormed
  | transitive => exact condensedPlan_planned wellFormed

theorem plan_eq_schedule {g : OperatorGraph} (planner : Planner)
    (isGraph : OperatorGraph.ofDependencies ops (some graph) = .ok g) :
    planner.plan ops (some graph) = planner.schedule g := by
  rw [plan, isGraph, Except.ok_bind]

/-- Whatever is planned meets the contract of plans, and has no empty groups. -/
theorem feasible_of_plan_eq_ok (planner : Planner) (distinct : ops.Nodup) (isOver : graph.Over ops)
    {plan : Plan} (success : planner.plan ops (some graph) = .ok plan) :
    plan.Feasible ops graph ∧ ∀ group ∈ plan, group ≠ [] := by
  obtain ⟨g, isGraph, represents⟩ := OperatorGraph.exists_represents distinct isOver
  have wellFormed := represents.toWellFormed
  rw [plan_eq_schedule planner isGraph] at success
  obtain ⟨groups, rfl, runs, nonempty⟩ := (schedule_planned wellFormed planner).runs plan success
  have inside (i : Nat) (member : i ∈ groups.flatten) : i < g.size :=
    List.mem_range.1 (runs.complete.mem_iff.1 member)
  refine ⟨(represents.feasible_iff_runs fun group isGroup i member => ?_).2 runs, ?_⟩
  · exact inside i (List.mem_flatten.2 ⟨group, isGroup, member⟩)
  · refine List.forall_mem_map.2 fun group isGroup empty => ?_
    obtain ⟨i, rest, rfl⟩ := List.exists_cons_of_ne_nil (nonempty group isGroup)
    have bound := inside i (List.mem_flatten.2 ⟨_, isGroup, List.mem_cons_self⟩)
    rw [OperatorGraph.select, List.filterMap_cons, List.getElem?_eq_getElem bound] at empty
    cases empty

/-- Acyclic dependencies can be planned. -/
theorem exists_plan_eq_ok (planner : Planner) (distinct : ops.Nodup) (isOver : graph.Over ops)
    (acyclic : Acyclic graph.Edge) : ∃ plan, planner.plan ops (some graph) = .ok plan := by
  obtain ⟨g, isGraph, represents⟩ := OperatorGraph.exists_represents distinct isOver
  rw [plan_eq_schedule planner isGraph]
  exact (schedule_planned represents.toWellFormed planner).succeeds
    (represents.acyclic_iff.2 acyclic)

/-- Dependencies that can be planned are acyclic, and if they cannot the error is a cycle. -/
theorem plan_eq_error_of_cyclic (planner : Planner) (distinct : ops.Nodup) (isOver : graph.Over ops)
    (cyclic : ¬ Acyclic graph.Edge) :
    ∃ stuck, planner.plan ops (some graph) = .error (.cycle stuck) := by
  obtain ⟨g, isGraph, represents⟩ := OperatorGraph.exists_represents distinct isOver
  have planned := schedule_planned represents.toWellFormed planner
  rw [plan_eq_schedule planner isGraph]
  cases result : planner.schedule g with
  | ok plan =>
    obtain ⟨groups, -, runs, -⟩ := planned.runs plan result
    exact absurd (represents.acyclic_iff.1 (runs.acyclic represents.toWellFormed)) cyclic
  | error error =>
    obtain ⟨stuck, rfl⟩ := planned.fails error result
    exact ⟨stuck, rfl⟩

/-! ## The contract of planners -/

/-- Operators without signals, of which any two are mergeable. -/
def task (id : Nat) : Operator := .func id false [] [] [] [] none

/-- The second task depends on the first, and the given ones on the second. -/
def pair (back : List Operator) : DependencyGraph := ⟨[(task 0, [task 1]), (task 1, back)]⟩

theorem pair_edge_iff {back : List Operator} {a b : Operator} :
    (pair back).Edge a b ↔ a = task 0 ∧ b = task 1 ∨ a = task 1 ∧ b ∈ back := by
  simp [pair, DependencyGraph.Edge, eq_comm]

theorem pair_over {back : List Operator} (first : ∀ op ∈ back, op = task 0) :
    (pair back).Over [task 0, task 1] where
  sources := by simp [pair]
  targets a b edge := by
    rcases pair_edge_iff.1 edge with ⟨-, rfl⟩ | ⟨-, member⟩
    · simp
    · simp [first b member]
  loopless a edge := by
    rcases pair_edge_iff.1 edge with ⟨rfl, same⟩ | ⟨rfl, member⟩
    · exact absurd same (by decide)
    · exact absurd (first _ member) (by decide)

theorem pair_acyclic : Acyclic (pair []).Edge := by
  apply acyclic_of_rank Operator.id
  intro a b edge
  rcases pair_edge_iff.1 edge with ⟨rfl, rfl⟩ | ⟨-, member⟩
  · decide
  · cases member

theorem pair_cyclic : ¬ Acyclic (pair [task 0]).Edge := by
  intro acyclic
  have there : (pair [task 0]).Edge (task 0) (task 1) := pair_edge_iff.2 (.inl ⟨rfl, rfl⟩)
  have back : (pair [task 0]).Edge (task 1) (task 0) :=
    pair_edge_iff.2 (.inr ⟨rfl, List.mem_singleton.2 rfl⟩)
  exact acyclic (task 0) (.tail (.single there) back)

/-- Every planner turns acyclic dependencies into a plan that meets its contract and passes the
check, and reports a cycle for all others. -/
theorem plan_correct (planner : Planner) (distinct : ops.Nodup) (isOver : graph.Over ops) :
    (Acyclic graph.Edge → ∃ plan, planner.plan ops (some graph) = .ok plan ∧
      (∀ group ∈ plan, group ≠ []) ∧ plan.Feasible ops graph ∧
      plan.check ops (some graph) = .ok ()) ∧
    (¬ Acyclic graph.Edge →
      ∃ stuck, planner.plan ops (some graph) = .error (.cycle stuck)) := by
  refine ⟨fun acyclic => ?_, plan_eq_error_of_cyclic planner distinct isOver⟩
  obtain ⟨plan, success⟩ := exists_plan_eq_ok planner distinct isOver acyclic
  obtain ⟨feasible, nonempty⟩ := feasible_of_plan_eq_ok planner distinct isOver success
  exact ⟨plan, success, nonempty, feasible, Plan.check_eq_ok distinct isOver feasible nonempty⟩

/-- A chain of two operators can be planned, a circle of them cannot. -/
theorem plan_correct_pair :
    (∃ plan, Planner.transitive.plan [task 0, task 1] (some (pair [])) = .ok plan ∧
      (∀ group ∈ plan, group ≠ []) ∧ plan.Feasible [task 0, task 1] (pair []) ∧
      plan.check [task 0, task 1] (some (pair [])) = .ok ()) ∧
    ∃ stuck, Planner.greedy.plan [task 0, task 1] (some (pair [task 0])) = .error (.cycle stuck) :=
  ⟨(plan_correct .transitive (by decide) (pair_over (by simp))).1 pair_acyclic,
    (plan_correct .greedy (by decide) (pair_over (by simp))).2 pair_cyclic⟩

/-! ## The check -/

/-- The check passes a plan if and only if it is valid, and what it reports of any other is wrong
with it. -/
theorem check_iff_valid (distinct : ops.Nodup) (isOver : graph.Over ops) (plan : Plan) :
    (plan.check ops (some graph) = .ok () ↔ plan.Valid ops graph) ∧
      ∀ error, plan.check ops (some graph) = .error error → plan.Fault ops graph error := by
  refine ⟨⟨fun success => ?_, fun valid => ?_⟩, fun error failure => ?_⟩
  · exact Plan.valid_of_check_eq_ok distinct isOver success
  · exact valid.check_eq_ok distinct isOver
  · exact Plan.fault_of_check_eq_error distinct isOver failure

/-- The tasks one after the other are a valid plan of a chain, but not of a circle, and no operator
may run twice, even if it is in one group only. -/
theorem check_iff_valid_pair :
    Plan.Valid [[task 0], [task 1]] [task 0, task 1] (pair []) ∧
      ¬ Plan.Valid [[task 0], [task 1]] [task 0, task 1] (pair [task 0]) ∧
      Plan.Fault [[task 0], [task 1, task 1]] [task 0, task 1] (pair [])
        (.scheduledTwice (task 1).text 1 1) := by
  have chain : (pair []).Over [task 0, task 1] := pair_over (by simp)
  have circle : (pair [task 0]).Over [task 0, task 1] := pair_over (by simp)
  have refused :
      Plan.check [task 0, task 1] [[task 0], [task 1]] (some (pair [task 0])) ≠ .ok () := by
    decide +kernel
  refine ⟨?_, fun valid => ?_, ?_⟩
  · exact (check_iff_valid (by decide) chain _).1.1 (by decide +kernel)
  · exact refused ((check_iff_valid (by decide) circle _).1.2 valid)
  · exact (check_iff_valid (by decide) chain _).2 _ (by decide +kernel)

/-! ## The fewest groups -/

/-- No plan that meets the contract has fewer groups than the exhaustive one, so no other planner
finds one either. -/
theorem exhaustive_length_le (distinct : ops.Nodup) (isOver : graph.Over ops)
    (acyclic : Acyclic graph.Edge) :
    ∃ best, Planner.tree.plan ops (some graph) = .ok best ∧ best.Feasible ops graph ∧
      (∀ other : Plan, other.Feasible ops graph → best.length ≤ other.length) ∧
      ∀ planner : Planner, ∀ other, planner.plan ops (some graph) = .ok other →
        best.length ≤ other.length := by
  obtain ⟨g, isGraph, represents⟩ := OperatorGraph.exists_represents distinct isOver
  obtain ⟨best, success⟩ := exists_plan_eq_ok .tree distinct isOver acyclic
  have least (other : Plan) (feasible : other.Feasible ops graph) :
      best.length ≤ other.length := by
    obtain ⟨groups, rfl, runs⟩ := represents.exists_runs feasible
    rw [plan_eq_schedule .tree isGraph] at success
    rw [List.length_map]
    exact length_exhaustivePlan_le represents.toWellFormed success runs
  refine ⟨best, success, (feasible_of_plan_eq_ok .tree distinct isOver success).1, least,
    fun planner other planned => ?_⟩
  exact least other (feasible_of_plan_eq_ok planner distinct isOver planned).1

theorem exhaustive_length_le_pair :
    ∃ best, Planner.tree.plan [task 0, task 1] (some (pair [])) = .ok best ∧
      best.Feasible [task 0, task 1] (pair []) ∧
      (∀ other : Plan, other.Feasible [task 0, task 1] (pair []) → best.length ≤ other.length) ∧
      ∀ planner : Planner, ∀ other, planner.plan [task 0, task 1] (some (pair [])) = .ok other →
        best.length ≤ other.length :=
  exhaustive_length_le (by decide) (pair_over (by simp)) pair_acyclic

end Planner

end BatchGraph
