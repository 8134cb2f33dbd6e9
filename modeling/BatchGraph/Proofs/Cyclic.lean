import Mathlib.Data.Set.Card
import BatchGraph.Proofs.Plan.Stuck
import BatchGraph.Proofs.Planner

/-!
What the planners say about a cycle.

All of them fail on it, and all but one say how many operators could not be scheduled, which are
those on a cycle or behind one.  Planning by merging says how many nodes are left of its condensed
graph.  These are fewer where stuck operators have been merged with each other, and more where they
have been merged with others that do not depend on the cycle; the two numbers are the same if every
stuck operator is connected to all that it is mergeable with.
-/

namespace BatchGraph

open Relation

namespace Planner

variable {ops : List Operator} {graph : DependencyGraph}

theorem plan_eq_error_of_stuck (distinct : ops.Nodup) (isOver : graph.Over ops)
    (cyclic : ¬ Acyclic graph.Edge) {planner : Planner} (apart : planner ≠ .transitive) :
    planner.plan ops (some graph) = .error (.cycle {op | Stuck graph.Edge op}.ncard) := by
  obtain ⟨g, isGraph, represents⟩ := OperatorGraph.exists_represents distinct isOver
  have wellFormed := represents.toWellFormed
  have cyclic' : ¬ Acyclic g.Edge := mt represents.acyclic_iff.1 cyclic
  rw [plan_eq_schedule planner isGraph, ← represents.ncard_stuck]
  cases planner with
  | greedy => exact greedyPlan_eq_error wellFormed cyclic'
  | tree => exact exhaustivePlan_eq_error wellFormed cyclic'
  | noop => exact singletonPlan_eq_error wellFormed cyclic'
  | transitive => exact absurd rfl apart

/-- On a cycle every planner fails with the number of operators on cycles and behind them, except
that planning by merging counts what they have been merged into, which is as many if every stuck
operator is connected to what it is mergeable with. -/
theorem plan_counts_stuck (distinct : ops.Nodup) (isOver : graph.Over ops)
    (cyclic : ¬ Acyclic graph.Edge) :
    (∀ planner : Planner, planner ≠ .transitive →
      planner.plan ops (some graph) = .error (.cycle {op | Stuck graph.Edge op}.ncard)) ∧
    (∃ g, OperatorGraph.ofDependencies ops (some graph) = .ok g ∧
      (∀ a ∈ ops, ∀ b ∈ ops, a ≠ b → Merging.home g a = Merging.home g b →
        mergeable a [b] = true ∧ ¬ TransGen graph.Edge a b) ∧
      Planner.transitive.plan ops (some graph) =
        .error (.cycle
          {n | Stuck (Relation.Map graph.Edge (Merging.home g) (Merging.home g)) n}.ncard)) ∧
    ((∀ a ∈ ops, ∀ b ∈ ops, Stuck graph.Edge a → a ≠ b → mergeable a [b] = true →
        TransGen graph.Edge a b ∨ TransGen graph.Edge b a) →
      Planner.transitive.plan ops (some graph) =
        .error (.cycle {op | Stuck graph.Edge op}.ncard)) := by
  obtain ⟨g, isGraph, represents⟩ := OperatorGraph.exists_represents distinct isOver
  have failure : Planner.transitive.plan ops (some graph) =
      .error (.cycle {n | Stuck (Leads (Merging.condensed g).forward) n}.ncard) := by
    rw [plan_eq_schedule .transitive isGraph]
    exact condensedPlan_eq_error represents.toWellFormed (mt represents.acyclic_iff.1 cyclic)
  refine ⟨fun planner => plan_eq_error_of_stuck distinct isOver cyclic, ⟨g, isGraph, ?_, ?_⟩,
    fun connected => ?_⟩
  · exact fun a isA b isB => represents.merged_of_home_eq isA isB
  · rw [failure, represents.leads_condensed]
  · rw [failure, represents.ncard_stuck_condensed connected]

theorem ncard_stuck_pair : {op | Stuck (pair [task 0]).Edge op}.ncard = 2 := by
  have there : (pair [task 0]).Edge (task 0) (task 1) := pair_edge_iff.2 (.inl ⟨rfl, rfl⟩)
  have back : (pair [task 0]).Edge (task 1) (task 0) :=
    pair_edge_iff.2 (.inr ⟨rfl, List.mem_singleton.2 rfl⟩)
  have both : {op | Stuck (pair [task 0]).Edge op} = {task 0, task 1} := by
    ext op
    constructor
    · intro stuck
      obtain ⟨before, -, edge⟩ := Stuck.exists_predecessor stuck
      rcases pair_edge_iff.1 edge with ⟨-, rfl⟩ | ⟨-, member⟩
      · exact .inr rfl
      · exact .inl (List.mem_singleton.1 member)
    · intro known
      have cycle : TransGen (pair [task 0]).Edge (task 0) (task 0) := .tail (.single there) back
      rcases known with rfl | rfl
      · exact ⟨_, cycle, .refl⟩
      · exact ⟨_, cycle, .single there⟩
  rw [both, Set.ncard_pair (by decide)]

/-- Neither of two tasks that wait for each other can be scheduled. -/
theorem plan_counts_stuck_pair :
    Planner.noop.plan [task 0, task 1] (some (pair [task 0])) = .error (.cycle 2) ∧
      Planner.transitive.plan [task 0, task 1] (some (pair [task 0])) = .error (.cycle 2) := by
  have counts := plan_counts_stuck (by decide : [task 0, task 1].Nodup) (pair_over (by simp))
    pair_cyclic
  rw [ncard_stuck_pair] at counts
  refine ⟨counts.1 .noop (by decide), counts.2.2 fun a isA b isB _ differ _ => ?_⟩
  have there : (pair [task 0]).Edge (task 0) (task 1) := pair_edge_iff.2 (.inl ⟨rfl, rfl⟩)
  simp only [List.mem_cons, List.not_mem_nil, or_false] at isA isB
  rcases isA with rfl | rfl <;> rcases isB with rfl | rfl
  · exact absurd rfl differ
  · exact .inl (.single there)
  · exact .inr (.single there)
  · exact absurd rfl differ

/-! ## Stuck operators that are merged -/

/-- Two tasks wait for each other, and two more wait for the second of them. -/
def fork : DependencyGraph := ⟨[(task 0, [task 1]), (task 1, [task 0, task 2, task 3])]⟩

theorem fork_edge_iff {a b : Operator} :
    fork.Edge a b ↔ a = task 0 ∧ b = task 1 ∨ a = task 1 ∧ b ∈ [task 0, task 2, task 3] := by
  simp [fork, DependencyGraph.Edge, eq_comm]

/-- Of the four operators none can be scheduled, but the last two are merged and count as one. -/
theorem fork_counts :
    [task 0, task 1, task 2, task 3].Nodup ∧ fork.Over [task 0, task 1, task 2, task 3] ∧
      ¬ Acyclic fork.Edge ∧ (∀ op ∈ [task 0, task 1, task 2, task 3], Stuck fork.Edge op) ∧
      Planner.greedy.plan [task 0, task 1, task 2, task 3] (some fork) = .error (.cycle 4) ∧
      Planner.transitive.plan [task 0, task 1, task 2, task 3] (some fork) = .error (.cycle 3) := by
  have cycle : TransGen fork.Edge (task 1) (task 1) :=
    .tail (.single (fork_edge_iff.2 (.inr ⟨rfl, by simp⟩))) (fork_edge_iff.2 (.inl ⟨rfl, rfl⟩))
  refine ⟨by decide, ⟨by simp [fork], fun a b edge => ?_, fun a edge => ?_⟩,
    fun acyclic => acyclic _ cycle, fun op known => ?_, by decide +kernel, by decide +kernel⟩
  · rcases fork_edge_iff.1 edge with ⟨-, rfl⟩ | ⟨-, member⟩
    · simp
    · simp only [List.mem_cons] at member ⊢
      tauto
  · rcases fork_edge_iff.1 edge with ⟨rfl, same⟩ | ⟨rfl, member⟩
    · exact absurd same (by decide)
    · exact absurd member (by decide)
  · by_cases second : op = task 1
    · subst second
      exact ⟨_, cycle, .refl⟩
    · refine ⟨_, cycle, .single (fork_edge_iff.2 (.inr ⟨rfl, ?_⟩))⟩
      simpa [second] using known

end Planner

end BatchGraph
