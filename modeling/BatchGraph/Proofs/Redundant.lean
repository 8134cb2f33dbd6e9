import BatchGraph.Proofs.Dependency.Derived
import BatchGraph.Proofs.Plan.Equivalent

/-!
Redundant dependencies do not change plans.

A dependency is redundant if a path through a third operator implies it, as in derived graphs, which
are full of such edges.  Entering it adds one target at the end of a row, and nothing to the rows
but for implied targets, so that the graphs by position are equivalent.
-/

namespace BatchGraph

open Relation

variable {ops : List Operator} {graph : DependencyGraph} {a b c : Operator}

/-! ## One edge more -/

namespace DependencyGraph

/-- The edges by position stay the same but for the new one. -/
theorem filter_place_insert (graph : DependencyGraph) (ops : List Operator) (a c : Operator)
    (keep : Nat × Nat → Bool) (hidden : keep (ops.idxOf a, ops.idxOf c) = false) :
    ((graph.insert a [c]).entries.flatMap (place ops)).filter keep =
      (graph.entries.flatMap (place ops)).filter keep := by
  unfold insert
  split
  case isTrue =>
    rw [List.flatMap_map, List.filter_flatMap, List.filter_flatMap]
    refine List.flatMap_congr fun entry isEntry => ?_
    simp only [place, List.foldl_cons, List.foldl_nil, addSuccessor]
    split
    case isTrue same =>
      split
      · rfl
      · simp [same, hidden]
    case isFalse => rfl
  case isFalse =>
    rw [List.flatMap_append, List.filter_append]
    simp [place, addSuccessor, hidden]

theorem Over.insert (isOver : graph.Over ops) (isSource : a ∈ ops) (isTarget : c ∈ ops)
    (differ : a ≠ c) : (graph.insert a [c]).Over ops where
  sources := insert_sources isOver.sources isSource
  targets x y edge := by
    rcases insert_edge_iff.1 edge with old | ⟨-, isNew⟩
    · exact isOver.targets x y old
    · rwa [List.mem_singleton.1 isNew]
  loopless x edge := by
    rcases insert_edge_iff.1 edge with old | ⟨rfl, isNew⟩
    · exact isOver.loopless x old
    · exact differ (List.mem_singleton.1 isNew)

end DependencyGraph

namespace OperatorGraph

/-- What is kept of a row depends on the edges to what is kept only. -/
theorem filter_successorsOf_ofEdges (ops : List Operator) (edges : List (Nat × Nat)) (i : Nat)
    (keep : Nat → Bool) :
    ((ofEdges ops edges).successorsOf i).filter keep =
      if i < ops.length then
        ((edges.filter fun edge => edge.1 = i && keep edge.2).map (·.2)).eraseDups
      else [] := by
  simp only [ofEdges, successorsOf]
  rw [getD_map_range]
  split
  · rw [Distinct.filter_eraseDups, List.filter_map, List.filter_filter]
    simp only [Function.comp_def, Bool.and_comm]
  · rfl

namespace Represents

variable {g g' : OperatorGraph}

/-- A path between operators is one between their positions. -/
theorem paths_insert (represents : g.Represents ops graph)
    (represents' : g'.Represents ops (graph.insert a [c])) (path : TransGen graph.Edge a c)
    (i j : Nat) : TransGen g'.Edge i j ↔ TransGen g.Edge i j := by
  constructor
  · refine fun path' => path'.lift' id fun i j edge => ?_
    obtain ⟨x, y, atI, atJ, edge⟩ := (represents'.edge_iff i j).1 edge
    rcases DependencyGraph.insert_edge_iff.1 edge with old | ⟨rfl, isNew⟩
    · exact .single ((represents.edge_iff i j).2 ⟨x, y, atI, atJ, old⟩)
    · have distinct : ops.Nodup := represents.operators ▸ represents.distinct
      rw [List.mem_singleton.1 isNew] at atJ
      have positions := represents.transGen_idxOf path
      rwa [Distinct.idxOf_eq distinct atI, Distinct.idxOf_eq distinct atJ] at positions
  · refine fun path' => path'.lift' id fun i j edge => .single ?_
    obtain ⟨x, y, atI, atJ, edge⟩ := (represents.edge_iff i j).1 edge
    exact (represents'.edge_iff i j).2
      ⟨x, y, atI, atJ, DependencyGraph.insert_edge_iff.2 (.inl edge)⟩

end Represents

end OperatorGraph

/-- A graph with one implied edge more is equivalent. -/
theorem OperatorGraph.equivalent_insert {g g' : OperatorGraph}
    (isGraph : ofDependencies ops (some graph) = .ok g) (represents : g.Represents ops graph)
    (isGraph' : ofDependencies ops (some (graph.insert a [c])) = .ok g')
    (represents' : g'.Represents ops (graph.insert a [c])) (implied : Implied graph.Edge a c) :
    g.Equivalent g' := by
  obtain ⟨between, front, back⟩ := implied
  have distinct : ops.Nodup := represents.operators ▸ represents.distinct
  refine ⟨represents.toWellFormed, represents'.toWellFormed,
    represents'.operators.trans represents.operators.symm, ?_, represents.successors_nodup,
    represents'.successors_nodup, represents.paths_insert represents' (front.trans back),
    fun i keep direct => ?_⟩
  · rw [represents.successors_length, represents'.successors_length, size, size,
      represents.operators, represents'.operators]
  · rw [ofDependencies_eq distinct represents.isOver] at isGraph
    rw [ofDependencies_eq distinct represents'.isOver] at isGraph'
    cases isGraph
    cases isGraph'
    have hidden : (decide (ops.idxOf a = i) && keep (ops.idxOf c)) = false := by
      rw [Bool.and_eq_false_imp, decide_eq_true_eq]
      rintro rfl
      rw [Bool.eq_false_iff]
      intro kept
      exact direct _ kept
        ⟨_, represents.transGen_idxOf front, represents.transGen_idxOf back⟩
    have edges := graph.filter_place_insert ops a c
      (fun edge => decide (edge.1 = i) && keep edge.2) hidden
    have rows := filter_successorsOf_ofEdges ops
      ((graph.insert a [c]).entries.flatMap (DependencyGraph.place ops)) i keep
    rw [edges, ← filter_successorsOf_ofEdges] at rows
    exact rows

/-! ## Plans -/

namespace Planner

/-- Entering a dependency that is implied by a path through another operator changes no plan. -/
theorem plan_insert_implied (planner : Planner) (distinct : ops.Nodup) (isOver : graph.Over ops)
    (acyclic : Acyclic graph.Edge) (front : TransGen graph.Edge a b)
    (back : TransGen graph.Edge b c) :
    ∃ plan, planner.plan ops (some graph) = .ok plan ∧
      planner.plan ops (some (graph.insert a [c])) = .ok plan := by
  obtain ⟨_, first, -⟩ := TransGen.head'_iff.1 front
  obtain ⟨_, -, last⟩ := TransGen.tail'_iff.1 back
  have isOver' := isOver.insert (isOver.source_mem first) (isOver.targets _ c last) fun same =>
    acyclic a (by simpa [← same] using front.trans back)
  obtain ⟨g, isGraph, represents⟩ := OperatorGraph.exists_represents distinct isOver
  obtain ⟨g', isGraph', represents'⟩ := OperatorGraph.exists_represents distinct isOver'
  have equivalent := OperatorGraph.equivalent_insert isGraph represents isGraph' represents'
    ⟨b, front, back⟩
  obtain ⟨plan, success⟩ := exists_plan_eq_ok planner distinct isOver acyclic
  refine ⟨plan, success, ?_⟩
  rw [plan_eq_schedule planner isGraph] at success
  rw [plan_eq_schedule planner isGraph', ← success]
  exact schedule_eq equivalent (represents.acyclic_iff.2 acyclic) planner

theorem chain_over : (pair [task 2]).Over [task 0, task 1, task 2] where
  sources := by simp [pair]
  targets a b edge := by
    rcases pair_edge_iff.1 edge with ⟨-, rfl⟩ | ⟨-, member⟩
    · simp
    · simp [List.mem_singleton.1 member]
  loopless a edge := by
    rcases pair_edge_iff.1 edge with ⟨rfl, same⟩ | ⟨rfl, member⟩
    · exact absurd same (by decide)
    · exact absurd member (by decide)

theorem chain_acyclic : Acyclic (pair [task 2]).Edge := by
  apply acyclic_of_rank Operator.id
  intro a b edge
  rcases pair_edge_iff.1 edge with ⟨rfl, rfl⟩ | ⟨rfl, member⟩
  · decide
  · rw [List.mem_singleton.1 member]
    decide

/-- In a chain of three operators, the last one may depend on the first as well. -/
theorem plan_insert_implied_chain :
    ∃ plan, Planner.transitive.plan [task 0, task 1, task 2] (some (pair [task 2])) = .ok plan ∧
      Planner.transitive.plan [task 0, task 1, task 2]
        (some ((pair [task 2]).insert (task 0) [task 2])) = .ok plan :=
  plan_insert_implied .transitive (by decide) chain_over chain_acyclic
    (.single (pair_edge_iff.2 (.inl ⟨rfl, rfl⟩)))
    (.single (pair_edge_iff.2 (.inr ⟨rfl, List.mem_singleton.2 rfl⟩)))

end Planner

end BatchGraph
