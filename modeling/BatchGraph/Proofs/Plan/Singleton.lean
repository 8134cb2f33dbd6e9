import BatchGraph.Plan.Singleton
import BatchGraph.Proofs.Dependency.Toposort
import BatchGraph.Proofs.Plan.Feasible

/-!
A topological order is a plan of batches of one.
-/

namespace BatchGraph

namespace OperatorGraph

variable {g : OperatorGraph}

theorem WellFormed.leads_inside (wellFormed : g.WellFormed) (i j : Nat)
    (edge : Leads g.successors i j) : j < g.successors.length :=
  wellFormed.successors_length ▸ (wellFormed.inside i j edge).2

theorem map_singleton_select {positions : List Nat} (inside : ∀ i ∈ positions, i < g.size) :
    (g.select positions).map ([·]) = (positions.map ([·])).map g.select := by
  induction positions with
  | nil => rfl
  | cons i positions ih =>
    rw [List.forall_mem_cons] at inside
    obtain ⟨op, found⟩ : ∃ op, g.operators[i]? = some op :=
      ⟨_, List.getElem?_eq_getElem inside.1⟩
    have rest := ih inside.2
    simp only [select, List.filterMap_cons, found, List.map_cons, List.filterMap_nil] at rest ⊢
    rw [rest]

end OperatorGraph

theorem singletonPlan_planned {g : OperatorGraph} (wellFormed : g.WellFormed) :
    g.Planned (List.range g.size) (singletonPlan g) where
  runs plan success := by
    unfold singletonPlan at success
    obtain ⟨order, sorted, success⟩ := Except.bind_eq_ok_iff.1 success
    cases success
    obtain ⟨complete, ordered⟩ := toposort_eq_ok wellFormed.leads_inside sorted
    rw [wellFormed.successors_length] at complete
    have inside : ∀ i ∈ order, i < g.size :=
      fun i member => List.mem_range.1 (complete.mem_iff.1 member)
    refine ⟨order.map ([·]), OperatorGraph.map_singleton_select inside, ⟨?_, ?_, ?_, ?_⟩, by simp⟩
    · rwa [← List.flatMap_def, List.flatMap_singleton']
    · refine List.pairwise_map.2 (ordered.imp fun apart i isI j isJ => ?_)
      rw [List.mem_singleton] at isI isJ
      subst isI isJ
      exact apart
    · simpa using fun i _ => wellFormed.loopless i
    · exact List.forall_mem_map.2 fun i _ => g.mergeableGroup_select_singleton i
  succeeds acyclic := by
    obtain ⟨order, sorted⟩ := exists_toposort_eq_ok wellFormed.leads_inside acyclic
    exact ⟨_, by rw [singletonPlan, sorted]; rfl⟩
  fails error failure := by
    unfold singletonPlan at failure
    cases sorted : toposort g.successors with
    | ok order =>
      rw [sorted] at failure
      cases failure
    | error reason =>
      rw [sorted] at failure
      cases failure
      exact toposort_eq_error sorted

end BatchGraph
