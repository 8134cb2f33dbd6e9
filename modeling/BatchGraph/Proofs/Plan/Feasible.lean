import BatchGraph.Plan.Basic
import BatchGraph.Proofs.Dependency.Indexed
import BatchGraph.Proofs.Merge

/-!
What a plan has to do.

`Plan.Feasible` is the contract of every planner: each operator runs exactly once, behind everything
it depends on, together with operators only that it is mergeable with.  Planners work on positions;
there the contract is `OperatorGraph.Runs`, for any part of the positions that remains to be run, so
that a plan can be built from its first group (`Runs.cons`).  `Represents.feasible_iff_runs` says
that the two are the same.
-/

namespace BatchGraph

namespace Plan

/-- The position of the first group that holds the operator. -/
def groupOf (plan : Plan) (op : Operator) : Nat := plan.findIdx (·.contains op)

/-- Every operator runs exactly once, later than its dependencies, in a batch of mergeable ones. -/
structure Feasible (plan : Plan) (ops : List Operator) (graph : DependencyGraph) : Prop where
  complete : plan.flatten.Perm ops
  ordered : ∀ a b, graph.Edge a b → plan.groupOf a < plan.groupOf b
  batched : ∀ group ∈ plan, ∀ a ∈ group, ∀ b ∈ group, a ≠ b → mergeable a [b] = true

/-- An operator is in one group only. -/
theorem groupOf_eq_of_mem {plan : Plan} (distinct : plan.flatten.Nodup) {k : Nat}
    {group : List Operator} (isGroup : plan[k]? = some group) {op : Operator}
    (member : op ∈ group) : plan.groupOf op = k := by
  obtain ⟨bound, rfl⟩ := List.getElem?_eq_some_iff.1 isGroup
  rw [groupOf, List.findIdx_eq bound]
  refine ⟨by simpa using member, fun j before => ?_⟩
  have apart := List.pairwise_iff_getElem.1 (List.nodup_flatten.1 distinct).2 j k (by omega) bound
    before
  simpa using fun again => apart again member

theorem groupOf_eq_groupOf {plan : Plan} (distinct : plan.flatten.Nodup) {group : List Operator}
    (isGroup : group ∈ plan) {a b : Operator} (isA : a ∈ group) (isB : b ∈ group) :
    plan.groupOf a = plan.groupOf b := by
  obtain ⟨k, found⟩ := List.mem_iff_getElem?.1 isGroup
  rw [groupOf_eq_of_mem distinct found isA, groupOf_eq_of_mem distinct found isB]

end Plan

/-! ## Groups in order -/

section Ranks

variable {α : Type} [DecidableEq α] {E : α → α → Prop} {groups : List (List α)}

/-- Edges lead to strictly later groups if none leads back and none stays in its group. -/
theorem findIdx_lt_of_edge
    (ordered : groups.Pairwise fun earlier later => ∀ i ∈ later, ∀ j ∈ earlier, ¬ E i j)
    (unconnected : ∀ group ∈ groups, ∀ i ∈ group, ∀ j ∈ group, ¬ E i j)
    {i j : α} (knownI : i ∈ groups.flatten) (knownJ : j ∈ groups.flatten) (edge : E i j) :
    groups.findIdx (·.contains i) < groups.findIdx (·.contains j) := by
  induction groups with
  | nil => simp at knownI
  | cons group groups ih =>
    rw [List.pairwise_cons] at ordered
    rw [List.forall_mem_cons] at unconnected
    rw [List.flatten_cons, List.mem_append] at knownI knownJ
    by_cases atI : i ∈ group
    · have notJ : j ∉ group := fun atJ => unconnected.1 i atI j atJ edge
      simp [List.findIdx_cons, atI, notJ]
    · have laterI := knownI.resolve_left atI
      by_cases atJ : j ∈ group
      · obtain ⟨other, isOther, inOther⟩ := List.mem_flatten.1 laterI
        exact absurd edge (ordered.1 other isOther i inOther j atJ)
      · have later := ih ordered.2 unconnected.2 laterI (knownJ.resolve_left atJ)
        simpa [List.findIdx_cons, atI, atJ] using later

/-- If edges lead to strictly later groups, none leads back and none stays in its group. -/
theorem ordered_of_findIdx_lt (distinct : groups.flatten.Nodup)
    (grows : ∀ i ∈ groups.flatten, ∀ j ∈ groups.flatten, E i j →
      groups.findIdx (·.contains i) < groups.findIdx (·.contains j)) :
    (groups.Pairwise fun earlier later => ∀ i ∈ later, ∀ j ∈ earlier, ¬ E i j) ∧
      ∀ group ∈ groups, ∀ i ∈ group, ∀ j ∈ group, ¬ E i j := by
  induction groups with
  | nil => simp
  | cons group groups ih =>
    rw [List.flatten_cons, List.nodup_append] at distinct
    have rest := ih distinct.2.1 fun i isI j isJ edge => by
      have notI : i ∉ group := fun again => distinct.2.2 i again i isI rfl
      have notJ : j ∉ group := fun again => distinct.2.2 j again j isJ rfl
      have := grows i (by simp [isI]) j (by simp [isJ]) edge
      simpa [List.findIdx_cons, notI, notJ] using this
    -- Nothing comes before the first group.
    have first i (isI : i ∈ (group :: groups).flatten) j (isJ : j ∈ group) : ¬ E i j := by
      intro edge
      have := grows i isI j (by simp [isJ]) edge
      simp [List.findIdx_cons, isJ] at this
    refine ⟨List.pairwise_cons.2 ⟨fun later isLater i isI => first i ?_, rest.1⟩,
      List.forall_mem_cons.2 ⟨fun i isI => first i ?_, rest.2⟩⟩
    · exact List.mem_append_right _ (List.mem_flatten.2 ⟨later, isLater, isI⟩)
    · exact List.mem_append_left _ isI

end Ranks

/-! ## Runs of what remains -/

theorem mergeableGroup_iff {group : List Operator} (distinct : group.Nodup) :
    MergeableGroup group ↔ ∀ a ∈ group, ∀ b ∈ group, a ≠ b → mergeable a [b] = true :=
  ⟨fun members => members.together, fun all => distinct.pairwise_of_forall_ne all⟩

namespace OperatorGraph

/-- The groups run the remaining positions, each exactly once and later than its dependencies, in
batches of mergeable operators. -/
structure Runs (g : OperatorGraph) (remaining : List Nat) (groups : List (List Nat)) : Prop where
  complete : groups.flatten.Perm remaining
  ordered : groups.Pairwise fun earlier later => ∀ i ∈ later, ∀ j ∈ earlier, ¬ g.Edge i j
  unconnected : ∀ group ∈ groups, ∀ i ∈ group, ∀ j ∈ group, ¬ g.Edge i j
  batched : ∀ group ∈ groups, MergeableGroup (g.select group)

namespace Runs

variable {g : OperatorGraph} {remaining group : List Nat} {groups : List (List Nat)}

theorem nil (g : OperatorGraph) : g.Runs [] [] := ⟨by simp, by simp, by simp, by simp⟩

/-- A batch of which no member depends on anything that remains can run first. -/
theorem cons (distinct : group.Nodup) (distinct' : remaining.Nodup)
    (known : ∀ i ∈ group, i ∈ remaining) (free : ∀ i ∈ group, ∀ j ∈ remaining, ¬ g.Edge j i)
    (batched : MergeableGroup (g.select group))
    (rest : g.Runs (remaining.filter fun i => !group.contains i) groups) :
    g.Runs remaining (group :: groups) where
  complete := by
    have front : group.Perm (remaining.filter fun i => group.contains i) := by
      apply (List.perm_ext_iff_of_nodup distinct (distinct'.filter _)).2
      intro i
      simpa using fun member => known i member
    exact (front.append rest.complete).trans (List.filter_append_perm _ remaining)
  ordered := by
    refine List.pairwise_cons.2 ⟨fun later isLater i isI j isJ => ?_, rest.ordered⟩
    have remains := rest.complete.mem_iff.1 (List.mem_flatten.2 ⟨later, isLater, isI⟩)
    exact free j isJ i (List.mem_filter.1 remains).1
  unconnected := List.forall_mem_cons.2
    ⟨fun i isI j isJ => free j isJ i (known i isI), rest.unconnected⟩
  batched := List.forall_mem_cons.2 ⟨batched, rest.batched⟩

theorem mem_of_mem_head (runs : g.Runs remaining (group :: groups)) {i : Nat} (member : i ∈ group) :
    i ∈ remaining :=
  runs.complete.mem_iff.1 (List.mem_append_left _ member)

/-- No member of the first group depends on anything that remains. -/
theorem free_of_mem_head (runs : g.Runs remaining (group :: groups)) {i j : Nat}
    (member : i ∈ group) (remains : j ∈ remaining) : ¬ g.Edge j i := by
  rcases List.mem_append.1 (runs.complete.mem_iff.2 remains) with same | later
  · exact runs.unconnected group List.mem_cons_self j same i member
  · obtain ⟨other, isOther, inOther⟩ := List.mem_flatten.1 later
    exact List.rel_of_pairwise_cons runs.ordered isOther j inOther i member

theorem tail (distinct : remaining.Nodup) (runs : g.Runs remaining (group :: groups)) :
    g.Runs (remaining.filter fun i => !group.contains i) groups where
  complete := by
    have parts := runs.complete.nodup_iff.2 distinct
    rw [List.flatten_cons, List.nodup_append] at parts
    have behind : groups.flatten.filter (fun i => !group.contains i) = groups.flatten := by
      apply List.filter_eq_self.2
      intro i later
      have apart : i ∉ group := fun again => parts.2.2 i again i later rfl
      simpa using apart
    have inside : group.filter (fun i => !group.contains i) = [] := by simp
    have filtered := runs.complete.filter fun i => !group.contains i
    rwa [List.flatten_cons, List.filter_append, behind, inside, List.nil_append] at filtered
  ordered := runs.ordered.of_cons
  unconnected := (List.forall_mem_cons.1 runs.unconnected).2
  batched := (List.forall_mem_cons.1 runs.batched).2

/-- If less remains, the same groups without what is missing are enough. -/
theorem exists_of_subset {fewer : List Nat} (runs : g.Runs remaining groups)
    (distinct : remaining.Nodup) (distinct' : fewer.Nodup) (subset : ∀ i ∈ fewer, i ∈ remaining) :
    ∃ groups', g.Runs fewer groups' ∧ groups'.length ≤ groups.length := by
  have filtered (group : List Nat) :
      (g.select (group.filter fewer.contains)).Sublist (g.select group) :=
    List.filter_sublist.filterMap _
  refine ⟨groups.map (·.filter fewer.contains), ⟨?_, ?_, ?_, ?_⟩, by simp⟩
  · rw [← List.filter_flatten]
    apply (runs.complete.filter _).trans
    apply (List.perm_ext_iff_of_nodup (distinct.filter _) distinct').2
    intro i
    simpa using subset i
  · refine List.pairwise_map.2 (runs.ordered.imp fun apart i isI j isJ => ?_)
    exact apart i (List.mem_filter.1 isI).1 j (List.mem_filter.1 isJ).1
  · refine List.forall_mem_map.2 fun group isGroup i isI j isJ => ?_
    exact runs.unconnected group isGroup i (List.mem_filter.1 isI).1 j (List.mem_filter.1 isJ).1
  · exact List.forall_mem_map.2 fun group isGroup =>
      (runs.batched group isGroup).sublist (filtered group)

/-- A graph that can be run has no cycles. -/
theorem acyclic (wellFormed : g.WellFormed) (runs : g.Runs (List.range g.size) groups) :
    Acyclic g.Edge := by
  apply acyclic_of_rank (fun i => groups.findIdx (·.contains i))
  intro i j edge
  have inside := wellFormed.inside i j edge
  exact findIdx_lt_of_edge runs.ordered runs.unconnected
    (runs.complete.mem_iff.2 (List.mem_range.2 inside.1))
    (runs.complete.mem_iff.2 (List.mem_range.2 inside.2)) edge

end Runs

theorem mergeableGroup_select_singleton (g : OperatorGraph) (i : Nat) :
    MergeableGroup (g.select [i]) := by
  unfold select MergeableGroup
  cases found : g.operators[i]? with
  | none => simp [found]
  | some op => simp [found]

/-- What planning of the remaining positions comes to: batches that run them, none of them empty,
or a cycle, which is reported only if there is one. -/
structure Planned (g : OperatorGraph) (remaining : List Nat) (result : Except Error Plan) :
    Prop where
  runs : ∀ plan, result = .ok plan →
    ∃ groups, plan = groups.map g.select ∧ g.Runs remaining groups ∧ ∀ group ∈ groups, group ≠ []
  succeeds : Acyclic g.Edge → ∃ plan, result = .ok plan
  fails : ∀ error, result = .error error → ∃ stuck, error = .cycle stuck

namespace Planned

variable {g : OperatorGraph} {remaining : List Nat} {result : Except Error Plan}

theorem nil (g : OperatorGraph) : g.Planned [] (.ok []) where
  runs plan success := by
    cases success
    exact ⟨[], rfl, .nil g, by simp⟩
  succeeds _ := ⟨[], rfl⟩
  fails error failure := by cases failure

/-- A batch that can run first goes in front of what is planned behind it. -/
theorem cons {batch : List Nat} (nonempty : batch ≠ []) (distinct : batch.Nodup)
    (distinct' : remaining.Nodup) (known : ∀ i ∈ batch, i ∈ remaining)
    (free : ∀ i ∈ batch, ∀ j ∈ remaining, ¬ g.Edge j i) (batched : MergeableGroup (g.select batch))
    (rest : g.Planned (remaining.filter fun i => !batch.contains i) result) :
    g.Planned remaining (do return g.select batch :: (← result)) where
  runs plan success := by
    obtain ⟨plan', isRest, success⟩ := Except.bind_eq_ok_iff.1 success
    cases success
    obtain ⟨groups, rfl, runs, nonempty'⟩ := rest.runs plan' isRest
    exact ⟨batch :: groups, rfl, .cons distinct distinct' known free batched runs,
      List.forall_mem_cons.2 ⟨nonempty, nonempty'⟩⟩
  succeeds acyclic := by
    obtain ⟨plan', isRest⟩ := rest.succeeds acyclic
    exact ⟨_, by rw [isRest]; rfl⟩
  fails error failure := by
    cases isRest : result with
    | ok plan' =>
      rw [isRest] at failure
      cases failure
    | error reason =>
      rw [isRest] at failure
      cases failure
      exact rest.fails error isRest

/-- Nothing needs to be planned where operators wait for each other. -/
theorem stuck (cyclic : ¬ Acyclic g.Edge) (count : Nat) :
    g.Planned remaining (.error (.cycle count)) where
  runs plan success := by cases success
  succeeds acyclic := absurd acyclic cyclic
  fails error failure := by
    cases failure
    exact ⟨count, rfl⟩

end Planned

/-! ## Plans of operators -/

namespace Represents

variable {g : OperatorGraph} {ops : List Operator} {graph : DependencyGraph}

theorem groupOf_select (represents : g.Represents ops graph) {op : Operator} {i : Nat}
    (found : ops[i]? = some op) (groups : List (List Nat)) :
    Plan.groupOf (groups.map g.select) op = groups.findIdx (·.contains i) := by
  rw [← represents.operators] at found
  rw [Plan.groupOf, List.findIdx_map]
  congr 1
  funext group
  simp [represents.toWellFormed.mem_select_iff found]

theorem complete_iff (represents : g.Represents ops graph) {positions : List Nat}
    (inside : ∀ i ∈ positions, i < g.size) :
    (g.select positions).Perm ops ↔ positions.Perm (List.range g.size) := by
  have wellFormed := represents.toWellFormed
  constructor
  · intro same
    have places := same.filterMap g.operators.idxOf?
    have all := wellFormed.positions_select fun i member => List.mem_range.1 member
    rw [g.select_range] at all
    rwa [wellFormed.positions_select inside, ← represents.operators, all] at places
  · intro same
    have operators : (g.select positions).Perm (g.select (List.range g.size)) :=
      same.filterMap _
    rwa [g.select_range, represents.operators] at operators

/-- A plan meets its contract if and only if the positions of its operators do. -/
theorem feasible_iff_runs (represents : g.Represents ops graph) {groups : List (List Nat)}
    (inside : ∀ group ∈ groups, ∀ i ∈ group, i < g.size) :
    Plan.Feasible (groups.map g.select) ops graph ↔ g.Runs (List.range g.size) groups := by
  have operators := represents.operators
  have distinct : ops.Nodup := operators ▸ represents.distinct
  have known i (member : i ∈ groups.flatten) : i < g.size := by
    obtain ⟨group, isGroup, inGroup⟩ := List.mem_flatten.1 member
    exact inside group isGroup i inGroup
  have complete : (groups.map g.select).flatten.Perm ops ↔
      groups.flatten.Perm (List.range g.size) := by
    rw [← g.select_flatten, represents.complete_iff known]
  -- Members of one group are distinct either way, as the whole plan has no repetition.
  have batched (once : groups.flatten.Perm (List.range g.size)) :
      (∀ group ∈ groups.map g.select, ∀ a ∈ group, ∀ b ∈ group, a ≠ b → mergeable a [b] = true) ↔
        ∀ group ∈ groups, MergeableGroup (g.select group) := by
    rw [List.forall_mem_map]
    refine forall₂_congr fun group isGroup => (mergeableGroup_iff ?_).symm
    have whole : (groups.map g.select).flatten.Nodup := (complete.2 once).nodup_iff.2 distinct
    exact (List.nodup_flatten.1 whole).1 _ (List.mem_map_of_mem isGroup)
  constructor
  · intro holds
    rcases holds with ⟨once, ordered, merges⟩
    rw [complete] at once
    have split := ordered_of_findIdx_lt (E := g.Edge) (once.nodup_iff.2 List.nodup_range) ?_
    · exact ⟨once, split.1, split.2, (batched once).1 merges⟩
    · intro i _ j _ edge
      obtain ⟨a, b, atI, atJ, edge⟩ := (represents.edge_iff i j).1 edge
      have later := ordered a b edge
      rwa [represents.groupOf_select atI, represents.groupOf_select atJ] at later
  · intro runs
    refine ⟨complete.2 runs.complete, fun a b edge => ?_, (batched runs.complete).2 runs.batched⟩
    obtain ⟨i, atI⟩ := List.mem_iff_getElem?.1 (represents.isOver.source_mem edge)
    obtain ⟨j, atJ⟩ := List.mem_iff_getElem?.1 (represents.isOver.targets a b edge)
    rw [represents.groupOf_select atI, represents.groupOf_select atJ]
    have edge' : g.Edge i j := (represents.edge_iff i j).2 ⟨a, b, atI, atJ, edge⟩
    have bounds := represents.inside i j edge'
    exact findIdx_lt_of_edge runs.ordered runs.unconnected
      (runs.complete.mem_iff.2 (List.mem_range.2 bounds.1))
      (runs.complete.mem_iff.2 (List.mem_range.2 bounds.2)) edge'

/-- A plan that meets its contract runs the positions of its operators. -/
theorem exists_runs (represents : g.Represents ops graph) {plan : Plan}
    (feasible : plan.Feasible ops graph) :
    ∃ groups, plan = groups.map g.select ∧ g.Runs (List.range g.size) groups := by
  have wellFormed := represents.toWellFormed
  have known (group : List Operator) (isGroup : group ∈ plan) (op : Operator)
      (member : op ∈ group) : op ∈ g.operators := by
    rw [represents.operators]
    exact feasible.complete.mem_iff.1 (List.mem_flatten.2 ⟨group, isGroup, member⟩)
  have same : (plan.map fun group => group.filterMap g.operators.idxOf?).map g.select = plan := by
    rw [List.map_map]
    exact (List.map_congr_left fun group isGroup =>
      wellFormed.select_positions (known group isGroup)).trans (List.map_id plan)
  refine ⟨_, same.symm, (represents.feasible_iff_runs ?_).1 (same.symm ▸ feasible)⟩
  refine List.forall_mem_map.2 fun group _ i member => ?_
  obtain ⟨op, -, isPlace⟩ := List.mem_filterMap.1 member
  rw [Distinct.idxOf?_eq_some_iff wellFormed.distinct] at isPlace
  exact (List.getElem?_eq_some_iff.1 isPlace).1

end Represents

end OperatorGraph

end BatchGraph
