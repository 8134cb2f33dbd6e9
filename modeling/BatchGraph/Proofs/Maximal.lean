import BatchGraph.Proofs.Plan.Settled
import BatchGraph.Proofs.Planner

/-!
Planning by merging leaves no two groups that could be merged.

Mergeable operators of different groups are connected through the groups of the plan.  If the two
groups were one, the path would lead from it back to itself, and in no order of the groups would all
dependencies be in earlier ones.
-/

namespace BatchGraph

/-- The other plan has the groups of the first one in some order, but the union of the given two in
place of them. -/
def Plan.Unites (plan : Plan) (first second : List Operator) (other : Plan) : Prop :=
  ∃ union rest, plan.Perm (first :: second :: rest) ∧ union.Perm (first ++ second) ∧
    other.Perm (union :: rest)

namespace Plan.Unites

variable {plan other : Plan} {first second group : List Operator} {a b : Operator}

theorem flatten_perm (unites : plan.Unites first second other) :
    other.flatten.Perm plan.flatten := by
  obtain ⟨union, rest, isPlan, isUnion, isOther⟩ := unites
  refine isOther.flatten.trans (List.Perm.trans ?_ isPlan.flatten.symm)
  simpa using isUnion.append_right rest.flatten

/-- Groups of the plan stay together. -/
theorem exists_subset (unites : plan.Unites first second other) (isGroup : group ∈ plan) :
    ∃ whole ∈ other, group ⊆ whole := by
  obtain ⟨union, rest, isPlan, isUnion, isOther⟩ := unites
  have isWhole : union ∈ other := isOther.mem_iff.2 List.mem_cons_self
  rcases List.mem_cons.1 (isPlan.mem_iff.1 isGroup) with rfl | isGroup
  · exact ⟨union, isWhole, fun op member => isUnion.mem_iff.2 (List.mem_append_left _ member)⟩
  rcases List.mem_cons.1 isGroup with rfl | isGroup
  · exact ⟨union, isWhole, fun op member => isUnion.mem_iff.2 (List.mem_append_right _ member)⟩
  · exact ⟨group, isOther.mem_iff.2 (List.mem_cons_of_mem _ isGroup), List.Subset.refl group⟩

theorem groupOf_eq (unites : plan.Unites first second other) (once : plan.flatten.Nodup)
    (isGroup : group ∈ plan) (isA : a ∈ group) (isB : b ∈ group) :
    other.groupOf a = other.groupOf b := by
  obtain ⟨whole, isWhole, subset⟩ := unites.exists_subset isGroup
  exact groupOf_eq_groupOf (unites.flatten_perm.nodup_iff.2 once) isWhole (subset isA) (subset isB)

/-- Members of the two groups run together. -/
theorem groupOf_eq_of_mem (unites : plan.Unites first second other) (once : plan.flatten.Nodup)
    (isA : a ∈ first) (isB : b ∈ second) : other.groupOf a = other.groupOf b := by
  have once' := unites.flatten_perm.nodup_iff.2 once
  obtain ⟨union, rest, -, isUnion, isOther⟩ := unites
  exact groupOf_eq_groupOf once' (isOther.mem_iff.2 List.mem_cons_self)
    (isUnion.mem_iff.2 (List.mem_append_left _ isA))
    (isUnion.mem_iff.2 (List.mem_append_right _ isB))

theorem mem_plan (unites : plan.Unites first second other) : first ∈ plan ∧ second ∈ plan := by
  obtain ⟨union, rest, isPlan, -⟩ := unites
  exact ⟨isPlan.mem_iff.2 (by simp), isPlan.mem_iff.2 (by simp)⟩

theorem not_mem_first (unites : plan.Unites first second other) (once : plan.flatten.Nodup)
    (isB : b ∈ second) : b ∉ first := by
  obtain ⟨union, rest, isPlan, -⟩ := unites
  intro again
  have apart := (List.nodup_append.1 (isPlan.flatten.nodup_iff.1 once)).2.2
  exact apart b again b (List.mem_append_left _ isB) rfl

end Plan.Unites

namespace Planner

variable {ops : List Operator} {graph : DependencyGraph}

/-- Planning by merging leaves no two groups that could be merged: if the members of two groups are
mergeable with each other, no plan that has the two as one, in whatever order, runs all operators
behind their dependencies. -/
theorem transitive_maximal (distinct : ops.Nodup) (isOver : graph.Over ops)
    (acyclic : Acyclic graph.Edge) :
    ∃ plan, Planner.transitive.plan ops (some graph) = .ok plan ∧
      ∀ first second other, plan.Unites first second other →
        (∀ a ∈ first ++ second, ∀ b ∈ first ++ second, a ≠ b → mergeable a [b] = true) →
          ¬ ∀ a b, graph.Edge a b → other.groupOf a < other.groupOf b := by
  obtain ⟨g, isGraph, represents⟩ := OperatorGraph.exists_represents distinct isOver
  obtain ⟨plan, success⟩ := exists_plan_eq_ok .transitive distinct isOver acyclic
  obtain ⟨feasible, nonempty⟩ := feasible_of_plan_eq_ok .transitive distinct isOver success
  refine ⟨plan, success, fun first second other unites merges ordered => ?_⟩
  rw [plan_eq_schedule .transitive isGraph] at success
  have known {group : List Operator} (isGroup : group ∈ plan) {op : Operator}
      (member : op ∈ group) : op ∈ ops :=
    feasible.complete.mem_iff.1 (List.mem_flatten.2 ⟨group, isGroup, member⟩)
  have once : plan.flatten.Nodup := feasible.complete.nodup_iff.2 distinct
  -- What was merged runs in one group of the plan, and so in one of the other plan.
  have constant (a : Operator) (isA : a ∈ ops) (b : Operator) (isB : b ∈ ops)
      (same : Merging.home g a = Merging.home g b) : other.groupOf a = other.groupOf b := by
    obtain ⟨group, isGroup, member⟩ := List.mem_flatten.1 (feasible.complete.mem_iff.2 isA)
    have member' := (represents.home_eq_iff_mem success isGroup isA isB member).1 same
    exact unites.groupOf_eq once isGroup member member'
  obtain ⟨isFirst, isSecond⟩ := unites.mem_plan
  obtain ⟨a, inFirst⟩ := List.exists_mem_of_ne_nil first (nonempty first isFirst)
  obtain ⟨b, inSecond⟩ := List.exists_mem_of_ne_nil second (nonempty second isSecond)
  have isA := known isFirst inFirst
  have isB := known isSecond inSecond
  have apart : b ∉ first := unites.not_mem_first once inSecond
  have differ : Merging.home g a ≠ Merging.home g b :=
    mt (represents.home_eq_iff_mem success isFirst isA isB inFirst).1 apart
  have merges' : mergeable a [b] = true :=
    merges a (List.mem_append_left _ inFirst) b (List.mem_append_right _ inSecond) fun same =>
      apart (same ▸ inFirst)
  have together := unites.groupOf_eq_of_mem once inFirst inSecond
  rcases represents.transGen_home_of_mergeable isA isB merges' differ with path | path
  · exact (represents.lt_of_transGen_home ordered constant isA isB path).ne together
  · exact (represents.lt_of_transGen_home ordered constant isB isA path).ne together.symm

/-- The groups of two tasks one of which depends on the other cannot be made one. -/
theorem transitive_maximal_pair :
    Planner.transitive.plan [task 0, task 1] (some (pair [])) = .ok [[task 0], [task 1]] ∧
      Plan.Unites [[task 0], [task 1]] [task 0] [task 1] [[task 0, task 1]] ∧
      ¬ ∀ a b, (pair []).Edge a b →
        Plan.groupOf [[task 0, task 1]] a < Plan.groupOf [[task 0, task 1]] b := by
  have isPlan : Planner.transitive.plan [task 0, task 1] (some (pair [])) =
      .ok [[task 0], [task 1]] := by decide +kernel
  have unites : Plan.Unites [[task 0], [task 1]] [task 0] [task 1] [[task 0, task 1]] :=
    ⟨[task 0, task 1], [], .refl _, .refl _, .refl _⟩
  have isOver : (pair []).Over [task 0, task 1] := pair_over (by simp)
  obtain ⟨plan, success, maximal⟩ := transitive_maximal (by decide) isOver pair_acyclic
  obtain rfl := Except.ok.inj (isPlan.symm.trans success)
  exact ⟨isPlan, unites, maximal [task 0] [task 1] [[task 0, task 1]] unites (by decide)⟩

end Planner

end BatchGraph
