import BatchGraph.Proofs.Dependency.Derived
import BatchGraph.Proofs.Planner
import BatchGraph.Proofs.Signal

/-!
Plans under derived dependencies are free of hazards.

Wherever two operators access a common element in different roles, the derived graph orders them,
and every planner keeps that order; two that write the same element are refused before.  So what is
left for one batch is that several operators increment, or several read, the same element.
-/

namespace BatchGraph

/-- Different roles have an order. -/
theorem Role.orderedPairs_or (r r' : Role) :
    (r, r') ∈ Role.orderedPairs ∨ (r', r) ∈ Role.orderedPairs ∨ r = r' := by
  cases r <;> cases r' <;> decide

namespace Planner

variable {ops : List Operator} {graph : DependencyGraph} {plan : Plan} {a b : Operator}
  {r r' : Role} {s t : Signal}

section Hazards

variable (planner : Planner) (distinct : ops.Nodup)
  (derived : DependencyGraph.derive ops = .ok graph)
  (success : planner.plan ops (some graph) = .ok plan) (isA : a ∈ ops) (isB : b ∈ ops)
  (differ : a ≠ b) (isS : s ∈ a.signals r) (isT : t ∈ b.signals r')
  (shares : s.mayShareMemory t = true)

include distinct derived success isA isB differ isS isT shares

/-- The operator that accesses shared memory in the earlier role runs earlier. -/
theorem groupOf_lt_of_mayShareMemory (earlier : (r, r') ∈ Role.orderedPairs) :
    plan.groupOf a < plan.groupOf b := by
  have isOver := DependencyGraph.derive_over derived
  apply (feasible_of_plan_eq_ok planner distinct isOver success).1.ordered a b
  exact (DependencyGraph.derive_edge_iff derived).2
    ⟨isA, isB, differ, (r, r'), earlier, s, isS, t, isT, shares⟩

/-- Operators of one batch access shared memory in the same role only, and neither set nor update
it. -/
theorem role_eq_of_mayShareMemory {group : List Operator} (isGroup : group ∈ plan)
    (inA : a ∈ group) (inB : b ∈ group) : r = r' ∧ (r = .incs ∨ r = .reads) := by
  have isOver := DependencyGraph.derive_over derived
  have feasible := (feasible_of_plan_eq_ok planner distinct isOver success).1
  have together := Plan.groupOf_eq_groupOf (feasible.complete.nodup_iff.2 distinct) isGroup inA inB
  have shares' : t.mayShareMemory s = true := by rwa [Signal.mayShareMemory_comm]
  rcases Role.orderedPairs_or r r' with before | behind | rfl
  · have := groupOf_lt_of_mayShareMemory planner distinct derived success isA isB differ isS isT
      shares before
    omega
  · have := groupOf_lt_of_mayShareMemory planner distinct derived success isB isA differ.symm isT
      isS shares' behind
    omega
  · refine ⟨rfl, ?_⟩
    by_contra writes
    have apart := DependencyGraph.mayShareMemory_eq_false_of_derive derived r
      (by cases r <;> simp_all) isA isB differ isS isT
    rw [shares] at apart
    cases apart

end Hazards

/-- Of two operators that access shared memory, the one with the earlier role runs in a strictly
earlier group.  If they share a group, both increment or both read, and so no group has conflicting
accesses to a common element. -/
theorem hazard_free (planner : Planner) (distinct : ops.Nodup)
    (derived : DependencyGraph.derive ops = .ok graph)
    (success : planner.plan ops (some graph) = .ok plan) (isA : a ∈ ops) (isB : b ∈ ops)
    (differ : a ≠ b) (isS : s ∈ a.signals r) (isT : t ∈ b.signals r') :
    (s.mayShareMemory t = true →
      ((r, r') ∈ Role.orderedPairs → plan.groupOf a < plan.groupOf b) ∧
      ∀ group ∈ plan, a ∈ group → b ∈ group → r = r' ∧ (r = .incs ∨ r = .reads)) ∧
    (s.base = t.base → ∀ p ∈ s.elements, ∀ q ∈ t.elements, p.place = q.place →
      ∀ group ∈ plan, a ∈ group → b ∈ group → r = r' ∧ (r = .incs ∨ r = .reads)) := by
  refine ⟨fun shares => ⟨?_, fun group isGroup inA inB => ?_⟩,
    fun base p inS q inT same group isGroup inA inB => ?_⟩
  · exact groupOf_lt_of_mayShareMemory planner distinct derived success isA isB differ isS isT
      shares
  · exact role_eq_of_mayShareMemory planner distinct derived success isA isB differ isS isT shares
      isGroup inA inB
  · have shares := Signal.mayShareMemory_of_common base inS inT same
    exact role_eq_of_mayShareMemory planner distinct derived success isA isB differ isS isT shares
      isGroup inA inB

/-- A single number in memory. -/
def cell : Signal :=
  .ofBase ⟨0, "cell", .float32, [1], [0], false, false, Base.natural_extents_one,
    Base.initial_length_one⟩

def writer : Operator := .reset 1 cell 0 none

def reader : Operator := .func 2 false [] [] [cell] [] none

/-- A number is reset before it is read. -/
theorem hazard_free_cell :
    DependencyGraph.derive [writer, reader] = .ok ⟨[(writer, [reader]), (reader, [])]⟩ ∧
    Planner.greedy.plan [writer, reader] (some ⟨[(writer, [reader]), (reader, [])]⟩) =
      .ok [[writer], [reader]] ∧
    Plan.groupOf [[writer], [reader]] writer < Plan.groupOf [[writer], [reader]] reader := by
  have derived : DependencyGraph.derive [writer, reader] =
      .ok ⟨[(writer, [reader]), (reader, [])]⟩ := by decide +kernel
  have planned : Planner.greedy.plan [writer, reader]
      (some ⟨[(writer, [reader]), (reader, [])]⟩) = .ok [[writer], [reader]] := by decide +kernel
  have sets : cell ∈ writer.signals .sets := by decide
  have reads : cell ∈ reader.signals .reads := by decide
  have free := hazard_free .greedy (by decide) derived planned (by decide) (by decide) (by decide)
    sets reads
  exact ⟨derived, planned, (free.1 (by decide +kernel)).1 (by decide)⟩

end Planner

end BatchGraph
