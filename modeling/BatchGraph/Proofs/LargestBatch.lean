import Mathlib.Data.Set.Card
import BatchGraph.Proofs.Planner

/-!
Greedy planning takes a largest complete batch at every step.

What could run next is said without the state of the planner: an operator is ready if it has not
run but all of its dependencies have (`DependencyGraph.Ready`), and the ready operators of one class
are a batch (`DependencyGraph.batch`).  The groups that wait are kept from step to step and only what
has just been freed is added to them, but they are exactly the batches
(`Greedy.Waiting.setOf_mem_eq`), and so the largest group is a largest batch.
-/

namespace BatchGraph

namespace DependencyGraph

/-- The operator has not run, but all of its dependencies have. -/
structure Ready (graph : DependencyGraph) (ops done : List Operator) (op : Operator) : Prop where
  isOperator : op ∈ ops
  waits : op ∉ done
  free : ∀ a, graph.Edge a op → a ∈ done

/-- The operators that are ready and in the class of the given one.  Nodes are in no class but their
own. -/
def batch (graph : DependencyGraph) (ops done : List Operator) (op : Operator) : Set Operator :=
  {x | graph.Ready ops done x ∧ (x = op ∨ mergeable x [op] = true)}

/-- A group that runs next: all that is ready of one class, and no class has more that is ready. -/
structure LargestBatch (graph : DependencyGraph) (ops done group : List Operator) : Prop where
  nonempty : group ≠ []
  distinct : group.Nodup
  complete : ∀ op ∈ group, {x | x ∈ group} = graph.batch ops done op
  largest : ∀ op, graph.Ready ops done op → (graph.batch ops done op).ncard ≤ group.length

end DependencyGraph

/-- Nodes are mergeable with nothing. -/
theorem mergeable_node {a b : Operator} (isNode : b.action = .node) : mergeable a [b] = false := by
  rw [Bool.eq_false_iff]
  intro merges
  rw [mergeable, mergeablePair_comm, mergeablePair_iff, mergeableActions, isNode] at merges
  exact absurd merges.2 (by simp)

/-- A node is a group of its own. -/
theorem DependencyGraph.LargestBatch.eq_singleton {graph : DependencyGraph}
    {ops done group : List Operator} (batch : graph.LargestBatch ops done group) {op : Operator}
    (member : op ∈ group) (isNode : op.action = .node) : group = [op] := by
  refine List.perm_singleton.1 ((List.perm_ext_iff_of_nodup batch.distinct (by simp)).2 fun x => ?_)
  have isMember : x ∈ group ↔ x ∈ graph.batch ops done op :=
    Set.ext_iff.1 (batch.complete op member) x
  rw [List.mem_singleton]
  constructor
  · intro inGroup
    refine (isMember.1 inGroup).2.resolve_right ?_
    simp [mergeable_node isNode]
  · rintro rfl
    exact member

namespace Greedy

variable {g : OperatorGraph} {ops ran : List Operator} {graph : DependencyGraph}
  {waiting : List (List Operator)} {freed done : List Nat} {group : List Operator}

/-! ## The groups that wait -/

/-- The operators that have run, by position and by themselves. -/
def Ran (g : OperatorGraph) (done : List Nat) (ran : List Operator) : Prop :=
  ∀ i op, g.operators[i]? = some op → (i ∈ done ↔ op ∈ ran)

theorem Ran.append (wellFormed : g.WellFormed) (agree : Ran g done ran) (group : List Operator) :
    Ran g ((group.filterMap g.operators.idxOf?).reverse ++ done) (ran ++ group) := by
  intro i op found
  have isPlace : i ∈ group.filterMap g.operators.idxOf? ↔ op ∈ group := by
    rw [List.mem_filterMap]
    constructor
    · rintro ⟨other, member, isPlace⟩
      rw [Distinct.idxOf?_eq_some_iff wellFormed.distinct, found] at isPlace
      cases isPlace
      exact member
    · intro member
      exact ⟨op, member, (Distinct.idxOf?_eq_some_iff wellFormed.distinct).2 found⟩
  rw [List.mem_append, List.mem_append, List.mem_reverse, isPlace, agree i op found, or_comm]

/-- What can run is said of positions as of operators. -/
theorem mem_runnable_iff_ready (represents : g.Represents ops graph) (agree : Ran g done ran)
    {i : Nat} {op : Operator} (found : ops[i]? = some op) :
    i ∈ runnable g done ↔ graph.Ready ops ran op := by
  have operators := represents.operators
  have found' : g.operators[i]? = some op := operators ▸ found
  have free : isFree g done i = true ↔ ∀ a, graph.Edge a op → a ∈ ran := by
    rw [isFree_iff represents.toWellFormed]
    constructor
    · intro all a edge
      obtain ⟨j, isA⟩ := List.mem_iff_getElem?.1 (represents.isOver.source_mem edge)
      have depends := (represents.edge_iff j i).2 ⟨a, op, isA, found, edge⟩
      exact (agree j a (operators ▸ isA)).1 (all j depends)
    · intro all j edge
      obtain ⟨a, b, isA, isB, edge⟩ := (represents.edge_iff j i).1 edge
      obtain rfl := Option.some.inj (found.symm.trans isB)
      exact (agree j a (operators ▸ isA)).2 (all a edge)
  rw [mem_runnable, free, agree i op found']
  constructor
  · rintro ⟨-, waits, free⟩
    exact ⟨List.mem_of_getElem? found, waits, free⟩
  · rintro ⟨-, waits, free⟩
    exact ⟨(List.getElem?_eq_some_iff.1 found').1, waits, free⟩

/-- If nothing has just been freed, the operators that wait are those that are ready. -/
theorem Waiting.mem_flatten_iff (represents : g.Represents ops graph)
    (waits : Waiting g waiting [] done) (agree : Ran g done ran) {op : Operator} :
    op ∈ waiting.flatten ↔ graph.Ready ops ran op := by
  have distinct := represents.distinct
  have place {i : Nat} (found : ops[i]? = some op) :
      i ∈ waiting.flatten.filterMap g.operators.idxOf? ↔ graph.Ready ops ran op := by
    rw [← mem_runnable_iff_ready represents agree found, ← waits.atHand.mem_iff, List.append_nil]
  constructor
  · intro member
    obtain ⟨group, isGroup, inGroup⟩ := List.mem_flatten.1 member
    have known := waits.known group isGroup op inGroup
    obtain ⟨i, isPlace⟩ := Distinct.exists_idxOf?_of_mem known
    have found := (Distinct.idxOf?_eq_some_iff distinct).1 isPlace
    rw [represents.operators] at found
    exact (place found).1 (List.mem_filterMap.2 ⟨op, member, isPlace⟩)
  · intro ready
    obtain ⟨i, found⟩ := List.mem_iff_getElem?.1 ready.isOperator
    obtain ⟨other, member, isPlace⟩ := List.mem_filterMap.1 ((place found).2 ready)
    rw [Distinct.idxOf?_eq_some_iff distinct, represents.operators, found] at isPlace
    cases isPlace
    exact member

/-- No operator waits twice. -/
theorem Waiting.nodup (wellFormed : g.WellFormed) (waits : Waiting g waiting [] done) :
    waiting.flatten.Nodup := by
  have places := waits.atHand.nodup_iff.2 (List.nodup_range.filter _)
  rw [List.append_nil] at places
  have known : ∀ op ∈ waiting.flatten, op ∈ g.operators := by
    intro op member
    obtain ⟨group, isGroup, inGroup⟩ := List.mem_flatten.1 member
    exact waits.known group isGroup op inGroup
  rw [← wellFormed.select_positions known]
  exact wellFormed.nodup_select places

/-- The groups that wait are the batches of their members. -/
theorem Waiting.setOf_mem_eq (represents : g.Represents ops graph)
    (waits : Waiting g waiting [] done) (agree : Ran g done ran) (isGroup : group ∈ waiting)
    {op : Operator} (member : op ∈ group) : {x | x ∈ group} = graph.batch ops ran op := by
  ext x
  rw [DependencyGraph.batch, Set.mem_ofPred_eq, Set.mem_ofPred_eq,
    ← waits.mem_flatten_iff represents agree]
  constructor
  · intro inGroup
    refine ⟨List.mem_flatten.2 ⟨group, isGroup, inGroup⟩, ?_⟩
    by_cases same : x = op
    · exact .inl same
    · have once := (List.nodup_flatten.1 (waits.nodup represents.toWellFormed)).1 group isGroup
      exact .inr ((mergeableGroup_iff once).1 (waits.fitted.members group isGroup) x inGroup op
        member same)
  · rintro ⟨atHand, rfl | merges⟩
    · exact member
    · rw [mergeable, mergeablePair_comm] at merges
      exact waits.fitted.divided.mem_of_mergeablePair isGroup member atHand merges

theorem length_le_of_largest {groups : List (List Operator)}
    (isLargest : groups[largest groups]? = some group) {other : List Operator}
    (isGroup : other ∈ groups) : other.length ≤ group.length := by
  have all := List.findIdx_of_getElem?_eq_some isLargest
  rw [List.all_eq_true] at all
  exact of_decide_eq_true (all other isGroup)

/-- The largest group that waits is a largest batch. -/
theorem Waiting.largestBatch (represents : g.Represents ops graph)
    (waits : Waiting g waiting [] done) (agree : Ran g done ran)
    (isLargest : waiting[largest waiting]? = some group) :
    graph.LargestBatch ops ran group := by
  have isGroup := List.mem_of_getElem? isLargest
  have once := waits.nodup represents.toWellFormed
  refine ⟨waits.fitted.nonempty group isGroup, ?_,
    fun op => waits.setOf_mem_eq represents agree isGroup, fun op ready => ?_⟩
  · exact (List.nodup_flatten.1 once).1 group isGroup
  · rw [← waits.mem_flatten_iff represents agree] at ready
    obtain ⟨other, isOther, member⟩ := List.mem_flatten.1 ready
    rw [← waits.setOf_mem_eq represents agree isOther member]
    have distinct := (List.nodup_flatten.1 once).1 other isOther
    have count : {x | x ∈ other}.ncard = other.length := by
      rw [← List.coe_toFinset, Set.ncard_coe_finset, List.toFinset_card_of_nodup distinct]
    rw [count]
    exact length_le_of_largest isLargest isOther

/-! ## All steps -/

/-- Every group that is scheduled is a largest batch behind those that have run. -/
theorem schedule_largestBatch (represents : g.Represents ops graph) {steps : Nat}
    (waits : Waiting g waiting freed done) (agree : Ran g done ran) {plan : Plan}
    (success : schedule g steps waiting freed done = .ok plan) {k : Nat}
    (isGroup : plan[k]? = some group) :
    graph.LargestBatch ops (ran ++ (plan.take k).flatten) group := by
  have wellFormed := represents.toWellFormed
  induction steps generalizing waiting freed done ran plan k with
  | zero =>
    cases success
    cases isGroup
  | succ steps ih =>
    unfold schedule at success
    split at success
    case isTrue =>
      cases success
      cases isGroup
    case isFalse =>
      have fitted := waits.assign wellFormed
      generalize assignToGroups waiting (g.select freed) = waiting' at fitted success
      dsimp only at success
      split at success
      case h_1 => cases success
      case h_2 first isFirst =>
        obtain ⟨rest, isRest, success⟩ := Except.bind_eq_ok_iff.1 success
        cases success
        cases k with
        | zero =>
          cases isGroup
          simpa using fitted.largestBatch represents agree isFirst
        | succ k =>
          have agree' :
              Ran g (run g done (first.filterMap g.operators.idxOf?)).1 (ran ++ first) := by
            rw [run_fst]
            exact agree.append wellFormed first
          have later := ih (fitted.run wellFormed isFirst) agree' isRest isGroup
          simpa using later

end Greedy

namespace Planner

variable {ops : List Operator} {graph : DependencyGraph}

/-- Greedy planning runs the whole of one class at every step: all operators of it that are ready at
that moment, which are no fewer than those of any other class.  A node is a group of its own. -/
theorem greedy_runs_largest (distinct : ops.Nodup) (isOver : graph.Over ops)
    (acyclic : Acyclic graph.Edge) :
    ∃ plan, Planner.greedy.plan ops (some graph) = .ok plan ∧
      ∀ k group, plan[k]? = some group →
        graph.LargestBatch ops (plan.take k).flatten group ∧
          ∀ op ∈ group, op.action = .node → group = [op] := by
  obtain ⟨g, isGraph, represents⟩ := OperatorGraph.exists_represents distinct isOver
  obtain ⟨plan, success⟩ := exists_plan_eq_ok .greedy distinct isOver acyclic
  refine ⟨plan, success, fun k group isGroup => ?_⟩
  rw [plan_eq_schedule .greedy isGraph] at success
  have blank : Greedy.Ran g [] [] := fun _ _ _ => by simp
  have batch := Greedy.schedule_largestBatch represents (.start g) blank success isGroup
  rw [List.nil_append] at batch
  exact ⟨batch, fun op => batch.eq_singleton⟩

/-- A task that depends on another one is not in its batch. -/
theorem greedy_runs_largest_pair :
    Planner.greedy.plan [task 0, task 1] (some (pair [])) = .ok [[task 0], [task 1]] ∧
      (pair []).LargestBatch [task 0, task 1] [] [task 0] ∧
      (pair []).LargestBatch [task 0, task 1] [task 0] [task 1] := by
  have isPlan : Planner.greedy.plan [task 0, task 1] (some (pair [])) =
      .ok [[task 0], [task 1]] := by decide +kernel
  have isOver : (pair []).Over [task 0, task 1] := pair_over (by simp)
  obtain ⟨plan, success, batches⟩ := greedy_runs_largest (by decide) isOver pair_acyclic
  obtain rfl := Except.ok.inj (isPlan.symm.trans success)
  exact ⟨isPlan, (batches 0 [task 0] rfl).1, (batches 1 [task 1] rfl).1⟩

end Planner

end BatchGraph
