import BatchGraph.Plan.Check
import BatchGraph.Proofs.Plan.Feasible

/-!
The check accepts the valid plans, and names a fault of any other.

`Plan.Valid` is what a plan has to be: no empty groups, every operator in exactly one group, once,
no other operators, and dependencies in earlier groups.  `Plan.Fault` says which errors there are,
and what is wrong with the plan if one of them is reported.  Placing the operators one after the
other records the group of each (`Plan.Records`) or stops at a fault (`Plan.placeGroups_eq_error`),
and what is recorded is what the dependencies are compared with.
-/

namespace BatchGraph

namespace Plan

variable {g : OperatorGraph} {ops batch front : List Operator} {graph : DependencyGraph}
  {plan done : Plan} {op : Operator} {placed placed' : Placement} {i group : Nat} {e : Error}

/-! ## Valid plans and their faults -/

/-- No group is empty, the operators are in the plan, once each, and nothing else is, and what
depends on an operator is in a later group. -/
structure Valid (plan : Plan) (ops : List Operator) (graph : DependencyGraph) : Prop where
  nonempty : ∀ group ∈ plan, group ≠ []
  known : ∀ op ∈ plan.flatten, op ∈ ops
  once : ∀ op ∈ ops, plan.flatten.count op = 1
  ordered : ∀ a b, graph.Edge a b → plan.groupOf a < plan.groupOf b

/-- The number of the group that holds the operator, if there is one. -/
def groupOf? (plan : Plan) (op : Operator) : Option Nat := plan.findIdx? (·.contains op)

/-- What is wrong with a plan for which the error is reported. -/
inductive Fault (plan : Plan) (ops : List Operator) (graph : DependencyGraph) : Error → Prop
  | groupEmpty {group : Nat} (empty : plan[group]? = some []) :
      Fault plan ops graph (.groupEmpty group)
  | operatorUnknown {op : Operator} (member : op ∈ plan.flatten) (unknown : op ∉ ops) :
      Fault plan ops graph (.operatorUnknown op.text)
  /-- The operator is placed in a group in front of this occurrence, or in front of it in the same
  group. -/
  | scheduledTwice {op : Operator} {front rest : List Operator} {first second : Nat}
      (isGroup : plan[second]? = some (front ++ op :: rest))
      (before : groupOf? (plan.take second ++ [front]) op = some first) :
      Fault plan ops graph (.scheduledTwice op.text first second)
  | unscheduled {op : Operator} (isOperator : op ∈ ops) (missing : op ∉ plan.flatten) :
      Fault plan ops graph (.unscheduled op.text)
  | scheduledEarly {a b : Operator} {earlier later : Nat} (edge : graph.Edge a b)
      (isEarlier : plan.groupOf? a = some earlier) (isLater : plan.groupOf? b = some later)
      (early : later ≤ earlier) :
      Fault plan ops graph (.scheduledEarly b.text later a.text earlier)

theorem groupOf?_eq_none_iff : plan.groupOf? op = none ↔ op ∉ plan.flatten := by
  simp [groupOf?, List.findIdx?_eq_none_iff]

theorem groupOf?_eq_some_iff :
    plan.groupOf? op = some group ↔ op ∈ plan.flatten ∧ plan.groupOf op = group := by
  have inside : plan.findIdx (·.contains op) < plan.length ↔ op ∈ plan.flatten := by
    simp [List.findIdx_lt_length]
  rw [groupOf?, groupOf, List.findIdx?_eq_guard_findIdx_lt, Option.guard_eq_some_iff,
    decide_eq_true_eq, inside, and_comm, eq_comm]

@[simp] theorem groupOf?_append_singleton (done : Plan) (batch : List Operator) (op : Operator) :
    groupOf? (done ++ [batch]) op =
      (done.groupOf? op).or (if op ∈ batch then some done.length else none) := by
  have last : [batch].findIdx? (·.contains op) = if op ∈ batch then some 0 else none := by
    simp [List.findIdx?_cons]
  rw [groupOf?, List.findIdx?_append, last, groupOf?]
  split <;> simp

/-- What comes before an occurrence of an operator, and what behind it. -/
theorem flatten_eq_of_getElem? {rest : List Operator}
    (isGroup : plan[group]? = some (front ++ op :: rest)) :
    plan.flatten =
      (plan.take group ++ [front]).flatten ++ op :: (rest ++ (plan.drop (group + 1)).flatten) := by
  obtain ⟨bound, found⟩ := List.getElem?_eq_some_iff.1 isGroup
  conv_lhs => rw [← List.take_append_drop group plan, List.drop_eq_getElem_cons bound, found]
  simp

/-- A valid plan has no fault. -/
theorem Valid.not_fault (valid : plan.Valid ops graph) (fault : plan.Fault ops graph e) :
    False := by
  cases fault with
  | groupEmpty empty => exact valid.nonempty _ (List.mem_of_getElem? empty) rfl
  | operatorUnknown member unknown => exact unknown (valid.known _ member)
  | @scheduledTwice op _ _ first _ isGroup before =>
    have split := flatten_eq_of_getElem? isGroup
    have twice := valid.once op (valid.known op (by simp [split]))
    have again := List.count_pos_iff.2 (groupOf?_eq_some_iff.1 before).1
    rw [split, List.count_append, List.count_cons_self] at twice
    omega
  | unscheduled isOperator missing =>
    have once := valid.once _ isOperator
    rw [List.count_eq_zero_of_not_mem missing] at once
    cases once
  | scheduledEarly edge isEarlier isLater early =>
    rw [groupOf?_eq_some_iff] at isEarlier isLater
    have := valid.ordered _ _ edge
    omega

/-! ## Placing operators -/

theorem index_eq_ok_iff (distinct : g.operators.Nodup) :
    g.index op = .ok i ↔ g.operators[i]? = some op := by
  rw [← Distinct.idxOf?_eq_some_iff distinct, OperatorGraph.index]
  cases g.operators.idxOf? op <;> simp

theorem index_eq_error (failure : g.index op = .error e) :
    op ∉ g.operators ∧ e = .operatorUnknown op.text := by
  unfold OperatorGraph.index at failure
  split at failure
  case h_1 => cases failure
  case h_2 missing =>
    cases failure
    exact ⟨by simpa using missing, rfl⟩

/-- Every operator is placed in its group of the plan, if it is in one. -/
def Records (g : OperatorGraph) (placed : Placement) (plan : Plan) : Prop :=
  ∀ i op, g.operators[i]? = some op → placed.lookup i = plan.groupOf? op

theorem Records.cons (distinct : g.operators.Nodup) (records : Records g placed (done ++ [front]))
    (found : g.operators[i]? = some op) (fresh : groupOf? (done ++ [front]) op = none) :
    Records g ((i, done.length) :: placed) (done ++ [front ++ [op]]) := by
  intro j other found'
  rw [List.lookup_cons]
  rw [groupOf?_append_singleton, Option.or_eq_none_iff] at fresh
  by_cases same : j = i
  · obtain rfl : op = other := by
      rw [← same, found'] at found
      exact (Option.some.inj found).symm
    simp [same, fresh.1]
  · have differ : other ≠ op := by
      rintro rfl
      exact same (Distinct.eq_of_getElem? distinct found' found)
    rw [beq_false_of_ne same, records j other found']
    simp [differ]

/-- A batch is placed behind the operators of the same group if they are known and new. -/
theorem place_eq_ok (distinct : g.operators.Nodup) (records : Records g placed (done ++ [front]))
    (success : place g done.length batch placed = .ok placed') :
    Records g placed' (done ++ [front ++ batch]) ∧ (∀ op ∈ batch, op ∈ g.operators) ∧
      batch.Nodup ∧ ∀ op ∈ batch, op ∉ (done ++ [front]).flatten := by
  induction batch generalizing front placed with
  | nil =>
    cases success
    rw [List.append_nil]
    exact ⟨records, by simp, List.nodup_nil, by simp⟩
  | cons op batch ih =>
    obtain ⟨i, isIndex, success⟩ := Except.bind_eq_ok_iff.1 success
    rw [index_eq_ok_iff distinct] at isIndex
    split at success
    case h_1 => cases success
    case h_2 fresh =>
      rw [records i op isIndex] at fresh
      obtain ⟨recorded, known, once, apart⟩ := ih (records.cons distinct isIndex fresh) success
      rw [groupOf?_eq_none_iff] at fresh
      simp only [List.flatten_append, List.flatten_singleton, List.mem_append, List.mem_singleton,
        not_or] at apart fresh ⊢
      refine ⟨by simpa using recorded, List.forall_mem_cons.2 ⟨List.mem_of_getElem? isIndex, known⟩,
        List.nodup_cons.2 ⟨fun again => (apart op again).2.2 rfl, once⟩,
        List.forall_mem_cons.2 ⟨fresh, fun other member => ?_⟩⟩
      exact ⟨(apart other member).1, (apart other member).2.1⟩

/-- Placing stops at an operator that is unknown, or not new. -/
theorem place_eq_error (distinct : g.operators.Nodup)
    (records : Records g placed (done ++ [front]))
    (failure : place g done.length batch placed = .error e) :
    ∃ before op after, batch = before ++ op :: after ∧
      (op ∉ g.operators ∧ e = .operatorUnknown op.text ∨
        ∃ first, groupOf? (done ++ [front ++ before]) op = some first ∧
          e = .scheduledTwice op.text first done.length) := by
  induction batch generalizing front placed with
  | nil => cases failure
  | cons op batch ih =>
    rcases Except.bind_eq_error_iff.1 failure with failure | ⟨i, isIndex, failure⟩
    · exact ⟨[], op, batch, rfl, .inl (index_eq_error failure)⟩
    · rw [index_eq_ok_iff distinct] at isIndex
      split at failure
      case h_1 first again =>
        cases failure
        rw [records i op isIndex] at again
        exact ⟨[], op, batch, rfl, .inr ⟨first, by simpa using again, rfl⟩⟩
      case h_2 fresh =>
        rw [records i op isIndex] at fresh
        obtain ⟨before, other, after, rfl, fault⟩ :=
          ih (records.cons distinct isIndex fresh) failure
        exact ⟨op :: before, other, after, rfl, by simpa using fault⟩

/-- The groups of a plan are placed if none is empty and their operators are known, each in one
group. -/
theorem placeGroups_eq_ok (distinct : g.operators.Nodup) (records : Records g placed done)
    (success : placeGroups g done.length plan placed = .ok placed') :
    Records g placed' (done ++ plan) ∧ (∀ group ∈ plan, group ≠ []) ∧
      (∀ op ∈ plan.flatten, op ∈ g.operators) ∧ plan.flatten.Nodup ∧
      ∀ op ∈ plan.flatten, op ∉ done.flatten := by
  induction plan generalizing done placed with
  | nil =>
    cases success
    rw [List.append_nil]
    exact ⟨records, by simp, by simp, List.nodup_nil, by simp⟩
  | cons group plan ih =>
    unfold placeGroups at success
    split at success
    case isTrue => cases success
    case isFalse some_ =>
      obtain ⟨placed'', isPlaced, success⟩ := Except.bind_eq_ok_iff.1 success
      have opened : Records g placed (done ++ [[]]) := by simpa [Records] using records
      obtain ⟨records', known, once, apart⟩ := place_eq_ok distinct opened isPlaced
      rw [List.nil_append] at records'
      obtain ⟨recorded, nonempty, known', once', apart'⟩ :=
        ih records' (by simpa using success)
      simp only [List.flatten_append, List.flatten_singleton, List.append_nil, List.mem_append,
        not_or] at apart apart'
      refine ⟨by simpa using recorded, List.forall_mem_cons.2 ⟨by simpa using some_, nonempty⟩, ?_⟩
      rw [List.flatten_cons, List.forall_mem_append, List.forall_mem_append, List.nodup_append]
      refine ⟨⟨known, known'⟩, ⟨once, once', ?_⟩, apart, fun op member => (apart' op member).1⟩
      rintro op inGroup other later rfl
      exact (apart' op later).2 inGroup

/-- Placing the groups stops at a fault of the plan. -/
theorem placeGroups_eq_error (distinct : g.operators.Nodup) (records : Records g placed done)
    (failure : placeGroups g done.length plan placed = .error e) :
    Fault (done ++ plan) g.operators graph e := by
  induction plan generalizing done placed with
  | nil => cases failure
  | cons group plan ih =>
    have isGroup : (done ++ group :: plan)[done.length]? = some group := by simp
    unfold placeGroups at failure
    split at failure
    case isTrue empty =>
      cases failure
      rw [List.isEmpty_iff.1 empty] at isGroup ⊢
      exact .groupEmpty isGroup
    case isFalse =>
      have opened : Records g placed (done ++ [[]]) := by simpa [Records] using records
      rcases Except.bind_eq_error_iff.1 failure with failure | ⟨placed', isPlaced, failure⟩
      · obtain ⟨before, op, after, rfl, fault⟩ := place_eq_error distinct opened failure
        rcases fault with ⟨unknown, rfl⟩ | ⟨first, again, rfl⟩
        · exact .operatorUnknown (by simp) unknown
        · exact .scheduledTwice isGroup (by simpa using again)
      · obtain ⟨records', -⟩ := place_eq_ok distinct opened isPlaced
        rw [List.nil_append] at records'
        simpa using ih records' (by simpa using failure)

/-! ## Comparing with the dependencies -/

/-- An operator passes if it is placed, and behind all of its dependencies that are. -/
theorem checkOperator_eq_ok (wellFormed : g.WellFormed) (records : Records g placed plan)
    (found : g.operators[i]? = some op) (success : checkOperator g placed i op = .ok ()) :
    ∃ later, plan.groupOf? op = some later ∧ ∀ j a earlier, g.Edge j i →
      g.operators[j]? = some a → plan.groupOf? a = some earlier → earlier < later := by
  unfold checkOperator at success
  rw [records i op found] at success
  split at success
  case h_1 => cases success
  case h_2 later isLater =>
    refine ⟨later, isLater, fun j a earlier edge isA isEarlier => ?_⟩
    have step := Except.of_forM_eq_ok success j ((wellFormed.predecessor_iff j i).2 edge)
    rw [records j a isA, isEarlier, isA] at step
    dsimp only at step
    split at step
    case isTrue => cases step
    case isFalse before => exact not_le.1 before

theorem checkOperator_eq_error (represents : g.Represents ops graph)
    (records : Records g placed plan) (found : ops[i]? = some op)
    (failure : checkOperator g placed i op = .error e) : Fault plan ops graph e := by
  have wellFormed := represents.toWellFormed
  have found' : g.operators[i]? = some op := represents.operators ▸ found
  unfold checkOperator at failure
  rw [records i op found'] at failure
  split at failure
  case h_1 missing =>
    cases failure
    exact .unscheduled (List.mem_of_getElem? found) (groupOf?_eq_none_iff.1 missing)
  case h_2 later isLater =>
    obtain ⟨j, isDependency, failure⟩ := Except.exists_of_forM_eq_error failure
    rw [wellFormed.predecessor_iff, represents.edge_iff] at isDependency
    obtain ⟨a, b, isA, isB, edge⟩ := isDependency
    obtain rfl := Option.some.inj (found.symm.trans isB)
    rw [← represents.operators] at isA
    rw [records j a isA, isA] at failure
    split at failure
    case h_1 earlier dependency isEarlier isA' =>
      cases isA'
      split at failure
      case isTrue early =>
        cases failure
        exact .scheduledEarly edge isEarlier isLater early
      case isFalse => cases failure
    case h_2 => cases failure

/-! ## The check -/

/-- A plan that passes is valid. -/
theorem valid_of_check_eq_ok (distinct : ops.Nodup) (isOver : graph.Over ops)
    (success : plan.check ops (some graph) = .ok ()) : plan.Valid ops graph := by
  obtain ⟨g, isGraph, represents⟩ := OperatorGraph.exists_represents distinct isOver
  have wellFormed := represents.toWellFormed
  rw [check, isGraph, Except.ok_bind] at success
  obtain ⟨placed, isPlaced, success⟩ := Except.bind_eq_ok_iff.1 success
  have blank : Records g [] [] := fun _ _ _ => rfl
  obtain ⟨records, nonempty, known, once, -⟩ := placeGroups_eq_ok wellFormed.distinct blank isPlaced
  rw [List.nil_append] at records
  have passed {op : Operator} {i : Nat} (found : ops[i]? = some op) :
      ∃ later, plan.groupOf? op = some later ∧ ∀ j a earlier, g.Edge j i →
        g.operators[j]? = some a → plan.groupOf? a = some earlier → earlier < later := by
    rw [← represents.operators] at found
    refine checkOperator_eq_ok wellFormed records found ?_
    exact Except.of_forM_eq_ok success (op, i) (List.mem_zipIdx_iff_getElem?.2 found)
  have scheduled {op : Operator} (member : op ∈ ops) :
      plan.groupOf? op = some (plan.groupOf op) := by
    obtain ⟨i, found⟩ := List.mem_iff_getElem?.1 member
    obtain ⟨later, isLater, -⟩ := passed found
    rw [isLater, (groupOf?_eq_some_iff.1 isLater).2]
  refine ⟨nonempty, represents.operators ▸ known, fun op member => ?_, fun a b edge => ?_⟩
  · exact List.count_eq_one_of_mem once (groupOf?_eq_some_iff.1 (scheduled member)).1
  · have isA := represents.isOver.source_mem edge
    have isB := represents.isOver.targets a b edge
    obtain ⟨i, atA⟩ := List.mem_iff_getElem?.1 isA
    obtain ⟨j, atB⟩ := List.mem_iff_getElem?.1 isB
    obtain ⟨later, isLater, behind⟩ := passed atB
    rw [scheduled isB] at isLater
    cases isLater
    refine behind i a _ ((represents.edge_iff i j).2 ⟨a, b, atA, atB, edge⟩) ?_ (scheduled isA)
    rwa [represents.operators]

/-- A plan that does not pass has the fault that is reported. -/
theorem fault_of_check_eq_error (distinct : ops.Nodup) (isOver : graph.Over ops)
    (failure : plan.check ops (some graph) = .error e) : plan.Fault ops graph e := by
  obtain ⟨g, isGraph, represents⟩ := OperatorGraph.exists_represents distinct isOver
  have wellFormed := represents.toWellFormed
  have blank : Records g [] [] := fun _ _ _ => rfl
  rw [check, isGraph, Except.ok_bind] at failure
  rcases Except.bind_eq_error_iff.1 failure with failure | ⟨placed, isPlaced, failure⟩
  · have fault : Fault ([] ++ plan) g.operators graph e :=
      placeGroups_eq_error wellFormed.distinct blank failure
    rwa [List.nil_append, represents.operators] at fault
  · obtain ⟨records, -⟩ := placeGroups_eq_ok wellFormed.distinct blank isPlaced
    obtain ⟨⟨op, i⟩, member, failure⟩ := Except.exists_of_forM_eq_error failure
    have found := List.mem_zipIdx_iff_getElem?.1 member
    rw [represents.operators] at found
    exact checkOperator_eq_error represents records found failure

theorem Valid.check_eq_ok (distinct : ops.Nodup) (isOver : graph.Over ops)
    (valid : plan.Valid ops graph) : plan.check ops (some graph) = .ok () := by
  cases result : plan.check ops (some graph) with
  | ok => rfl
  | error e => exact (valid.not_fault (fault_of_check_eq_error distinct isOver result)).elim

/-- A plan that meets its contract and has no empty groups is accepted. -/
theorem check_eq_ok (distinct : ops.Nodup) (isOver : graph.Over ops)
    (feasible : plan.Feasible ops graph) (nonempty : ∀ group ∈ plan, group ≠ []) :
    plan.check ops (some graph) = .ok () := by
  refine Valid.check_eq_ok distinct isOver {
    nonempty := nonempty
    known := fun op => feasible.complete.mem_iff.1
    once := fun op member => ?_
    ordered := feasible.ordered }
  rw [feasible.complete.count_eq, List.count_eq_one_of_mem distinct member]

end Plan

end BatchGraph
