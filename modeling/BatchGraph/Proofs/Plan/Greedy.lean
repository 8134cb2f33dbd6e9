import Mathlib.Data.Finset.Max
import BatchGraph.Plan.Greedy
import BatchGraph.Proofs.Plan.Feasible

/-!
Greedy planning has every free operator at hand.

The invariant of the steps is `Greedy.Waiting`: the waiting groups and the operators freed last are
exactly the operators that can run, that is, those that have not run but whose dependencies all
have.  Running a batch frees exactly what it was the last dependency of (`Greedy.run_spec`), so
the invariant is kept, and as long as an acyclic graph is not finished some operator can run.
-/

namespace BatchGraph

namespace Greedy

variable {g : OperatorGraph}

/-! ## Running a batch -/

theorem isFree_iff (wellFormed : g.WellFormed) {done : List Nat} {j : Nat} :
    isFree g done j = true ↔ ∀ i, g.Edge i j → i ∈ done := by
  simp [isFree, List.all_eq_true, wellFormed.predecessor_iff]

theorem isFree_mono (wellFormed : g.WellFormed) {done more : List Nat} (subset : done ⊆ more)
    {j : Nat} (free : isFree g done j = true) : isFree g more j = true := by
  rw [isFree_iff wellFormed] at free ⊢
  exact fun i edge => subset (free i edge)

theorem run_fst (g : OperatorGraph) (done batch : List Nat) :
    (run g done batch).1 = batch.reverse ++ done := by
  induction batch generalizing done with
  | nil => rfl
  | cons i batch ih => simp [run, ih]

/-- A batch frees what is free behind it and was not free in front of it, each of them once. -/
theorem run_spec (wellFormed : g.WellFormed) (done : List Nat) {batch : List Nat}
    (distinct : batch.Nodup) (apart : ∀ i ∈ batch, i ∉ done) :
    (run g done batch).2.Nodup ∧ ∀ j, j ∈ (run g done batch).2 ↔
      isFree g (batch.reverse ++ done) j = true ∧ isFree g done j = false := by
  induction batch generalizing done with
  | nil => simp [run]
  | cons i batch ih =>
    rw [List.nodup_cons] at distinct
    rw [List.forall_mem_cons] at apart
    obtain ⟨once, later⟩ := ih (i :: done) distinct.2 fun j member => by
      have differ : j ≠ i := fun same => distinct.1 (same ▸ member)
      simp [differ, apart.2 j member]
    have now (j : Nat) : j ∈ (g.successorsOf i).filter (isFree g (i :: done)) ↔
        isFree g (i :: done) j = true ∧ isFree g done j = false := by
      rw [List.mem_filter, and_comm, and_congr_right_iff]
      intro free
      rw [Bool.eq_false_iff, Ne, isFree_iff wellFormed]
      rw [isFree_iff wellFormed] at free
      constructor
      · intro edge all
        exact apart.1 (all i edge)
      · intro blocked
        push Not at blocked
        obtain ⟨k, edge, left⟩ := blocked
        rcases List.mem_cons.1 (free k edge) with rfl | ran
        · exact edge
        · exact absurd ran left
    have whole : (i :: batch).reverse ++ done = batch.reverse ++ i :: done := by simp
    have grows (j : Nat) (free : isFree g (i :: done) j = true) :
        isFree g (batch.reverse ++ i :: done) j = true :=
      isFree_mono wellFormed (List.subset_append_right _ _) free
    have monotone (j : Nat) (free : isFree g done j = true) : isFree g (i :: done) j = true :=
      isFree_mono wellFormed (List.subset_cons_self i done) free
    simp only [run]
    refine ⟨?_, fun j => ?_⟩
    · refine List.nodup_append.2 ⟨(wellFormed.successors_nodup i).filter _, once, ?_⟩
      intro j isNow k isLater same
      have := ((now j).1 isNow).1
      rw [same, ((later k).1 isLater).2] at this
      cases this
    · rw [List.mem_append, now, later, whole]
      have first := monotone j
      have second := grows j
      cases before : isFree g done j <;> cases between : isFree g (i :: done) j <;>
        simp_all

/-! ## Operators at hand -/

theorem largest_lt {groups : List (List Operator)} (nonempty : groups ≠ []) :
    largest groups < groups.length := by
  have some_ : groups.toFinset.Nonempty := by simpa [List.toFinset_nonempty_iff] using nonempty
  obtain ⟨group, isGroup, longest⟩ := groups.toFinset.exists_max_image List.length some_
  refine List.findIdx_lt_length_of_exists ⟨group, List.mem_toFinset.1 isGroup, ?_⟩
  simpa using fun other isOther => longest other (List.mem_toFinset.2 isOther)

theorem eq_nil_of_getElem?_largest {groups : List (List Operator)}
    (none : groups[largest groups]? = none) : groups = [] := by
  by_contra nonempty
  rw [List.getElem?_eq_none_iff] at none
  exact Nat.not_le.2 (largest_lt nonempty) none

/-- The operators that have not run but whose dependencies all have. -/
def runnable (g : OperatorGraph) (done : List Nat) : List Nat :=
  (List.range g.size).filter fun i => !done.contains i && isFree g done i

theorem mem_runnable {done : List Nat} {i : Nat} :
    i ∈ runnable g done ↔ i < g.size ∧ i ∉ done ∧ isFree g done i = true := by
  simp [runnable]

/-- Operators run behind their dependencies, and those that can run are waiting or were freed
last. -/
structure Waiting (g : OperatorGraph) (waiting : List (List Operator)) (freed done : List Nat) :
    Prop where
  fitted : Fitted waiting
  known : ∀ group ∈ waiting, ∀ op ∈ group, op ∈ g.operators
  once : done.Nodup
  inside : ∀ i ∈ done, i < g.size
  closed : ∀ i ∈ done, isFree g done i = true
  atHand : (waiting.flatten.filterMap g.operators.idxOf? ++ freed).Perm (runnable g done)

namespace Waiting

variable {waiting : List (List Operator)} {freed done : List Nat}

theorem start (g : OperatorGraph) :
    Waiting g [] ((List.range g.size).filter (isFree g [])) [] where
  fitted := .nil
  known := by simp
  once := List.nodup_nil
  inside := by simp
  closed := by simp
  atHand := by simp [runnable]

/-- Fitting the freed operators into groups, all that can run are in the groups. -/
theorem assign (wellFormed : g.WellFormed) (waits : Waiting g waiting freed done) :
    Waiting g (assignToGroups waiting (g.select freed)) [] done where
  fitted := waits.fitted.assign _
  known := by
    intro group isGroup op inGroup
    have atHand := (assignToGroups_perm waiting (g.select freed)).mem_iff.1
      (List.mem_flatten.2 ⟨group, isGroup, inGroup⟩)
    rcases List.mem_append.1 atHand with old | new
    · obtain ⟨group', isGroup', inGroup'⟩ := List.mem_flatten.1 old
      exact waits.known group' isGroup' op inGroup'
    · obtain ⟨i, -, found⟩ := List.mem_filterMap.1 new
      exact List.mem_of_getElem? found
  once := waits.once
  inside := waits.inside
  closed := waits.closed
  atHand := by
    have inside : ∀ i ∈ freed, i < g.size := fun i member =>
      (mem_runnable.1 (waits.atHand.mem_iff.1 (List.mem_append_right _ member))).1
    have places := (assignToGroups_perm waiting (g.select freed)).filterMap g.operators.idxOf?
    rw [List.filterMap_append, wellFormed.positions_select inside] at places
    rw [List.append_nil]
    exact places.trans waits.atHand

/-- The positions of a waiting group can run. -/
theorem batch (wellFormed : g.WellFormed) (waits : Waiting g waiting [] done)
    {group : List Operator} (isGroup : group ∈ waiting) :
    g.select (group.filterMap g.operators.idxOf?) = group ∧
      (group.filterMap g.operators.idxOf?).Nodup ∧
      ∀ i ∈ group.filterMap g.operators.idxOf?, i ∈ runnable g done := by
  refine ⟨wellFormed.select_positions (waits.known group isGroup), ?_, fun i inBatch => ?_⟩
  · have whole := waits.atHand.nodup_iff.2 (List.nodup_range.filter _)
    rw [List.append_nil] at whole
    exact whole.sublist ((List.sublist_flatten_of_mem isGroup).filterMap _)
  · rw [← waits.atHand.mem_iff, List.append_nil]
    obtain ⟨op, inGroup, isPlace⟩ := List.mem_filterMap.1 inBatch
    exact List.mem_filterMap.2 ⟨op, List.mem_flatten.2 ⟨group, isGroup, inGroup⟩, isPlace⟩

/-- After a batch, what could run and was not in it can run, and what the batch has freed. -/
theorem mem_runnable_append (wellFormed : g.WellFormed)
    (closed : ∀ i ∈ done, isFree g done i = true) {batch : List Nat}
    (atHand : ∀ i ∈ batch, i ∈ runnable g done) {i : Nat} :
    i ∈ runnable g (batch.reverse ++ done) ↔ (i ∈ runnable g done ∧ i ∉ batch) ∨
      isFree g (batch.reverse ++ done) i = true ∧ isFree g done i = false := by
  rw [mem_runnable, List.mem_append, List.mem_reverse, not_or]
  constructor
  · intro holds
    rcases holds with ⟨inside, ⟨apart, left⟩, free⟩
    cases before : isFree g done i with
    | true => exact .inl ⟨mem_runnable.2 ⟨inside, left, before⟩, apart⟩
    | false => exact .inr ⟨free, rfl⟩
  · intro holds
    rcases holds with ⟨old, apart⟩ | ⟨free, blocked⟩
    · obtain ⟨inside, left, free⟩ := mem_runnable.1 old
      exact ⟨inside, ⟨apart, left⟩, isFree_mono wellFormed (List.subset_append_right _ _) free⟩
    · refine ⟨?_, ⟨fun again => ?_, fun again => ?_⟩, free⟩
      · rw [Bool.eq_false_iff, Ne, isFree_iff wellFormed] at blocked
        push Not at blocked
        obtain ⟨k, edge, -⟩ := blocked
        exact (wellFormed.inside k i edge).2
      · rw [(mem_runnable.1 (atHand i again)).2.2] at blocked
        cases blocked
      · rw [closed i again] at blocked
        cases blocked

/-- Running one of the groups, the operators that it frees join those that wait. -/
theorem run (wellFormed : g.WellFormed) (waits : Waiting g waiting [] done) {chosen : Nat}
    {group : List Operator} (isGroup : waiting[chosen]? = some group) :
    Waiting g (waiting.eraseIdx chosen)
      (Greedy.run g done (group.filterMap g.operators.idxOf?)).2
      (Greedy.run g done (group.filterMap g.operators.idxOf?)).1 := by
  obtain ⟨bound, isChosen⟩ := List.getElem?_eq_some_iff.1 isGroup
  have parts : (group.filterMap g.operators.idxOf? ++
      (waiting.eraseIdx chosen).flatten.filterMap g.operators.idxOf?).Perm (runnable g done) := by
    rw [← List.filterMap_append]
    have whole : (group ++ (waiting.eraseIdx chosen).flatten).Perm waiting.flatten := by
      rw [← isChosen]
      exact (List.getElem_cons_eraseIdx_perm bound).flatten
    simpa using (whole.filterMap g.operators.idxOf?).trans (by simpa using waits.atHand)
  obtain ⟨-, distinct, atHand⟩ := waits.batch wellFormed (List.mem_of_getElem? isGroup)
  generalize group.filterMap g.operators.idxOf? = batch at parts distinct atHand ⊢
  have apart := (List.nodup_append.1 (parts.nodup_iff.2 (List.nodup_range.filter _))).2
  obtain ⟨once, freed⟩ := run_spec wellFormed done distinct fun i member =>
    (mem_runnable.1 (atHand i member)).2.1
  have kept {i : Nat} : i ∈ (waiting.eraseIdx chosen).flatten.filterMap g.operators.idxOf? ↔
      i ∈ runnable g done ∧ i ∉ batch := by
    rw [← parts.mem_iff, List.mem_append]
    constructor
    · intro isKept
      exact ⟨.inr isKept, fun again => apart.2 i again i isKept rfl⟩
    · intro holds
      exact holds.1.resolve_left holds.2
  have rest (other : List Operator) (isOther : other ∈ waiting.eraseIdx chosen) : other ∈ waiting :=
    List.mem_of_mem_eraseIdx isOther
  rw [run_fst]
  refine {
    fitted := {
      nonempty := fun other isOther => waits.fitted.nonempty other (rest other isOther)
      members := fun other isOther => waits.fitted.members other (rest other isOther)
      separate := waits.fitted.separate.sublist (List.eraseIdx_sublist _ _) }
    known := fun other isOther => waits.known other (rest other isOther)
    once := ?_
    inside := fun i member => ?_
    closed := fun i member => ?_
    atHand := ?_ }
  · refine List.nodup_append.2 ⟨List.nodup_reverse.2 distinct, waits.once, ?_⟩
    intro i new j old same
    exact (mem_runnable.1 (atHand i (List.mem_reverse.1 new))).2.1 (same ▸ old)
  · rcases List.mem_append.1 member with new | old
    · exact (mem_runnable.1 (atHand i (List.mem_reverse.1 new))).1
    · exact waits.inside i old
  · apply isFree_mono wellFormed (List.subset_append_right _ _)
    rcases List.mem_append.1 member with new | old
    · exact (mem_runnable.1 (atHand i (List.mem_reverse.1 new))).2.2
    · exact waits.closed i old
  · refine (List.perm_ext_iff_of_nodup (List.nodup_append.2 ⟨apart.1, once, ?_⟩)
      (List.nodup_range.filter _)).2 fun i => ?_
    · intro i old j new same
      have blocked := ((freed j).1 new).2
      rw [← same, (mem_runnable.1 (kept.1 old).1).2.2] at blocked
      cases blocked
    · rw [List.mem_append, kept, freed]
      exact (mem_runnable_append wellFormed waits.closed atHand).symm

end Waiting

/-! ## The schedule -/

variable {waiting : List (List Operator)} {freed done : List Nat}

/-- The positions that have not run. -/
def remaining (g : OperatorGraph) (done : List Nat) : List Nat :=
  (List.range g.size).filter fun i => !done.contains i

theorem mem_remaining {i : Nat} : i ∈ remaining g done ↔ i < g.size ∧ i ∉ done := by
  simp [remaining]

theorem Waiting.length_le (waits : Waiting g waiting freed done) : done.length ≤ g.size :=
  Distinct.length_le_of_forall_lt waits.once waits.inside

/-- The steps are over once there are as many operators that have run as there are operators. -/
theorem Waiting.remaining_eq_nil_iff (waits : Waiting g waiting freed done) :
    remaining g done = [] ↔ done.length = g.size := by
  have count := waits.length_le
  rw [← List.length_eq_zero_iff, remaining,
    Distinct.length_filter_not_contains waits.once waits.inside]
  omega

/-- If no operator is at hand, those that remain wait for each other. -/
theorem Waiting.blocked (wellFormed : g.WellFormed) (waits : Waiting g [] [] done) :
    ∀ j < g.size, j ∉ done → ∃ i, i ∉ done ∧ g.Edge i j := by
  intro j inside left
  by_contra none
  push Not at none
  have free : isFree g done j = true := by
    rw [isFree_iff wellFormed]
    intro i edge
    by_contra waiting
    exact none i waiting edge
  have known := waits.atHand.mem_iff.2 (mem_runnable.2 ⟨inside, left, free⟩)
  simp at known

theorem Waiting.not_acyclic (wellFormed : g.WellFormed) (waits : Waiting g [] [] done)
    (left : done.length ≠ g.size) : ¬ Acyclic g.Edge := by
  intro acyclic
  obtain ⟨j, isLeft, source⟩ := acyclic.exists_source (mt waits.remaining_eq_nil_iff.1 left)
  obtain ⟨inside, notDone⟩ := mem_remaining.1 isLeft
  obtain ⟨i, waiting, edge⟩ := waits.blocked wellFormed j inside notDone
  exact source i (mem_remaining.2 ⟨(wellFormed.inside i j edge).1, waiting⟩) edge

/-- Every step runs one of the largest groups of operators at hand, until none remains or none can
run. -/
theorem schedule_planned (wellFormed : g.WellFormed) {steps : Nat}
    (waits : Waiting g waiting freed done) (enough : g.size ≤ steps + done.length) :
    g.Planned (remaining g done) (schedule g steps waiting freed done) := by
  induction steps generalizing waiting freed done with
  | zero =>
    have count := waits.length_le
    rw [waits.remaining_eq_nil_iff.2 (by omega)]
    exact .nil g
  | succ steps ih =>
    unfold schedule
    split
    case isTrue all =>
      rw [waits.remaining_eq_nil_iff.2 all]
      exact .nil g
    case isFalse left =>
      have fitted := waits.assign wellFormed
      generalize assignToGroups waiting (g.select freed) = waiting' at fitted ⊢
      dsimp only
      split
      case h_1 none =>
        obtain rfl := eq_nil_of_getElem?_largest none
        exact .stuck (fitted.not_acyclic wellFormed left) _
      case h_2 group isGroup =>
        have member := List.mem_of_getElem? isGroup
        have next := ih (fitted.run wellFormed isGroup)
        obtain ⟨isBatch, distinct, atHand⟩ := fitted.batch wellFormed member
        have members := fitted.fitted.members group member
        have nonempty := fitted.fitted.nonempty group member
        generalize group.filterMap g.operators.idxOf? = batch at *
        subst isBatch
        have some_ : batch ≠ [] := by
          intro empty
          rw [empty] at nonempty
          exact nonempty rfl
        refine .cons some_ distinct (List.nodup_range.filter _) ?_ ?_ members ?_
        · intro i inBatch
          obtain ⟨inside, waits, -⟩ := mem_runnable.1 (atHand i inBatch)
          exact mem_remaining.2 ⟨inside, waits⟩
        · intro i inBatch j remains edge
          obtain ⟨-, -, free⟩ := mem_runnable.1 (atHand i inBatch)
          exact (mem_remaining.1 remains).2 ((isFree_iff wellFormed).1 free j edge)
        · have behind : (remaining g done).filter (fun i => !batch.contains i) =
              remaining g (run g done batch).1 := by
            rw [run_fst, remaining, remaining, List.filter_filter]
            exact List.filter_congr fun i _ => by simp
          rw [behind]
          apply next
          have positive := List.length_pos_iff.2 some_
          rw [run_fst, List.length_append, List.length_reverse]
          omega

end Greedy

theorem greedyPlan_planned {g : OperatorGraph} (wellFormed : g.WellFormed) :
    g.Planned (List.range g.size) (greedyPlan g) := by
  have all : Greedy.remaining g [] = List.range g.size := by simp [Greedy.remaining]
  rw [← all]
  exact Greedy.schedule_planned wellFormed (.start g) (by simp)

end BatchGraph
