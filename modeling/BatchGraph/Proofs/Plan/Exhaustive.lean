import BatchGraph.Plan.Exhaustive
import BatchGraph.Proofs.Plan.Feasible

/-!
Exhaustive planning finds a plan with the fewest groups.

Only the largest groups of free operators are tried as the next one.  No plan is missed by that:
the first group of any plan holds free operators that are mergeable, hence is part of a candidate
(`Exhaustive.exists_candidate`), and running the whole candidate leaves fewer operators for the
other groups of that plan.  By induction on the depth, `Exhaustive.shortest` is an
`Exhaustive.Optimum`, and by `Exhaustive.search_recalls` so is what is found with a memory.
-/

namespace BatchGraph

namespace Exhaustive

variable {g : OperatorGraph} {remaining : List Nat}

/-! ## Candidates -/

theorem mem_free (wellFormed : g.WellFormed) {i : Nat} :
    i ∈ free g remaining ↔ i ∈ remaining ∧ ∀ j ∈ remaining, ¬ g.Edge j i := by
  rw [free, List.mem_filter, and_congr_right_iff]
  intro _
  simp only [List.all_eq_true, wellFormed.predecessor_iff, Bool.not_eq_true',
    List.contains_eq_mem, decide_eq_false_iff_not]
  exact ⟨fun none j isLeft edge => none j edge isLeft, fun none j edge isLeft => none j isLeft edge⟩

/-- A candidate is a batch of free operators. -/
structure Candidate (g : OperatorGraph) (remaining group : List Nat) : Prop where
  nonempty : group ≠ []
  distinct : group.Nodup
  known : ∀ i ∈ group, i ∈ remaining
  free : ∀ i ∈ group, ∀ j ∈ remaining, ¬ g.Edge j i
  batched : MergeableGroup (g.select group)

section Candidates

variable (wellFormed : g.WellFormed) (inside : ∀ i ∈ remaining, i < g.size)

include wellFormed inside

/-- The positions of the candidates are those of the free operators. -/
theorem candidates_perm : (candidates g remaining).flatten.Perm (free g remaining) := by
  have places := (assignToGroups_perm [] (g.select (free g remaining))).filterMap
    g.operators.idxOf?
  rw [List.flatten_nil, List.nil_append, wellFormed.positions_select fun i isFree =>
    inside i ((mem_free wellFormed).1 isFree).1, List.filterMap_flatten] at places
  exact places

theorem candidate_of_mem (distinct : remaining.Nodup) {group : List Nat}
    (member : group ∈ candidates g remaining) : Candidate g remaining group := by
  have perm := candidates_perm wellFormed inside
  have isFree (i : Nat) (inGroup : i ∈ group) : i ∈ free g remaining :=
    perm.mem_iff.1 (List.mem_flatten.2 ⟨group, member, inGroup⟩)
  have once := (List.nodup_flatten.1 (perm.nodup_iff.2 (distinct.filter _))).1 group member
  obtain ⟨operators, isGroup, rfl⟩ := List.mem_map.1 member
  have fitted := Fitted.nil.assign (g.select (free g remaining))
  have same : g.select (operators.filterMap g.operators.idxOf?) = operators := by
    apply wellFormed.select_positions
    intro op inGroup
    have atHand := (assignToGroups_perm [] (g.select (free g remaining))).mem_iff.1
      (List.mem_flatten.2 ⟨operators, isGroup, inGroup⟩)
    obtain ⟨i, -, found⟩ := List.mem_filterMap.1 atHand
    exact List.mem_of_getElem? found
  refine ⟨fun empty => ?_, once, fun i inGroup => ?_, fun i inGroup => ?_, ?_⟩
  · rw [empty] at same
    exact fitted.nonempty operators isGroup same.symm
  · exact ((mem_free wellFormed).1 (isFree i inGroup)).1
  · exact ((mem_free wellFormed).1 (isFree i inGroup)).2
  · rw [same]
    exact fitted.members operators isGroup

/-- Free operators that are mergeable are part of one candidate. -/
theorem exists_candidate {batch : List Nat} (nonempty : batch ≠ [])
    (known : ∀ i ∈ batch, i ∈ remaining) (isFree : ∀ i ∈ batch, ∀ j ∈ remaining, ¬ g.Edge j i)
    (batched : MergeableGroup (g.select batch)) :
    ∃ group ∈ candidates g remaining, ∀ i ∈ batch, i ∈ group := by
  have fitted := Fitted.nil.assign (g.select (free g remaining))
  have atHand (op : Operator) (member : op ∈ g.select batch) :
      op ∈ (assignToGroups [] (g.select (free g remaining))).flatten := by
    obtain ⟨i, inBatch, found⟩ := List.mem_filterMap.1 member
    rw [(assignToGroups_perm [] _).mem_iff, List.flatten_nil, List.nil_append]
    exact (wellFormed.mem_select_iff found).2
      ((mem_free wellFormed).2 ⟨known i inBatch, isFree i inBatch⟩)
  have found (i : Nat) (inBatch : i ∈ batch) : ∃ op, g.operators[i]? = some op :=
    ⟨_, List.getElem?_eq_getElem (inside i (known i inBatch))⟩
  obtain ⟨first, rest, rfl⟩ := List.exists_cons_of_ne_nil nonempty
  obtain ⟨leader, atFirst⟩ := found first List.mem_cons_self
  have split : g.select (first :: rest) = leader :: g.select rest := by
    rw [OperatorGraph.select, List.filterMap_cons, atFirst]
    rfl
  rw [split] at batched atHand
  obtain ⟨group, isGroup, leads⟩ := List.mem_flatten.1 (atHand leader List.mem_cons_self)
  refine ⟨_, List.mem_map_of_mem isGroup, fun i inBatch => ?_⟩
  obtain ⟨op, atPlace⟩ := found i inBatch
  have member : op ∈ leader :: g.select rest :=
    split ▸ (wellFormed.mem_select_iff atPlace).2 inBatch
  refine List.mem_filterMap.2
    ⟨op, ?_, (Distinct.idxOf?_eq_some_iff wellFormed.distinct).2 atPlace⟩
  rcases List.mem_cons.1 member with rfl | later
  · exact leads
  · exact fitted.divided.mem_of_mergeablePair isGroup leads (atHand op member)
      (List.rel_of_pairwise_cons batched later)

/-- There are no candidates only if no operator is free. -/
theorem candidates_ne_nil (acyclic : Acyclic g.Edge) (some_ : remaining ≠ []) :
    candidates g remaining ≠ [] := by
  intro none
  obtain ⟨i, isLeft, source⟩ := acyclic.exists_source some_
  have isFree := (mem_free wellFormed).2 ⟨isLeft, source⟩
  rw [← (candidates_perm wellFormed inside).mem_iff, none] at isFree
  simp at isFree

end Candidates

/-! ## The shorter one -/

/-- The plans that start with one of the groups each. -/
def extensions (f : List Nat → Except Error (List (List Nat))) (groups : List (List Nat)) :
    Except Error (List (List (List Nat))) :=
  groups.mapM fun group => (f group).map (group :: ·)

theorem foldlM_shorter (f : List Nat → Except Error (List (List Nat))) (groups : List (List Nat))
    (best : List (List Nat)) :
    (groups.foldlM (fun best group => do
      let rest ← f group
      return shorter best (group :: rest)) best) =
      (extensions f groups).map fun plans => plans.foldl shorter best := by
  induction groups generalizing best with
  | nil => rfl
  | cons group groups ih =>
    rw [List.foldlM_cons, extensions, List.mapM_cons]
    cases f group with
    | error reason => rfl
    | ok rest =>
      rw [Except.ok_bind]
      apply (ih _).trans
      rw [extensions]
      cases groups.mapM fun group => (f group).map (group :: ·) <;> rfl

/-- Of plans that are not empty, the shortest is kept. -/
theorem foldl_shorter_spec {plans : List (List (List Nat))} (best : List (List Nat))
    (nonempty : ∀ plan ∈ best :: plans, plan ≠ []) :
    plans.foldl shorter best ∈ best :: plans ∧
      ∀ plan ∈ best :: plans, (plans.foldl shorter best).length ≤ plan.length := by
  induction plans generalizing best with
  | nil => simp
  | cons next plans ih =>
    have isPlan : best.isEmpty = false := by simpa using nonempty best List.mem_cons_self
    have kept : shorter best next = best ∧ best.length ≤ next.length ∨
        shorter best next = next ∧ next.length < best.length := by
      simp only [shorter, isPlan, Bool.false_or, decide_eq_true_eq]
      split
      · exact .inr ⟨rfl, ‹_›⟩
      · exact .inl ⟨rfl, Nat.le_of_not_lt ‹_›⟩
    obtain ⟨same, bound⟩ | ⟨same, bound⟩ := kept
    · have rest := ih best fun plan member => nonempty plan (by grind)
      rw [List.foldl_cons, same]
      grind
    · have rest := ih next fun plan member => nonempty plan (by grind)
      rw [List.foldl_cons, same]
      grind

/-! ## Shortest plans -/

/-- Batches that run what remains, none of them empty, and as few of them as possible. -/
structure Optimum (g : OperatorGraph) (remaining : List Nat) (groups : List (List Nat)) : Prop where
  runs : g.Runs remaining groups
  nonempty : ∀ group ∈ groups, group ≠ []
  least : ∀ groups', g.Runs remaining groups' → groups.length ≤ groups'.length

/-- What a search for the shortest plan comes to. -/
structure Solved (g : OperatorGraph) (remaining : List Nat)
    (result : Except Error (List (List Nat))) : Prop where
  optimum : ∀ groups, result = .ok groups → Optimum g remaining groups
  succeeds : Acyclic g.Edge → ∃ groups, result = .ok groups
  fails : ∀ error, result = .error error → ∃ stuck, error = .cycle stuck

theorem Optimum.nil (g : OperatorGraph) : Optimum g [] [] where
  runs := .nil g
  nonempty := by simp
  least := by simp

theorem Optimum.singleton (wellFormed : g.WellFormed) (i : Nat) : Optimum g [i] [[i]] where
  runs := {
    complete := by simp
    ordered := by simp
    unconnected := by simpa using wellFormed.loopless i
    batched := by simpa using g.mergeableGroup_select_singleton i }
  nonempty := by simp
  least groups' runs := by
    cases groups' with
    | nil => simpa using runs.complete.length_eq
    | cons group groups' => simp

theorem Solved.of_optimum {groups : List (List Nat)} (optimum : Optimum g remaining groups) :
    Solved g remaining (.ok groups) where
  optimum groups' same := by
    cases same
    exact optimum
  succeeds _ := ⟨groups, rfl⟩
  fails error failure := by cases failure

theorem mem_without {group : List Nat} {i : Nat} :
    i ∈ without remaining group ↔ i ∈ remaining ∧ i ∉ group := by
  simp [without]

/-- Less remains behind a batch. -/
theorem Candidate.length_without_lt {group : List Nat} (candidate : Candidate g remaining group) :
    (without remaining group).length < remaining.length := by
  obtain ⟨i, inGroup⟩ := List.exists_mem_of_ne_nil group candidate.nonempty
  refine List.length_filter_lt_length_iff_exists.2 ⟨i, candidate.known i inGroup, ?_⟩
  simpa using inGroup

section Shortest

variable (wellFormed : g.WellFormed) (inside : ∀ i ∈ remaining, i < g.size)
  (distinct : remaining.Nodup)

include wellFormed inside distinct

/-- Any plan for what remains is at least as long as the best one that starts with a candidate. -/
theorem exists_candidate_length_le (some_ : remaining ≠ []) {groups : List (List Nat)}
    (runs : g.Runs remaining groups) :
    ∃ group ∈ candidates g remaining, ∃ rest, g.Runs (without remaining group) rest ∧
      rest.length + 1 ≤ groups.length := by
  induction groups with
  | nil => exact absurd runs.complete.symm.eq_nil some_
  | cons first groups ih =>
    by_cases empty : first = []
    · -- An empty group in front can be left out.
      subst empty
      have rest := runs.tail distinct
      simp only [List.contains_nil, Bool.not_false, List.filter_true] at rest
      obtain ⟨group, isGroup, rest', runs', shorter⟩ := ih rest
      exact ⟨group, isGroup, rest', runs', Nat.le_succ_of_le shorter⟩
    · obtain ⟨group, isGroup, covers⟩ := exists_candidate wellFormed inside empty
        (fun i member => runs.mem_of_mem_head member)
        (fun i member j isLeft => runs.free_of_mem_head member isLeft)
        (runs.batched first List.mem_cons_self)
      obtain ⟨rest, runs', shorter⟩ := (runs.tail distinct).exists_of_subset (distinct.filter _)
        (distinct.filter fun i => !group.contains i) fun i member => by
          rw [List.mem_filter] at member ⊢
          refine ⟨member.1, ?_⟩
          have apart : i ∉ group := by simpa using member.2
          simpa using mt (covers i) apart
      exact ⟨group, isGroup, rest, runs', Nat.succ_le_succ shorter⟩

/-- The shortest of the plans that start with a candidate and go on with a shortest plan is a
shortest plan. -/
theorem Optimum.of_extensions (some_ : remaining ≠ []) (present : candidates g remaining ≠ [])
    {f : List Nat → Except Error (List (List Nat))}
    (solved : ∀ group ∈ candidates g remaining, Solved g (without remaining group) (f group))
    {plans : List (List (List Nat))} (success : extensions f (candidates g remaining) = .ok plans) :
    Optimum g remaining (plans.foldl shorter []) := by
  have extended (plan : List (List Nat)) (isPlan : plan ∈ plans) :
      ∃ group ∈ candidates g remaining, ∃ rest,
        Optimum g (without remaining group) rest ∧ plan = group :: rest := by
    obtain ⟨group, isGroup, result⟩ := Except.exists_of_mem_result success isPlan
    obtain ⟨rest, isRest, rfl⟩ := Except.map_eq_ok_iff.1 result
    exact ⟨group, isGroup, rest, (solved group isGroup).optimum rest isRest, rfl⟩
  have tried (group : List Nat) (isGroup : group ∈ candidates g remaining) :
      ∃ rest, Optimum g (without remaining group) rest ∧ group :: rest ∈ plans := by
    obtain ⟨plan, isPlan, result⟩ := Except.exists_result_of_mem success isGroup
    obtain ⟨rest, isRest, rfl⟩ := Except.map_eq_ok_iff.1 result
    exact ⟨rest, (solved group isGroup).optimum rest isRest, isPlan⟩
  obtain ⟨member, least⟩ : plans.foldl shorter [] ∈ plans ∧
      ∀ plan ∈ plans, (plans.foldl shorter []).length ≤ plan.length := by
    cases plans with
    | nil =>
      obtain ⟨group, isGroup⟩ := List.exists_mem_of_ne_nil _ present
      obtain ⟨rest, -, isPlan⟩ := tried group isGroup
      simp at isPlan
    | cons first others =>
      apply foldl_shorter_spec first
      intro plan isPlan
      obtain ⟨group, -, rest, -, rfl⟩ := extended plan isPlan
      exact List.cons_ne_nil group rest
  obtain ⟨group, isGroup, rest, optimum, same⟩ := extended _ member
  have candidate := candidate_of_mem wellFormed inside distinct isGroup
  rw [same] at least ⊢
  refine ⟨?_, List.forall_mem_cons.2 ⟨candidate.nonempty, optimum.nonempty⟩, fun groups runs => ?_⟩
  · exact .cons candidate.distinct distinct candidate.known candidate.free candidate.batched
      optimum.runs
  · obtain ⟨group', isGroup', rest', runs', shorter⟩ :=
      exists_candidate_length_le wellFormed inside distinct some_ runs
    obtain ⟨best, optimum', isPlan⟩ := tried group' isGroup'
    calc (group :: rest).length ≤ (group' :: best).length := least _ isPlan
      _ ≤ rest'.length + 1 := Nat.succ_le_succ (optimum'.least rest' runs')
      _ ≤ groups.length := shorter

theorem Solved.of_extensions (some_ : remaining ≠ []) (present : candidates g remaining ≠ [])
    {f : List Nat → Except Error (List (List Nat))}
    (solved : ∀ group ∈ candidates g remaining, Solved g (without remaining group) (f group)) :
    Solved g remaining
      ((extensions f (candidates g remaining)).map fun plans => plans.foldl shorter []) where
  optimum groups success := by
    obtain ⟨plans, isPlans, rfl⟩ := Except.map_eq_ok_iff.1 success
    exact .of_extensions wellFormed inside distinct some_ present solved isPlans
  succeeds acyclic := by
    obtain ⟨plans, success⟩ : ∃ plans, extensions f (candidates g remaining) = .ok plans := by
      apply Except.exists_mapM_eq_ok
      intro group isGroup
      obtain ⟨rest, isRest⟩ := (solved group isGroup).succeeds acyclic
      exact ⟨_, by rw [isRest]; rfl⟩
    exact ⟨_, by rw [success]; rfl⟩
  fails error failure := by
    rw [Except.map_eq_error_iff] at failure
    obtain ⟨group, isGroup, failure⟩ := Except.exists_of_mapM_eq_error failure
    rw [Except.map_eq_error_iff] at failure
    exact (solved group isGroup).fails error failure

end Shortest

theorem shortest_nil (g : OperatorGraph) (depth : Nat) : shortest g depth [] = .ok [] := by
  cases depth <;> rfl

theorem shortest_singleton (g : OperatorGraph) (depth i : Nat) :
    shortest g depth [i] = .ok [[i]] := by
  cases depth <;> rfl

theorem shortest_of_many (many : 2 ≤ remaining.length) (depth : Nat) :
    shortest g (depth + 1) remaining =
      if candidates g remaining = [] then .error (.cycle remaining.length)
      else (candidates g remaining).foldlM (fun best group => do
        let rest ← shortest g depth (without remaining group)
        return shorter best (group :: rest)) [] := by
  match remaining, many with
  | first :: second :: others, _ =>
    rw [shortest]
    · cases candidates g (first :: second :: others) with
      | nil => rfl
      | cons group groups =>
        rw [if_neg (List.cons_ne_nil group groups)]
    · simp
    · simp

/-- With enough depth the recursion finds a shortest plan, unless there is a cycle. -/
theorem shortest_solved (wellFormed : g.WellFormed) (depth : Nat)
    (inside : ∀ i ∈ remaining, i < g.size) (distinct : remaining.Nodup)
    (enough : remaining.length ≤ depth + 1) : Solved g remaining (shortest g depth remaining) := by
  induction depth generalizing remaining with
  | zero =>
    match remaining, enough with
    | [], _ => exact .of_optimum (.nil g)
    | [i], _ => exact .of_optimum (.singleton wellFormed i)
  | succ depth ih =>
    match remaining with
    | [] => exact .of_optimum (.nil g)
    | [i] => exact .of_optimum (.singleton wellFormed i)
    | first :: second :: others =>
      have some_ : first :: second :: others ≠ [] := List.cons_ne_nil first (second :: others)
      rw [shortest_of_many (by simp),
        foldlM_shorter fun group => shortest g depth (without _ group)]
      split
      case isTrue none =>
        refine ⟨by simp, fun acyclic => ?_, fun error failure => ?_⟩
        · exact absurd none (candidates_ne_nil wellFormed inside acyclic some_)
        · cases failure
          exact ⟨_, rfl⟩
      case isFalse present =>
        refine .of_extensions wellFormed inside distinct some_ present fun group isGroup => ?_
        have candidate := candidate_of_mem wellFormed inside distinct isGroup
        refine ih (fun i member => inside i (mem_without.1 member).1) (distinct.filter _) ?_
        have fewer := candidate.length_without_lt
        omega

/-! ## Search with a memory -/

theorem extensions_congr {f f' : List Nat → Except Error (List (List Nat))}
    {groups : List (List Nat)} (same : ∀ group ∈ groups, f group = f' group) :
    extensions f groups = extensions f' groups := by
  induction groups with
  | nil => rfl
  | cons group groups ih =>
    have rest := ih fun other isOther => same other (List.mem_cons_of_mem group isOther)
    unfold extensions at rest ⊢
    rw [List.mapM_cons, List.mapM_cons, same group List.mem_cons_self, rest]

/-- More depth than is needed changes nothing. -/
theorem shortest_depth (wellFormed : g.WellFormed) {depth depth' : Nat}
    (inside : ∀ i ∈ remaining, i < g.size) (distinct : remaining.Nodup)
    (enough : remaining.length ≤ depth + 1) (enough' : remaining.length ≤ depth' + 1) :
    shortest g depth remaining = shortest g depth' remaining := by
  induction depth generalizing depth' remaining with
  | zero =>
    match remaining, enough with
    | [], _ => rw [shortest_nil, shortest_nil]
    | [i], _ => rw [shortest_singleton, shortest_singleton]
  | succ depth ih =>
    match remaining, depth' with
    | [], _ => rw [shortest_nil, shortest_nil]
    | [i], _ => rw [shortest_singleton, shortest_singleton]
    | first :: second :: others, 0 => simp at enough'
    | first :: second :: others, depth' + 1 =>
      rw [shortest_of_many (by simp), shortest_of_many (by simp),
        foldlM_shorter fun group => shortest g depth (without _ group),
        foldlM_shorter fun group => shortest g depth' (without _ group)]
      split
      · rfl
      · refine congrArg _ (extensions_congr fun group isGroup => ?_)
        have candidate := candidate_of_mem wellFormed inside distinct isGroup
        have fewer := candidate.length_without_lt
        exact ih (fun i member => inside i (mem_without.1 member).1) (distinct.filter _)
          (by omega) (by omega)

/-- The memory holds shortest plans only. -/
def Memory.Sound (g : OperatorGraph) (memory : Memory) : Prop :=
  ∀ remaining plan, memory.solved[remaining]? = some plan →
    shortest g remaining.length remaining = .ok plan

/-- A search has the given result whatever it remembers, and remembers shortest plans only. -/
def Recalls {α : Type} (g : OperatorGraph) (computation : StateT Memory (Except Error) α)
    (result : Except Error α) : Prop :=
  ∀ memory : Memory, memory.Sound g →
    (∀ value, result = .ok value →
      ∃ memory', computation memory = .ok (value, memory') ∧ memory'.Sound g) ∧
    ∀ error, result = .error error → computation memory = .error error

namespace Recalls

variable {α β : Type}

theorem ok (g : OperatorGraph) (value : α) : Recalls g (pure value) (.ok value) := by
  refine fun memory sound => ⟨fun value' same => ?_, fun error failure => ?_⟩
  · cases same
    exact ⟨memory, rfl, sound⟩
  · cases failure

theorem bind {computation : StateT Memory (Except Error) α} {result : Except Error α}
    {next : α → StateT Memory (Except Error) β} {next' : α → Except Error β}
    (first : Recalls g computation result) (later : ∀ value, Recalls g (next value) (next' value)) :
    Recalls g (computation >>= next) (result >>= next') := by
  intro memory sound
  obtain ⟨succeeds, fails⟩ := first memory sound
  have sequence : (computation >>= next) memory =
      computation memory >>= fun (value, memory) => next value memory := rfl
  cases result with
  | error error =>
    refine ⟨fun value success => ?_, fun error' failure => ?_⟩
    · cases success
    · cases failure
      rw [sequence, fails error rfl]
      rfl
  | ok value =>
    obtain ⟨memory', ran, sound'⟩ := succeeds value rfl
    rw [sequence, ran]
    exact later value memory' sound'

theorem foldlM {next : β → α → StateT Memory (Except Error) β} {next' : β → α → Except Error β}
    {steps : List α} (step : ∀ x ∈ steps, ∀ state, Recalls g (next state x) (next' state x))
    (state : β) : Recalls g (steps.foldlM next state) (steps.foldlM next' state) := by
  induction steps generalizing state with
  | nil => exact .ok g state
  | cons x steps ih =>
    rw [List.foldlM_cons, List.foldlM_cons]
    exact .bind (step x List.mem_cons_self state)
      (ih fun y member => step y (List.mem_cons_of_mem x member))

theorem throw {α : Type} (g : OperatorGraph) (error : Error) :
    Recalls g (throw error : StateT Memory (Except Error) α) (.error error) := by
  refine fun memory _ => ⟨fun value success => ?_, fun error' failure => ?_⟩
  · cases success
  · cases failure
    rfl

/-- A shortest plan may be kept in the memory. -/
theorem store {computation : StateT Memory (Except Error) (List (List Nat))}
    {result : Except Error (List (List Nat))} (recalls : Recalls g computation result)
    (best : result = shortest g remaining.length remaining) :
    Recalls g (do
      let plan ← computation
      modify fun memory => { memory with solved := memory.solved.insert remaining plan }
      return plan) result := by
  intro memory sound
  obtain ⟨succeeds, fails⟩ := recalls memory sound
  refine ⟨fun plan success => ?_, fun error failure => ?_⟩
  · obtain ⟨memory', ran, sound'⟩ := succeeds plan success
    refine ⟨{ memory' with solved := memory'.solved.insert remaining plan }, ?_, ?_⟩
    · simp only [Bind.bind, StateT.bind, ran]
      rfl
    · intro key plan' found
      simp only [Std.HashMap.getElem?_insert] at found
      split at found
      case isTrue same =>
        rw [beq_iff_eq] at same
        rw [← same, ← best, success, Option.some.inj found]
      case isFalse => exact sound' key plan' found
  · simp only [Bind.bind, StateT.bind, fails error failure]
    rfl

end Recalls

theorem get_bind_apply {α : Type} (next : Memory → StateT Memory (Except Error) α)
    (memory : Memory) :
    ((get : StateT Memory (Except Error) Memory) >>= next) memory = next memory memory := rfl

/-- What is not remembered is looked into and then remembered. -/
theorem search_of_many (many : 2 ≤ remaining.length) (depth : Nat) (memory : Memory) :
    search g (depth + 1) remaining memory =
      match memory.solved[remaining]? with
      | some plan => .ok (plan, memory)
      | none =>
        (if candidates g remaining = [] then throw (.cycle remaining.length)
        else do
          let plan ← (candidates g remaining).foldlM (fun best group => do
            let rest ← search g depth (without remaining group)
            return shorter best (group :: rest)) []
          modify fun memory => { memory with solved := memory.solved.insert remaining plan }
          return plan : StateT Memory (Except Error) (List (List Nat)))
          { memory with visited := memory.visited + 1 } := by
  match remaining, many with
  | first :: second :: others, _ =>
    rw [search, get_bind_apply]
    · cases memory.solved[first :: second :: others]? with
      | some plan => rfl
      | none =>
        cases candidates g (first :: second :: others) with
        | nil => rfl
        | cons group groups =>
          rw [if_neg (List.cons_ne_nil group groups)]
          rfl
    · simp
    · simp

/-- The search finds the plans of the recursion without a memory. -/
theorem search_recalls (wellFormed : g.WellFormed) (depth : Nat)
    (inside : ∀ i ∈ remaining, i < g.size) (distinct : remaining.Nodup)
    (enough : remaining.length ≤ depth + 1) :
    Recalls g (search g depth remaining) (shortest g depth remaining) := by
  induction depth generalizing remaining with
  | zero =>
    match remaining, enough with
    | [], _ => exact .ok g []
    | [i], _ => exact .ok g [[i]]
  | succ depth ih =>
    match remaining with
    | [] => exact .ok g []
    | [i] => exact .ok g [[i]]
    | first :: second :: others =>
      intro memory sound
      rw [search_of_many (by simp)]
      split
      case h_1 plan found =>
        have known := sound _ plan found
        rw [shortest_depth wellFormed inside distinct (Nat.le_succ _) enough] at known
        rw [known]
        exact Recalls.ok g plan memory sound
      case h_2 =>
        have kept : Memory.Sound g { memory with visited := memory.visited + 1 } := sound
        have whole := shortest_depth wellFormed inside distinct enough (Nat.le_succ _)
        rw [shortest_of_many (by simp)] at whole ⊢
        split at whole
        case isTrue none =>
          rw [if_pos none, if_pos none]
          exact Recalls.throw g _ _ kept
        case isFalse present =>
          rw [if_neg present, if_neg present]
          refine (Recalls.foldlM (fun group isGroup best => ?_) []).store whole _ kept
          have candidate := candidate_of_mem wellFormed inside distinct isGroup
          have fewer := candidate.length_without_lt
          exact (ih (fun i member => inside i (mem_without.1 member).1) (distinct.filter _)
            (by omega)).bind fun rest => .ok g _

end Exhaustive

/-! ## The exhaustive plan -/

variable {g : OperatorGraph}

theorem exhaustivePlan_eq (wellFormed : g.WellFormed) :
    exhaustivePlan g =
      (Exhaustive.shortest g g.size (List.range g.size)).map (·.map g.select) := by
  have recalls := Exhaustive.search_recalls wellFormed g.size
    (fun i member => List.mem_range.1 member) List.nodup_range (by simp)
  obtain ⟨succeeds, fails⟩ := recalls {} fun remaining plan found => by simp at found
  unfold exhaustivePlan exhaustiveSearch
  cases result : Exhaustive.shortest g g.size (List.range g.size) with
  | ok groups =>
    obtain ⟨memory, ran, -⟩ := succeeds groups result
    rw [StateT.run, ran]
    rfl
  | error error =>
    rw [StateT.run, fails error result]
    rfl

theorem exhaustivePlan_planned (wellFormed : g.WellFormed) :
    g.Planned (List.range g.size) (exhaustivePlan g) := by
  have solved := Exhaustive.shortest_solved wellFormed g.size
    (fun i member => List.mem_range.1 member) List.nodup_range (by simp)
  rw [exhaustivePlan_eq wellFormed]
  refine ⟨fun plan success => ?_, fun acyclic => ?_, fun error failure => ?_⟩
  · obtain ⟨groups, found, rfl⟩ := Except.map_eq_ok_iff.1 success
    have optimum := solved.optimum groups found
    exact ⟨groups, rfl, optimum.runs, optimum.nonempty⟩
  · obtain ⟨groups, found⟩ := solved.succeeds acyclic
    exact ⟨_, by rw [found]; rfl⟩
  · exact solved.fails error (Except.map_eq_error_iff.1 failure)

/-- No batches that run all operators are fewer than those of the exhaustive plan. -/
theorem length_exhaustivePlan_le (wellFormed : g.WellFormed) {plan : Plan}
    (success : exhaustivePlan g = .ok plan) {groups : List (List Nat)}
    (runs : g.Runs (List.range g.size) groups) : plan.length ≤ groups.length := by
  have solved := Exhaustive.shortest_solved wellFormed g.size
    (fun i member => List.mem_range.1 member) List.nodup_range (by simp)
  rw [exhaustivePlan_eq wellFormed] at success
  obtain ⟨best, found, rfl⟩ := Except.map_eq_ok_iff.1 success
  rw [List.length_map]
  exact (solved.optimum best found).least groups runs

end BatchGraph
