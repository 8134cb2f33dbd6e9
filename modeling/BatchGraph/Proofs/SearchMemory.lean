import BatchGraph.Proofs.KeyText
import BatchGraph.Proofs.Planner

/-!
The memory of exhaustive planning changes nothing.

`Exhaustive.Finds` is the recursion by itself, without a memory and without a bound on its depth: of
the plans that start with one of the candidates each, the first of the shortest.  It finds one plan
only, and that is the plan of the search.  What the search looks into are the remainders that the
recursion reaches (`Exhaustive.Reaches`), each of them once: the memory gets exactly these
(`Exhaustive.Grows`).  They are ascending, so remainders with the same operators are the same list
and have the same text.
-/

namespace BatchGraph

namespace Exhaustive

variable {g : OperatorGraph} {remaining : List Nat}

/-! ## The recursion -/

/-- The first of the plans that have the fewest groups. -/
structure FirstShortest (plans : List (List (List Nat))) (best : List (List Nat)) : Prop where
  least : ∀ plan ∈ plans, best.length ≤ plan.length
  first : ∃ before after, plans = before ++ best :: after ∧
    ∀ plan ∈ before, best.length < plan.length

theorem FirstShortest.unique {plans : List (List (List Nat))} {best best' : List (List Nat)}
    (isBest : FirstShortest plans best) (isBest' : FirstShortest plans best') : best = best' := by
  obtain ⟨before, after, split, longer⟩ := isBest.first
  obtain ⟨before', after', split', longer'⟩ := isBest'.first
  have short := isBest.least best' (split' ▸ by simp)
  have short' := isBest'.least best (split ▸ by simp)
  rcases List.append_eq_append_iff.1 (split.symm.trans split') with
    ⟨between, rfl, rest⟩ | ⟨between, rfl, rest⟩
  · cases between with
    | nil => exact (List.cons.inj rest).1
    | cons plan between =>
      have inFront := longer' best (by simp [(List.cons.inj rest).1])
      omega
  · cases between with
    | nil => exact (List.cons.inj rest).1.symm
    | cons plan between =>
      have inFront := longer best' (by simp [(List.cons.inj rest).1])
      omega

/-- A plan in front of others, among which the best is known. -/
theorem FirstShortest.cons {plans : List (List (List Nat))} {best : List (List Nat)}
    (isBest : FirstShortest plans best) {plan : List (List Nat)}
    (longer : best.length < plan.length) : FirstShortest (plan :: plans) best := by
  obtain ⟨before, after, split, inFront⟩ := isBest.first
  exact ⟨List.forall_mem_cons.2 ⟨longer.le, isBest.least⟩,
    plan :: before, after, by rw [split]; rfl, List.forall_mem_cons.2 ⟨longer, inFront⟩⟩

/-- A plan behind the first one, which is no longer than it. -/
theorem FirstShortest.second {plans : List (List (List Nat))} {plan best next : List (List Nat)}
    (isBest : FirstShortest (plan :: plans) best) (short : plan.length ≤ next.length) :
    FirstShortest (plan :: next :: plans) best := by
  have least := List.forall_mem_cons.1 isBest.least
  refine ⟨List.forall_mem_cons.2 ⟨least.1,
    List.forall_mem_cons.2 ⟨least.1.trans short, least.2⟩⟩, ?_⟩
  obtain ⟨before, after, split, inFront⟩ := isBest.first
  cases before with
  | nil => exact ⟨[], next :: plans, by rw [(List.cons.inj split).1]; rfl, by simp⟩
  | cons _ before =>
    obtain ⟨rfl, rest⟩ := List.cons.inj split
    rw [List.forall_mem_cons] at inFront
    exact ⟨plan :: next :: before, after, by rw [rest]; rfl, List.forall_mem_cons.2
      ⟨inFront.1, List.forall_mem_cons.2 ⟨inFront.1.trans_le short, inFront.2⟩⟩⟩

/-- Keeping the shorter one keeps the first of the shortest. -/
theorem foldl_shorter_first {plans : List (List (List Nat))} {best : List (List Nat)}
    (nonempty : ∀ plan ∈ best :: plans, plan ≠ []) :
    FirstShortest (best :: plans) (plans.foldl shorter best) := by
  induction plans generalizing best with
  | nil => exact ⟨by simp, [], [], rfl, by simp⟩
  | cons next plans ih =>
    have isPlan : best.isEmpty = false := by simpa using nonempty best List.mem_cons_self
    rw [List.foldl_cons, shorter, isPlan, Bool.false_or]
    split
    case isTrue longer =>
      rw [decide_eq_true_eq] at longer
      have isBest : FirstShortest (next :: plans) (plans.foldl shorter next) :=
        ih fun plan member => nonempty plan (List.mem_cons_of_mem _ member)
      exact isBest.cons ((isBest.least next List.mem_cons_self).trans_lt longer)
    case isFalse short =>
      rw [decide_eq_true_eq, not_lt] at short
      exact (ih fun plan member => nonempty plan (by grind)).second short

/-- What the recursion finds for the remaining operators: every candidate is tried, and the first of
the shortest plans is kept. -/
inductive Finds (g : OperatorGraph) : (remaining : List Nat) → (groups : List (List Nat)) → Prop
  | none : Finds g [] []
  | one (i : Nat) : Finds g [i] [[i]]
  | several {remaining : List Nat} {best : List (List Nat)} (rest : List Nat → List (List Nat))
      (many : 2 ≤ remaining.length)
      (found : ∀ group ∈ candidates g remaining, Finds g (without remaining group) (rest group))
      (isBest : FirstShortest ((candidates g remaining).map fun group => group :: rest group)
        best) : Finds g remaining best

theorem Finds.unique {groups groups' : List (List Nat)} (finds : Finds g remaining groups)
    (finds' : Finds g remaining groups') : groups = groups' := by
  induction finds generalizing groups' with
  | none =>
    cases finds' with
    | none => rfl
    | several _ many => simp at many
  | one i =>
    cases finds' with
    | one => rfl
    | several _ many => simp at many
  | several rest many _ isBest ih =>
    cases finds' with
    | none => simp at many
    | one => simp at many
    | several rest' _ found' isBest' =>
      have same : (candidates g _).map (fun group => group :: rest group) =
          (candidates g _).map fun group => group :: rest' group :=
        List.map_congr_left fun group isGroup => by rw [ih group isGroup (found' group isGroup)]
      exact isBest.unique (same ▸ isBest')

/-- The bound on the depth only stops the recursion. -/
theorem finds_of_shortest_eq_ok {depth : Nat} {groups : List (List Nat)}
    (success : shortest g depth remaining = .ok groups) : Finds g remaining groups := by
  induction depth generalizing remaining groups with
  | zero =>
    match remaining with
    | [] => cases success; exact .none
    | [i] => cases success; exact .one i
    | _ :: _ :: _ => cases success
  | succ depth ih =>
    match remaining with
    | [] => cases success; exact .none
    | [i] => cases success; exact .one i
    | first :: second :: others =>
      have many : 2 ≤ (first :: second :: others).length := by simp
      rw [shortest_of_many many,
        foldlM_shorter fun group => shortest g depth (without _ group)] at success
      generalize first :: second :: others = remaining at many success
      split at success
      case isTrue => cases success
      case isFalse present =>
        obtain ⟨plans, extended, rfl⟩ := Except.map_eq_ok_iff.1 success
        have tried : ∀ group ∈ candidates g remaining, ∃ rest,
            shortest g depth (without remaining group) = .ok rest := by
          intro group isGroup
          obtain ⟨plan, -, result⟩ := Except.exists_result_of_mem extended isGroup
          obtain ⟨rest, isRest, -⟩ := Except.map_eq_ok_iff.1 result
          exact ⟨rest, isRest⟩
        choose! rest isRest using tried
        have same : extensions (fun group => shortest g depth (without remaining group))
            (candidates g remaining) =
              .ok ((candidates g remaining).map fun group => group :: rest group) :=
          Except.mapM_eq_ok fun group isGroup => Except.map_eq_ok_iff.2
            ⟨rest group, isRest group isGroup, rfl⟩
        cases same.symm.trans extended
        refine .several rest many (fun group isGroup => ih (isRest group isGroup)) ?_
        obtain ⟨group, groups, split⟩ := List.exists_cons_of_ne_nil present
        rw [split, List.map_cons, List.foldl_cons]
        exact foldl_shorter_first (by simp)

/-! ## Remainders -/

/-- Behind a candidate for the next group, `next` remains. -/
def Step (g : OperatorGraph) (remaining next : List Nat) : Prop :=
  2 ≤ remaining.length ∧ ∃ group ∈ candidates g remaining, next = without remaining group

/-- The recursion for the remaining operators comes to `next`. -/
def Reaches (g : OperatorGraph) : (remaining next : List Nat) → Prop :=
  Relation.ReflTransGen (Step g)

theorem Step.sublist {next : List Nat} (step : Step g remaining next) : next.Sublist remaining := by
  obtain ⟨-, group, -, rfl⟩ := step
  exact List.filter_sublist

theorem Reaches.sublist {next : List Nat} (reaches : Reaches g remaining next) :
    next.Sublist remaining := by
  induction reaches with
  | refl => exact .refl _
  | tail _ step ih => exact step.sublist.trans ih

theorem Step.length_lt {next : List Nat} (step : Step g remaining next) (wellFormed : g.WellFormed)
    (inside : ∀ i ∈ remaining, i < g.size) (distinct : remaining.Nodup) :
    next.length < remaining.length := by
  obtain ⟨-, group, isGroup, rfl⟩ := step
  exact (candidate_of_mem wellFormed inside distinct isGroup).length_without_lt

/-- Whatever is reached is ascending. -/
theorem Reaches.ascending {count : Nat} (reaches : Reaches g (List.range count) remaining) :
    remaining.Pairwise (· < ·) := List.pairwise_lt_range.sublist reaches.sublist

/-! ## Growth of the memory -/

/-- Of a remainder that is solved, all that it leaves behind is solved too, as far as it is kept. -/
def Memory.Closed (g : OperatorGraph) (memory : Memory) : Prop :=
  ∀ key ∈ memory.solved, ∀ next, Step g key next → 2 ≤ next.length → next ∈ memory.solved

/-- What becomes of a memory when the given remainders are looked into, one after the other: what is
reached from them is added, and looked into once. -/
structure Grows (g : OperatorGraph) (roots : List (List Nat)) (memory memory' : Memory) : Prop where
  kept : ∀ key ∈ memory.solved, key ∈ memory'.solved
  added : ∀ key ∈ memory'.solved, key ∈ memory.solved ∨
    2 ≤ key.length ∧ ∃ root ∈ roots, Reaches g root key
  solved : ∀ root ∈ roots, 2 ≤ root.length → root ∈ memory'.solved
  closed : memory.Closed g → memory'.Closed g
  counted : memory'.visited + memory.solved.size = memory.visited + memory'.solved.size

namespace Grows

variable {roots : List (List Nat)} {memory memory' : Memory}

/-- Nothing is added if the remainders are known, or too short to be kept. -/
theorem unchanged (known : ∀ root ∈ roots, 2 ≤ root.length → root ∈ memory.solved) :
    Grows g roots memory memory :=
  ⟨fun _ member => member, fun _ member => .inl member, known, id, rfl⟩

theorem append {roots' : List (List Nat)} {memory'' : Memory} (first : Grows g roots memory memory')
    (later : Grows g roots' memory' memory'') : Grows g (roots ++ roots') memory memory'' where
  kept key member := later.kept key (first.kept key member)
  added key member := by
    rcases later.added key member with member | ⟨many, root, isRoot, reaches⟩
    · refine (first.added key member).imp_right fun ⟨many, root, isRoot, reaches⟩ => ?_
      exact ⟨many, root, List.mem_append_left _ isRoot, reaches⟩
    · exact .inr ⟨many, root, List.mem_append_right _ isRoot, reaches⟩
  solved root member many := by
    rcases List.mem_append.1 member with isFirst | isLater
    · exact later.kept root (first.solved root isFirst many)
    · exact later.solved root isLater many
  closed closed := later.closed (first.closed closed)
  counted := by
    have := first.counted
    have := later.counted
    omega

/-- A remainder is kept after all that it leaves behind has been looked into. -/
theorem store (many : 2 ≤ remaining.length) (unknown : remaining ∉ memory.solved)
    (shorter : ∀ next, Step g remaining next → next.length < remaining.length)
    (grows : Grows g ((candidates g remaining).map (without remaining))
      { memory with visited := memory.visited + 1 } memory') (plan : List (List Nat)) :
    Grows g [remaining] memory { memory' with solved := memory'.solved.insert remaining plan } := by
  have step {root : List Nat} (isRoot : root ∈ (candidates g remaining).map (without remaining)) :
      Step g remaining root := by
    obtain ⟨group, isGroup, rfl⟩ := List.mem_map.1 isRoot
    exact ⟨many, group, isGroup, rfl⟩
  -- Everything behind it is shorter, so it has not been added in between.
  have unknown' : remaining ∉ memory'.solved := by
    intro member
    rcases grows.added remaining member with known | ⟨-, root, isRoot, reaches⟩
    · exact unknown known
    · have := shorter root (step isRoot)
      have := reaches.sublist.length_le
      omega
  refine ⟨fun key member => ?_, fun key member => ?_, fun root isRoot _ => ?_,
    fun closed key member next isNext several => ?_, ?_⟩
  · exact Std.HashMap.mem_insert.2 (.inr (grows.kept key member))
  · rcases Std.HashMap.mem_insert.1 member with same | member
    · rw [← beq_iff_eq.1 same]
      exact .inr ⟨many, remaining, List.mem_singleton_self _, .refl⟩
    · refine (grows.added key member).imp_right fun ⟨many', root, isRoot, reaches⟩ => ?_
      exact ⟨many', remaining, List.mem_singleton_self _, .head (step isRoot) reaches⟩
  · rw [List.mem_singleton.1 isRoot]
    exact Std.HashMap.mem_insert_self
  · refine Std.HashMap.mem_insert.2 (.inr ?_)
    rcases Std.HashMap.mem_insert.1 member with same | member
    · rw [← beq_iff_eq.1 same] at isNext
      obtain ⟨-, group, isGroup, rfl⟩ := isNext
      exact grows.solved _ (List.mem_map_of_mem isGroup) several
    · exact grows.closed closed key member next isNext several
  · have counted := grows.counted
    rw [Std.HashMap.size_insert, if_neg unknown']
    dsimp only at counted ⊢
    omega

/-- A memory that was empty has what is reached. -/
theorem mem_iff {key : List Nat} (grows : Grows g [remaining] {} memory) :
    key ∈ memory.solved ↔ Reaches g remaining key ∧ 2 ≤ key.length := by
  have closed : memory.Closed g :=
    grows.closed fun _ member => absurd member Std.HashMap.not_mem_empty
  constructor
  · intro member
    obtain ⟨many, root, isRoot, reaches⟩ :=
      (grows.added key member).resolve_left Std.HashMap.not_mem_empty
    exact ⟨List.mem_singleton.1 isRoot ▸ reaches, many⟩
  · rintro ⟨reaches, many⟩
    induction reaches with
    | refl => exact grows.solved remaining (List.mem_singleton_self _) many
    | tail _ step ih => exact closed _ (ih step.1) _ step many

end Grows

/-- Trying candidates one after the other adds what each of them adds. -/
theorem grows_of_foldlM {step : List Nat → StateT Memory (Except Error) (List (List Nat))}
    {root : List Nat → List Nat} {groups : List (List Nat)}
    (each : ∀ group ∈ groups, ∀ memory plan memory', step group memory = .ok (plan, memory') →
      Grows g [root group] memory memory')
    {memory memory' : Memory} {best plan : List (List Nat)}
    (success : (groups.foldlM (fun best group => do
      let rest ← step group
      return shorter best (group :: rest)) best) memory = .ok (plan, memory')) :
    Grows g (groups.map root) memory memory' := by
  induction groups generalizing memory best with
  | nil =>
    cases success
    exact .unchanged (by simp)
  | cons group groups ih =>
    rw [List.foldlM_cons] at success
    obtain ⟨⟨best', middle⟩, tried, success⟩ := Except.bind_eq_ok_iff.1 success
    obtain ⟨⟨rest, middle'⟩, ran, tried⟩ := Except.bind_eq_ok_iff.1 tried
    cases tried
    have first := each group List.mem_cons_self memory rest middle ran
    exact first.append
      (ih (fun other isOther => each other (List.mem_cons_of_mem group isOther)) success)

/-- A search that comes to an end has looked into all that is reached. -/
theorem grows_of_search (wellFormed : g.WellFormed) {depth : Nat}
    (inside : ∀ i ∈ remaining, i < g.size) (distinct : remaining.Nodup) {memory memory' : Memory}
    {plan : List (List Nat)} (success : search g depth remaining memory = .ok (plan, memory')) :
    Grows g [remaining] memory memory' := by
  induction depth generalizing remaining memory plan memory' with
  | zero =>
    match remaining with
    | [] => cases success; exact .unchanged (by simp)
    | [i] => cases success; exact .unchanged (by simp)
    | _ :: _ :: _ => cases success
  | succ depth ih =>
    match remaining with
    | [] => cases success; exact .unchanged (by simp)
    | [i] => cases success; exact .unchanged (by simp)
    | first :: second :: others =>
      have many : 2 ≤ (first :: second :: others).length := by simp
      rw [search_of_many many] at success
      generalize first :: second :: others = remaining at many success inside distinct
      split at success
      case h_1 known =>
        cases success
        refine .unchanged fun root isRoot _ => ?_
        rw [List.mem_singleton.1 isRoot]
        exact Std.HashMap.mem_iff_isSome_getElem?.2 (Option.isSome_of_eq_some known)
      case h_2 unknown =>
        split at success
        case isTrue => cases success
        case isFalse =>
          obtain ⟨⟨best, middle⟩, tried, success⟩ := Except.bind_eq_ok_iff.1 success
          cases success
          refine .store many ?_ (fun next step => step.length_lt wellFormed inside distinct) ?_ plan
          · rw [Std.HashMap.mem_iff_isSome_getElem?, unknown]
            exact Bool.false_ne_true
          · refine grows_of_foldlM (fun group _ memory plan memory' ran => ?_) tried
            exact ih (fun i member => inside i (mem_without.1 member).1) (distinct.filter _) ran

/-- The memory of the search for all operators, once it has come to an end. -/
structure Memory.Complete (g : OperatorGraph) (memory : Memory) : Prop where
  solved_iff : ∀ key, key ∈ memory.solved ↔ Reaches g (List.range g.size) key ∧ 2 ≤ key.length
  finds : ∀ key plan, memory.solved[key]? = some plan → Finds g key plan
  visited : memory.visited = memory.solved.size

/-- Without cycles the search and the recursion without a memory find the same. -/
theorem exists_finds (wellFormed : g.WellFormed) (acyclic : Acyclic g.Edge) :
    ∃ groups memory, (∀ groups', Finds g (List.range g.size) groups' ↔ groups' = groups) ∧
      (search g g.size (List.range g.size)).run {} = .ok (groups, memory) ∧
      memory.Complete g := by
  have inside (i : Nat) (member : i ∈ List.range g.size) : i < g.size := List.mem_range.1 member
  have enough : (List.range g.size).length ≤ g.size + 1 := by simp
  obtain ⟨groups, shortest⟩ :=
    (shortest_solved wellFormed g.size inside List.nodup_range enough).succeeds acyclic
  have finds := finds_of_shortest_eq_ok shortest
  obtain ⟨memory, ran, sound⟩ :=
    (search_recalls wellFormed g.size inside List.nodup_range enough {}
      fun key plan found => by simp at found).1 groups shortest
  have grows := grows_of_search wellFormed inside List.nodup_range ran
  refine ⟨groups, memory, fun groups' => ⟨fun finds' => finds'.unique finds, ?_⟩, ran, ?_⟩
  · rintro rfl
    exact finds
  · refine ⟨fun key => grows.mem_iff, fun key plan found => ?_, ?_⟩
    · exact finds_of_shortest_eq_ok (sound key plan found)
    · simpa using grows.counted

end Exhaustive

/-! ## Planning -/

open Exhaustive

variable {ops : List Operator} {graph : DependencyGraph}

/-- The exhaustive plan of acyclic dependencies is the only one that the recursion without a memory
finds.  The memory gets what the recursion finds, for the remainders it reaches and no others, each
of them looked into once.  All of these are ascending, and the text of two of them is the same if
and only if their operators are. -/
theorem memory_transparent (distinct : ops.Nodup) (isOver : graph.Over ops)
    (acyclic : Acyclic graph.Edge) :
    ∃ g groups memory, OperatorGraph.ofDependencies ops (some graph) = .ok g ∧
      Planner.tree.plan ops (some graph) = .ok (groups.map g.select) ∧
      (∀ groups', Finds g (List.range g.size) groups' ↔ groups' = groups) ∧
      (search g g.size (List.range g.size)).run {} = .ok (groups, memory) ∧ memory.Complete g ∧
      ∀ a, Reaches g (List.range g.size) a → a.Pairwise (· < ·) ∧
        ∀ b, Reaches g (List.range g.size) b →
          (keyText (a.map Int.ofNat) = keyText (b.map Int.ofNat) ↔ ∀ i, i ∈ a ↔ i ∈ b) := by
  obtain ⟨g, isGraph, represents⟩ := OperatorGraph.exists_represents distinct isOver
  obtain ⟨groups, memory, finds, ran, complete⟩ :=
    exists_finds represents.toWellFormed (represents.acyclic_iff.2 acyclic)
  refine ⟨g, groups, memory, isGraph, ?_, finds, ran, complete, fun a reaches => ?_⟩
  · rw [Planner.plan_eq_schedule .tree isGraph, Planner.schedule, exhaustivePlan, exhaustiveSearch,
      ran]
    rfl
  · exact ⟨reaches.ascending, fun b reaches' => keyText_eq_iff reaches.ascending reaches'.ascending⟩

/-- Nodes that depend on nothing. -/
def nodes (count : Nat) : List Operator := (List.range count).map fun id => { id, action := .node }

/-- Of four nodes the last two remain whichever of the others runs first, and the memory has the
plan for them. -/
theorem memory_transparent_nodes :
    ∃ memory, Planner.tree.plan (nodes 4) (some ⟨[]⟩) = .ok ((nodes 4).map ([·])) ∧
      (search (.ofEdges (nodes 4) []) 4 [0, 1, 2, 3]).run {} =
        .ok ([[0], [1], [2], [3]], memory) ∧
      memory.solved[[2, 3]]? = some [[2], [3]] := by
  have distinct : (nodes 4).Nodup := by decide
  have isOver : DependencyGraph.Over ⟨[]⟩ (nodes 4) :=
    ⟨by simp, by simp [DependencyGraph.Edge], by simp [DependencyGraph.Edge]⟩
  have acyclic : Acyclic (DependencyGraph.Edge ⟨[]⟩) :=
    acyclic_of_rank Operator.id (by simp [DependencyGraph.Edge])
  obtain ⟨g, groups, memory, isGraph, planned, finds, ran, complete, -⟩ :=
    memory_transparent distinct isOver acyclic
  obtain rfl : OperatorGraph.ofEdges (nodes 4) [] = g :=
    Except.ok.inj ((OperatorGraph.ofDependencies_eq distinct isOver).symm.trans isGraph)
  have found : shortest (.ofEdges (nodes 4) []) 4 [0, 1, 2, 3] = .ok [[0], [1], [2], [3]] := by
    decide +kernel
  obtain rfl : [[0], [1], [2], [3]] = groups := (finds _).1 (finds_of_shortest_eq_ok found)
  refine ⟨memory, planned, ran, ?_⟩
  have first : Step (.ofEdges (nodes 4) []) [0, 1, 2, 3] [1, 2, 3] :=
    ⟨by decide, [0], by decide +kernel⟩
  have second : Step (.ofEdges (nodes 4) []) [1, 2, 3] [2, 3] :=
    ⟨by decide, [1], by decide +kernel⟩
  have member := (complete.solved_iff [2, 3]).2 ⟨.tail (.single first) second, by decide⟩
  have kept := Std.HashMap.getElem?_eq_some_getElem member
  have isRest : shortest (.ofEdges (nodes 4) []) 2 [2, 3] = .ok [[2], [3]] := by decide +kernel
  rw [kept, (complete.finds [2, 3] _ kept).unique (finds_of_shortest_eq_ok isRest)]

end BatchGraph
