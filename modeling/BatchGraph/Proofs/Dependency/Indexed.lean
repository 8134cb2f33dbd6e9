import BatchGraph.Dependency.Indexed
import BatchGraph.Proofs.Dependency.Acyclic
import BatchGraph.Proofs.Distinct
import BatchGraph.Proofs.Except

/-!
Dependency graphs by operator and by position say the same.

`DependencyGraph.Edge` and `OperatorGraph.Edge` are the direct dependencies of the two kinds of
graphs.  For distinct operators, and a graph that is `DependencyGraph.Over` them,
`OperatorGraph.ofDependencies` succeeds, and its result `OperatorGraph.Represents` the graph: the
same edges, seen from their sources and from their targets.
-/

namespace BatchGraph

/-! ## Edges -/

namespace DependencyGraph

/-- `b` depends directly on `a`. -/
def Edge (g : DependencyGraph) (a b : Operator) : Prop :=
  ∃ entry ∈ g.entries, entry.1 = a ∧ b ∈ entry.2

/-- The graph speaks about the given operators only, none of which depends on itself. -/
structure Over (g : DependencyGraph) (ops : List Operator) : Prop where
  sources : ∀ entry ∈ g.entries, entry.1 ∈ ops
  targets : ∀ a b, g.Edge a b → b ∈ ops
  loopless : ∀ a, ¬ g.Edge a a

theorem Over.source_mem {g : DependencyGraph} {ops : List Operator} (isOver : g.Over ops)
    {a b : Operator} (edge : g.Edge a b) : a ∈ ops := by
  obtain ⟨entry, isEntry, rfl, -⟩ := edge
  exact isOver.sources entry isEntry

end DependencyGraph

namespace OperatorGraph

/-- The operator at `j` depends directly on the one at `i`. -/
def Edge (g : OperatorGraph) (i j : Nat) : Prop := j ∈ g.successorsOf i

/-- Rows of successors and of predecessors hold the same edges, between different positions of
distinct operators. -/
structure WellFormed (g : OperatorGraph) : Prop where
  distinct : g.operators.Nodup
  inside : ∀ i j, g.Edge i j → i < g.size ∧ j < g.size
  loopless : ∀ i, ¬ g.Edge i i
  predecessor_iff : ∀ i j, i ∈ g.predecessorsOf j ↔ g.Edge i j
  successors_nodup : ∀ i, (g.successorsOf i).Nodup
  successors_length : g.successors.length = g.size

/-- The graph holds the given dependencies by position. -/
structure Represents (g : OperatorGraph) (ops : List Operator) (graph : DependencyGraph) :
    Prop extends g.WellFormed where
  operators : g.operators = ops
  isOver : graph.Over ops
  edge_iff : ∀ i j, g.Edge i j ↔
    ∃ a b, ops[i]? = some a ∧ ops[j]? = some b ∧ graph.Edge a b

end OperatorGraph

/-! ## Positions -/

theorem getD_map_range {α : Type} (row : Nat → List α) (count i : Nat) :
    (((List.range count).map row)[i]?).getD [] = if i < count then row i else [] := by
  split
  · simp [*]
  · simp [*]

theorem firstRepeated?_eq_none_iff {ops seen : List Operator} :
    firstRepeated? ops seen = none ↔ ops.Nodup ∧ ∀ op ∈ ops, op ∉ seen := by
  induction ops generalizing seen with
  | nil => simp [firstRepeated?]
  | cons op ops ih =>
    unfold firstRepeated?
    split
    · simp_all
    · rw [ih, List.nodup_cons]
      grind

namespace DependencyGraph

/-- The edges of one entry by position. -/
def place (ops : List Operator) (entry : Operator × List Operator) : List (Nat × Nat) :=
  entry.2.map fun successor => (ops.idxOf entry.1, ops.idxOf successor)

theorem edges_eq {g : DependencyGraph} {ops : List Operator} (isOver : g.Over ops)
    (distinct : ops.Nodup) : g.edges ops = .ok (g.entries.flatMap (place ops)) := by
  have found {op} (member : op ∈ ops) : ops.idxOf? op = some (ops.idxOf op) :=
    (Distinct.idxOf?_eq_some_iff distinct).2 (by simp [member])
  unfold edges
  rw [Except.mapM_eq_ok (g := place ops)]
  · rfl
  · intro entry isEntry
    obtain ⟨op, successors⟩ := entry
    simp only [found (isOver.sources _ isEntry), place]
    apply Except.mapM_eq_ok
    intro successor member
    have edge : g.Edge op successor := ⟨_, isEntry, rfl, member⟩
    have differ : ops.idxOf successor ≠ ops.idxOf op := by
      intro same
      rw [List.idxOf_inj (isOver.targets _ _ edge)] at same
      exact isOver.loopless op (same ▸ edge)
    simp only [found (isOver.targets _ _ edge), if_neg differ]

theorem mem_edges_iff {g : DependencyGraph} {ops : List Operator} (isOver : g.Over ops)
    (distinct : ops.Nodup) (i j : Nat) : (i, j) ∈ g.entries.flatMap (place ops) ↔
      ∃ a b, ops[i]? = some a ∧ ops[j]? = some b ∧ g.Edge a b := by
  have found {op} (member : op ∈ ops) : ops[ops.idxOf op]? = some op := by simp [member]
  simp only [List.mem_flatMap, place, List.mem_map, Prod.mk.injEq]
  constructor
  · intro holds
    rcases holds with ⟨⟨a, successors⟩, isEntry, b, member, rfl, rfl⟩
    have edge : g.Edge a b := ⟨_, isEntry, rfl, member⟩
    exact ⟨a, b, found (isOver.sources _ isEntry), found (isOver.targets _ _ edge), edge⟩
  · intro holds
    rcases holds with ⟨a, b, atI, atJ, entry, isEntry, rfl, member⟩
    have edge : g.Edge entry.1 b := ⟨_, isEntry, rfl, member⟩
    exact ⟨entry, isEntry, b, member,
      Distinct.eq_of_getElem? distinct (found (isOver.sources _ isEntry)) atI,
      Distinct.eq_of_getElem? distinct (found (isOver.targets _ _ edge)) atJ⟩

/-- A graph whose edges have positions speaks about the operators only. -/
theorem over_of_edges_eq_ok {g : DependencyGraph} {ops : List Operator} {edges : List (Nat × Nat)}
    (success : g.edges ops = .ok edges) : g.Over ops := by
  obtain ⟨found, areFound, -⟩ := Except.bind_eq_ok_iff.1 success
  have entry {a : Operator} {successors : List Operator} (isEntry : (a, successors) ∈ g.entries) :
      a ∈ ops ∧ ∀ b ∈ successors, b ∈ ops ∧ b ≠ a := by
    obtain ⟨row, -, result⟩ := Except.exists_result_of_mem areFound isEntry
    dsimp only at result
    split at result
    case h_1 => cases result
    case h_2 source isSource =>
      refine ⟨List.isSome_idxOf?.1 (Option.isSome_of_eq_some isSource), fun b member => ?_⟩
      obtain ⟨edge, -, result⟩ := Except.exists_result_of_mem result member
      split at result
      case h_1 => cases result
      case h_2 target isTarget =>
        refine ⟨List.isSome_idxOf?.1 (Option.isSome_of_eq_some isTarget), ?_⟩
        rintro rfl
        cases isSource.symm.trans isTarget
        rw [if_pos rfl] at result
        cases result
  refine ⟨fun ⟨a, successors⟩ isEntry => (entry isEntry).1, fun a b edge => ?_, fun a edge => ?_⟩
  · obtain ⟨⟨a, successors⟩, isEntry, rfl, member⟩ := edge
    exact ((entry isEntry).2 b member).1
  · obtain ⟨⟨a, successors⟩, isEntry, rfl, member⟩ := edge
    exact ((entry isEntry).2 _ member).2 rfl

end DependencyGraph

namespace OperatorGraph

variable {g : OperatorGraph} {ops : List Operator} {graph : DependencyGraph}

/-- The graph with the given edges by position. -/
def ofEdges (ops : List Operator) (edges : List (Nat × Nat)) : OperatorGraph where
  operators := ops
  successors := (List.range ops.length).map fun i =>
    ((edges.filter (·.1 = i)).map (·.2)).eraseDups
  predecessors := (List.range ops.length).map fun i =>
    ((edges.filter (·.2 = i)).map (·.1)).eraseDups

theorem ofDependencies_eq (distinct : ops.Nodup) (isOver : graph.Over ops) :
    ofDependencies ops (some graph) =
      .ok (ofEdges ops (graph.entries.flatMap (DependencyGraph.place ops))) := by
  have fresh : firstRepeated? ops [] = none := firstRepeated?_eq_none_iff.2 ⟨distinct, by simp⟩
  unfold ofDependencies
  rw [fresh]
  simp only [Option.elim, Except.ok_bind, DependencyGraph.edges_eq isOver distinct]
  rfl

/-- A graph over distinct operators is represented by position. -/
theorem exists_represents (distinct : ops.Nodup) (isOver : graph.Over ops) :
    ∃ g, ofDependencies ops (some graph) = .ok g ∧ g.Represents ops graph := by
  refine ⟨_, ofDependencies_eq distinct isOver, ?_⟩
  have mem_edges := DependencyGraph.mem_edges_iff isOver distinct
  generalize graph.entries.flatMap (DependencyGraph.place ops) = edges at mem_edges ⊢
  -- An edge has its ends in the list, so no row outside the list is missed.
  have inside {i j} (edge : (i, j) ∈ edges) : i < ops.length ∧ j < ops.length := by
    obtain ⟨a, b, atI, atJ, -⟩ := (mem_edges i j).1 edge
    exact ⟨(List.getElem?_eq_some_iff.1 atI).1, (List.getElem?_eq_some_iff.1 atJ).1⟩
  let g := ofEdges ops edges
  have mem_successors i j : j ∈ g.successorsOf i ↔ (i, j) ∈ edges := by
    simp only [g, ofEdges, successorsOf]
    rw [getD_map_range]
    split
    · simp [List.mem_eraseDups]
    · simpa using fun edge => absurd (inside edge).1 ‹_›
  have mem_predecessors i j : i ∈ g.predecessorsOf j ↔ (i, j) ∈ edges := by
    simp only [g, ofEdges, predecessorsOf]
    rw [getD_map_range]
    split
    · simp [List.mem_eraseDups]
    · simpa using fun edge => absurd (inside edge).2 ‹_›
  have edge_iff i j : g.Edge i j ↔
      ∃ a b, ops[i]? = some a ∧ ops[j]? = some b ∧ graph.Edge a b :=
    (mem_successors i j).trans (mem_edges i j)
  exact {
    operators := rfl
    distinct := distinct
    isOver := isOver
    edge_iff := edge_iff
    inside := fun i j edge => inside ((mem_successors i j).1 edge)
    loopless := fun i edge => by
      obtain ⟨a, b, atI, atI', edge⟩ := (edge_iff i i).1 edge
      rw [atI] at atI'
      exact isOver.loopless a (by rwa [← Option.some.inj atI'] at edge)
    predecessor_iff := fun i j => (mem_predecessors i j).trans (mem_successors i j).symm
    successors_nodup := fun i => by
      simp only [ofEdges, successorsOf]
      rw [getD_map_range]
      split
      · exact Distinct.nodup_eraseDups _
      · exact List.nodup_nil
    successors_length := by simp [ofEdges, size] }

/-- Positions are found only for distinct operators and a graph over them. -/
theorem of_ofDependencies_eq_ok (success : ofDependencies ops (some graph) = .ok g) :
    ops.Nodup ∧ graph.Over ops := by
  unfold ofDependencies at success
  split at success
  case h_1 => cases success
  case h_2 fresh =>
    rw [Option.elim_some, Except.ok_bind] at success
    obtain ⟨edges, areEdges, -⟩ := Except.bind_eq_ok_iff.1 success
    exact ⟨(firstRepeated?_eq_none_iff.1 fresh).1, DependencyGraph.over_of_edges_eq_ok areEdges⟩

/-! ## Operators at positions -/

namespace WellFormed

variable (wellFormed : g.WellFormed)

include wellFormed

theorem mem_select_iff {positions : List Nat} {op : Operator} {i : Nat}
    (found : g.operators[i]? = some op) : op ∈ g.select positions ↔ i ∈ positions := by
  simp only [select, List.mem_filterMap]
  constructor
  · intro holds
    rcases holds with ⟨j, member, found'⟩
    rwa [Distinct.eq_of_getElem? wellFormed.distinct found found']
  · intro member
    exact ⟨i, member, found⟩

theorem nodup_select {positions : List Nat} (distinct : positions.Nodup) :
    (g.select positions).Nodup :=
  distinct.filterMap fun _ _ _ first second =>
    Distinct.eq_of_getElem? wellFormed.distinct first second

theorem positions_select {positions : List Nat} (inside : ∀ i ∈ positions, i < g.size) :
    (g.select positions).filterMap g.operators.idxOf? = positions := by
  have found {i} (member : i ∈ positions) :
      (g.operators[i]?.bind fun op => g.operators.idxOf? op) = some i := by
    have isOperator := List.getElem?_eq_getElem (inside i member)
    rw [isOperator]
    exact (Distinct.idxOf?_eq_some_iff wellFormed.distinct).2 isOperator
  rw [select, List.filterMap_filterMap]
  exact (List.filterMap_congr fun i member => found member).trans List.filterMap_some

theorem select_positions {group : List Operator} (known : ∀ op ∈ group, op ∈ g.operators) :
    g.select (group.filterMap g.operators.idxOf?) = group := by
  have found {op} (member : op ∈ group) :
      ((g.operators.idxOf? op).bind fun i => g.operators[i]?) = some op := by
    obtain ⟨i, isPlace⟩ := Distinct.exists_idxOf?_of_mem (known op member)
    rw [isPlace]
    exact (Distinct.idxOf?_eq_some_iff wellFormed.distinct).1 isPlace
  rw [select, List.filterMap_filterMap]
  exact (List.filterMap_congr fun op member => found member).trans List.filterMap_some

end WellFormed

theorem select_range (g : OperatorGraph) : g.select (List.range g.size) = g.operators := by
  rw [select, size]
  induction g.operators using List.reverseRecOn with
  | nil => rfl
  | append_singleton ops op ih =>
    have front : (List.range ops.length).filterMap ((ops ++ [op])[·]?) = ops := by
      refine Eq.trans (List.filterMap_congr fun i member => ?_) ih
      exact List.getElem?_append_left (List.mem_range.1 member)
    rw [List.length_append, List.length_singleton, List.range_succ, List.filterMap_append, front]
    simp

theorem select_flatten (g : OperatorGraph) (groups : List (List Nat)) :
    g.select groups.flatten = (groups.map g.select).flatten := by
  simp only [select, List.filterMap_flatten]
  rfl

/-! ## Cycles -/

theorem Represents.edge_idxOf (represents : g.Represents ops graph) {a b : Operator}
    (edge : graph.Edge a b) : g.Edge (ops.idxOf a) (ops.idxOf b) := by
  have isSource := represents.isOver.source_mem edge
  have isTarget := represents.isOver.targets a b edge
  exact (represents.edge_iff _ _).2 ⟨a, b, by simp [isSource], by simp [isTarget], edge⟩

theorem Represents.transGen_idxOf (represents : g.Represents ops graph) {a b : Operator}
    (path : Relation.TransGen graph.Edge a b) :
    Relation.TransGen g.Edge (ops.idxOf a) (ops.idxOf b) :=
  path.lift (ops.idxOf ·) fun _ _ => represents.edge_idxOf

theorem Represents.idxOf_eq (represents : g.Represents ops graph) {i : Nat} {op : Operator}
    (found : ops[i]? = some op) : ops.idxOf op = i :=
  Distinct.idxOf_eq (represents.operators ▸ represents.distinct) found

/-- Cycles are the same by operator and by position. -/
theorem Represents.acyclic_iff (represents : g.Represents ops graph) :
    Acyclic g.Edge ↔ Acyclic graph.Edge := by
  have edge_iff := represents.edge_iff
  constructor
  · intro acyclic
    exact acyclic.of_map (ops.idxOf ·) fun _ _ => represents.edge_idxOf
  · intro acyclic i cycle
    obtain ⟨next, edge, -⟩ := Relation.TransGen.head'_iff.1 cycle
    obtain ⟨first, -, -, -, -⟩ := (edge_iff _ _).1 edge
    -- Positions without an operator have no edges; any operator stands for them.
    refine (acyclic.of_map (fun i => (ops[i]?).getD first) fun i j edge => ?_) i cycle
    obtain ⟨a, b, atI, atJ, edge⟩ := (edge_iff i j).1 edge
    simpa [atI, atJ] using edge

end OperatorGraph

end BatchGraph
