import BatchGraph.Proofs.Dependency.Stuck
import BatchGraph.Proofs.Plan.Condensed
import BatchGraph.Proofs.Plan.Exhaustive
import BatchGraph.Proofs.Plan.Greedy

/-!
What planning counts when it fails.

Greedy and exhaustive planning run operators only behind their dependencies, and so never a stuck
one; they fail as soon as nothing else remains, and count what remains.  Planning by merging counts
nodes.  A node on a cycle comes from an operator on a cycle (`Condensed.Faithful.cycle`), but a
stuck operator drags the others of its node along.
-/

namespace BatchGraph

open Relation

/-! ## Positions and operators -/

namespace OperatorGraph

variable {g : OperatorGraph} {ops : List Operator} {graph : DependencyGraph}

theorem Represents.edge_getElem? (represents : g.Represents ops graph) {i j : Nat}
    (edge : g.Edge i j) : ∃ a b, ops[i]? = some a ∧ ops[j]? = some b ∧ graph.Edge a b :=
  (represents.edge_iff i j).1 edge

/-- What is stuck is the same by operator and by position. -/
theorem Represents.stuck_iff (represents : g.Represents ops graph) {i : Nat} {op : Operator}
    (found : ops[i]? = some op) : Stuck g.Edge i ↔ Stuck graph.Edge op := by
  constructor
  · intro stuck
    have isOp := stuck.map (fun j => (ops[j]?).getD op) fun j k edge => by
      obtain ⟨a, b, atJ, atK, depends⟩ := represents.edge_getElem? edge
      simpa [atJ, atK] using depends
    simpa [found] using isOp
  · intro stuck
    have place := stuck.map (ops.idxOf ·) fun _ _ => represents.edge_idxOf
    rwa [represents.idxOf_eq found] at place

/-- As many positions are stuck as operators. -/
theorem Represents.ncard_stuck (represents : g.Represents ops graph) :
    {i | Stuck g.Edge i}.ncard = {op | Stuck graph.Edge op}.ncard := by
  have known (op : Operator) (stuck : Stuck graph.Edge op) : op ∈ ops := by
    obtain ⟨before, -, edge⟩ := stuck.exists_predecessor
    exact represents.isOver.targets before op edge
  have found (op : Operator) (member : op ∈ ops) : ops[ops.idxOf op]? = some op := by
    simp [member]
  symm
  refine Set.ncard_congr (fun op _ => ops.idxOf op) (fun op stuck => ?_)
    (fun a b stuckA _ same => ?_) (fun i stuck => ?_)
  · exact (represents.stuck_iff (found op (known op stuck))).2 stuck
  · exact (List.idxOf_inj (known a stuckA)).1 same
  · obtain ⟨before, -, edge⟩ := Stuck.exists_predecessor stuck
    obtain ⟨-, op, -, isOp, -⟩ := represents.edge_getElem? edge
    exact ⟨op, (represents.stuck_iff isOp).1 stuck, represents.idxOf_eq isOp⟩

end OperatorGraph

/-! ## Greedy planning -/

section Greedy

variable {g : OperatorGraph}

/-- As long as only operators that are not stuck have run, the steps are not over. -/
theorem Greedy.Waiting.length_ne (wellFormed : g.WellFormed) (cyclic : ¬ Acyclic g.Edge)
    {waiting : List (List Operator)} {freed done : List Nat} (waits : Waiting g waiting freed done)
    (clear : ∀ i ∈ done, ¬ Stuck g.Edge i) : done.length ≠ g.size := by
  intro all
  obtain ⟨i, stuck⟩ := exists_stuck cyclic
  obtain ⟨before, -, edge⟩ := stuck.exists_predecessor
  have remains := mem_remaining.2
    ⟨(wellFormed.inside before i edge).2, fun ran => clear i ran stuck⟩
  rw [waits.remaining_eq_nil_iff.2 all] at remains
  cases remains

/-- What can run behind operators that are not stuck is not stuck. -/
theorem Greedy.not_stuck_of_mem_runnable (wellFormed : g.WellFormed) {done : List Nat}
    (clear : ∀ i ∈ done, ¬ Stuck g.Edge i) {i : Nat} (atHand : i ∈ runnable g done) :
    ¬ Stuck g.Edge i := by
  have free := (isFree_iff wellFormed).1 (mem_runnable.1 atHand).2.2
  exact not_stuck_of_ready fun before edge => clear before (free before edge)

/-- A schedule of operators that wait for each other fails, and counts the stuck ones. -/
theorem Greedy.schedule_eq_error (wellFormed : g.WellFormed) (cyclic : ¬ Acyclic g.Edge)
    {steps : Nat} {waiting : List (List Operator)} {freed done : List Nat}
    (waits : Waiting g waiting freed done) (enough : g.size ≤ steps + done.length)
    (clear : ∀ i ∈ done, ¬ Stuck g.Edge i) :
    schedule g steps waiting freed done = .error (.cycle {i | Stuck g.Edge i}.ncard) := by
  have left := waits.length_ne wellFormed cyclic clear
  induction steps generalizing waiting freed done with
  | zero =>
    have count := waits.length_le
    exact absurd (by omega) left
  | succ steps ih =>
    unfold schedule
    rw [if_neg left]
    have fitted := waits.assign wellFormed
    generalize assignToGroups waiting (g.select freed) = waiting' at fitted ⊢
    dsimp only
    split
    case h_1 none =>
      obtain rfl := eq_nil_of_getElem?_largest none
      rw [ncard_stuck wellFormed.inside waits.once waits.inside clear (fitted.blocked wellFormed)]
    case h_2 group isGroup =>
      have member := List.mem_of_getElem? isGroup
      obtain ⟨isBatch, -, atHand⟩ := fitted.batch wellFormed member
      have next := fitted.run wellFormed isGroup
      have nonempty := fitted.fitted.nonempty group member
      generalize group.filterMap g.operators.idxOf? = batch at *
      have clear' : ∀ i ∈ (run g done batch).1, ¬ Stuck g.Edge i := by
        rw [run_fst, List.forall_mem_append]
        exact ⟨fun i inBatch => not_stuck_of_mem_runnable wellFormed clear
          (atHand i (List.mem_reverse.1 inBatch)), clear⟩
      have some_ : batch ≠ [] := by
        rintro rfl
        exact nonempty isBatch.symm
      have positive := List.length_pos_iff.2 some_
      rw [ih next ?_ clear' (next.length_ne wellFormed cyclic clear')]
      · rfl
      · rw [run_fst, List.length_append, List.length_reverse]
        omega

theorem greedyPlan_eq_error (wellFormed : g.WellFormed) (cyclic : ¬ Acyclic g.Edge) :
    greedyPlan g = .error (.cycle {i | Stuck g.Edge i}.ncard) :=
  Greedy.schedule_eq_error wellFormed cyclic (.start g) (by simp) (by simp)

end Greedy

/-! ## Exhaustive planning -/

section Exhaustive

variable {g : OperatorGraph} {remaining : List Nat}

/-- A stuck operator is not the only one. -/
theorem two_le_length_of_cyclic (wellFormed : g.WellFormed) (cyclic : ¬ Acyclic g.Edge)
    (left : ∀ i, Stuck g.Edge i → i ∈ remaining) : 2 ≤ remaining.length := by
  obtain ⟨i, stuck⟩ := exists_stuck cyclic
  obtain ⟨j, stuck', edge⟩ := stuck.exists_predecessor
  have differ : j ≠ i := by
    rintro rfl
    exact wellFormed.loopless j edge
  have both : [j, i].Nodup := by simpa using differ
  refine (both.subperm fun k member => ?_).length_le
  simp only [List.mem_cons, List.not_mem_nil, or_false] at member
  rcases member with rfl | rfl
  · exact left _ stuck'
  · exact left _ stuck

/-- Stuck operators remain behind every candidate. -/
theorem Exhaustive.Candidate.mem_without_of_stuck {group : List Nat}
    (candidate : Candidate g remaining group) (left : ∀ i, Stuck g.Edge i → i ∈ remaining) (i : Nat)
    (stuck : Stuck g.Edge i) : i ∈ without remaining group := by
  refine mem_without.2 ⟨left i stuck, fun inGroup => ?_⟩
  obtain ⟨j, stuck', edge⟩ := stuck.exists_predecessor
  exact candidate.free i inGroup j (left j stuck') edge

/-- The recursion fails at the first dead end, where exactly the stuck operators remain. -/
theorem Exhaustive.shortest_eq_error (wellFormed : g.WellFormed) (cyclic : ¬ Acyclic g.Edge)
    (depth : Nat) (inside : ∀ i ∈ remaining, i < g.size) (distinct : remaining.Nodup)
    (enough : remaining.length ≤ depth + 1) (left : ∀ i, Stuck g.Edge i → i ∈ remaining) :
    shortest g depth remaining = .error (.cycle {i | Stuck g.Edge i}.ncard) := by
  induction depth generalizing remaining with
  | zero => exact absurd (two_le_length_of_cyclic wellFormed cyclic left) (by omega)
  | succ depth ih =>
    rw [shortest_of_many (two_le_length_of_cyclic wellFormed cyclic left)]
    split
    case isTrue none =>
      have blocked : ∀ i ∈ remaining, ∃ j ∈ remaining, g.Edge j i := by
        intro i isLeft
        by_contra waits
        push Not at waits
        have isFree := (mem_free wellFormed).2 ⟨isLeft, waits⟩
        rw [← (candidates_perm wellFormed inside).mem_iff, none] at isFree
        cases isFree
      rw [ncard_stuck_eq_length distinct left blocked]
    case isFalse present =>
      obtain ⟨group, groups, split⟩ := List.exists_cons_of_ne_nil present
      have candidate := candidate_of_mem wellFormed inside distinct (split ▸ List.mem_cons_self)
      have fewer := candidate.length_without_lt
      have failure := ih (fun i member => inside i (mem_without.1 member).1) (distinct.filter _)
        (by omega) (candidate.mem_without_of_stuck left)
      rw [split, List.foldlM_cons, failure]
      rfl

theorem exhaustivePlan_eq_error (wellFormed : g.WellFormed) (cyclic : ¬ Acyclic g.Edge) :
    exhaustivePlan g = .error (.cycle {i | Stuck g.Edge i}.ncard) := by
  rw [exhaustivePlan_eq wellFormed, Exhaustive.shortest_eq_error wellFormed cyclic g.size
    (fun i member => List.mem_range.1 member) List.nodup_range (by simp) fun i stuck => ?_]
  · rfl
  · obtain ⟨before, -, edge⟩ := stuck.exists_predecessor
    exact List.mem_range.2 (wellFormed.inside before i edge).2

end Exhaustive

theorem singletonPlan_eq_error {g : OperatorGraph} (wellFormed : g.WellFormed)
    (cyclic : ¬ Acyclic g.Edge) :
    singletonPlan g = .error (.cycle {i | Stuck g.Edge i}.ncard) := by
  unfold singletonPlan
  rw [toposort_eq_error_of_cyclic wellFormed.leads_inside cyclic]
  rfl

/-! ## Planning by merging -/

namespace Condensed

variable {g : OperatorGraph} {c : Condensed} {group : List Nat}

/-- No path connects operators of one node, and a node on a cycle holds an operator on a cycle. -/
structure Faithful (c : Condensed) (g : OperatorGraph) : Prop where
  unconnected : ∀ i < g.size, ∀ j < g.size, i ≠ j → c.node i = c.node j → ¬ TransGen g.Edge i j
  cycle : ∀ n, TransGen (Leads c.forward) n n → ∃ i, c.node i = n ∧ TransGen g.Edge i i

theorem Faithful.ofGraph (g : OperatorGraph) : (Condensed.ofGraph g).Faithful g where
  unconnected i insideI j insideJ differ same := by
    simp [Condensed.node, Condensed.ofGraph, insideI, insideJ, differ] at same
  cycle n path := by
    refine ⟨n, ?_, path⟩
    by_cases inside : n < g.size <;> simp [Condensed.node, Condensed.ofGraph, inside]

theorem Condenses.leads_node (condenses : c.Condenses g) (i j : Nat) (edge : g.Edge i j) :
    Leads c.forward (c.node i) (c.node j) :=
  (condenses.leads_iff _ _).2 ⟨i, j, edge, rfl, rfl⟩

theorem Faithful.condense (wellFormed : g.WellFormed) (condenses : c.Condenses g)
    (apart : c.Apart g group) (faithful : c.Faithful g) : (c.condense group).Faithful g where
  unconnected i insideI j insideJ differ same path := by
    rw [node_condense condenses apart insideI, node_condense condenses apart insideJ] at same
    by_cases merges : c.node i ∈ group.map c.node ∧ c.node j ∈ group.map c.node
    · refine apart.unconnected i ((apart.node_mem_iff condenses insideI).1 merges.1) j
        ((apart.node_mem_iff condenses insideJ).1 merges.2) differ ?_
      exact path.lift c.node condenses.leads_node
    · have oldI := (condenses.inside i insideI).ne
      have oldJ := (condenses.inside j insideJ).ne
      refine faithful.unconnected i insideI j insideJ differ ?_ path
      unfold rename at same
      grind
  cycle n path := by
    obtain ⟨m, renamed, path'⟩ := exists_cycle_of_condense wellFormed condenses apart path
    obtain ⟨i, rfl, cycle⟩ := faithful.cycle m path'
    obtain ⟨next, edge, -⟩ := TransGen.head'_iff.1 cycle
    have inside := (wellFormed.inside i next edge).1
    exact ⟨i, (node_condense condenses apart inside).trans renamed, cycle⟩

/-- Different operators of one node are mergeable. -/
theorem Condenses.mergeable_of_node_eq (wellFormed : g.WellFormed) (condenses : c.Condenses g)
    {i j : Nat} {a b : Operator} (isA : g.operators[i]? = some a) (isB : g.operators[j]? = some b)
    (same : c.node i = c.node j) (differ : a ≠ b) : mergeable a [b] = true := by
  have once := wellFormed.nodup_select (condenses.once (c.node j))
  have member {k : Nat} {op : Operator} (found : g.operators[k]? = some op)
      (atNode : c.node k = c.node j) : op ∈ g.select (c.membersOf (c.node j)) := by
    rw [wellFormed.mem_select_iff found, condenses.mem_iff]
    exact ⟨(List.getElem?_eq_some_iff.1 found).1, atNode⟩
  exact (mergeableGroup_iff once).1 (condenses.batched _) a (member isA same) b (member isB rfl)
    differ

/-- If stuck operators are alone in their nodes, as many nodes are stuck as operators. -/
theorem Faithful.ncard_stuck (wellFormed : g.WellFormed) (condenses : c.Condenses g)
    (faithful : c.Faithful g)
    (alone : ∀ i, Stuck g.Edge i → ∀ j < g.size, c.node j = c.node i → j = i) :
    {n | Stuck (Leads c.forward) n}.ncard = {i | Stuck g.Edge i}.ncard := by
  symm
  refine Set.ncard_congr (fun i _ => c.node i) (fun i stuck => ?_) (fun i j stuckI stuckJ same => ?_)
    (fun n stuck => ?_)
  · exact Stuck.map c.node condenses.leads_node stuck
  · obtain ⟨before, -, edge⟩ := Stuck.exists_predecessor stuckI
    exact alone j stuckJ i (wellFormed.inside before i edge).2 same
  · -- The path from the cycle to the node runs through stuck operators, one after the other.
    obtain ⟨start, cycle, path⟩ := stuck
    induction path with
    | refl =>
      obtain ⟨i, rfl, cycle'⟩ := faithful.cycle start cycle
      exact ⟨i, ⟨i, cycle', .refl⟩, rfl⟩
    | tail _ edge ih =>
      obtain ⟨i, stuck, same⟩ := ih
      obtain ⟨j, k, depends, rfl, rfl⟩ := (condenses.leads_iff _ _).1 edge
      obtain rfl := alone i stuck j (wellFormed.inside j k depends).1 same.symm
      exact ⟨k, Stuck.of_edge stuck depends, rfl⟩

end Condensed

namespace Merging

variable {g : OperatorGraph} {m : Merging}

/-- A step leaves the graph as it is or merges a batch. -/
theorem Sound.step_graph (sound : m.Sound g) :
    (m.step g).graph = m.graph ∨
      ∃ group, m.graph.Apart g group ∧ (m.step g).graph = m.graph.condense group := by
  unfold Merging.step
  split
  case h_1 => exact .inl rfl
  case h_2 seed rest split =>
    dsimp only
    split
    · exact .inl rfl
    · exact .inr ⟨_, sound.apart split, rfl⟩

/-- What merging a batch keeps is kept by all steps. -/
theorem Sound.invariant_of_steps (wellFormed : g.WellFormed) (sound : m.Sound g)
    (keeps : Condensed → Prop)
    (merge : ∀ (c : Condensed) (group : List Nat), c.Condenses g → c.Apart g group → keeps c →
      keeps (c.condense group))
    (holds : keeps m.graph) (count : Nat) :
    keeps (Merging.steps g count m).graph := by
  induction count generalizing m with
  | zero => exact holds
  | succ count ih =>
    refine ih (sound.step wellFormed) ?_
    rcases sound.step_graph with same | ⟨group, apart, same⟩
    · rwa [same]
    · rw [same]
      exact merge m.graph group sound.condenses apart holds

theorem Sound.faithful_steps (wellFormed : g.WellFormed) (sound : m.Sound g)
    (faithful : m.graph.Faithful g) (count : Nat) :
    (Merging.steps g count m).graph.Faithful g :=
  sound.invariant_of_steps wellFormed (·.Faithful g)
    (fun _ _ condenses apart faithful => faithful.condense wellFormed condenses apart) faithful count

/-- The graph in which nothing is left to merge. -/
def condensed (g : OperatorGraph) : Condensed := (steps g g.size (start g)).graph

theorem condenses_condensed (wellFormed : g.WellFormed) : (condensed g).Condenses g :=
  ((Sound.start wellFormed).steps wellFormed g.size).condenses

theorem faithful_condensed (wellFormed : g.WellFormed) : (condensed g).Faithful g :=
  (Sound.start wellFormed).faithful_steps wellFormed (.ofGraph g) g.size

/-- The node that an operator is merged into. -/
def home (g : OperatorGraph) (op : Operator) : Nat := (condensed g).node (g.operators.idxOf op)

end Merging

/-- Where operators wait for each other, planning by merging counts the stuck nodes. -/
theorem condensedPlan_eq_error {g : OperatorGraph} (wellFormed : g.WellFormed)
    (cyclic : ¬ Acyclic g.Edge) :
    condensedPlan g =
      .error (.cycle {n | Stuck (Leads (Merging.condensed g).forward) n}.ncard) := by
  have condenses := Merging.condenses_condensed wellFormed
  have cyclic' : ¬ Acyclic (Leads (Merging.condensed g).forward) := fun acyclic =>
    cyclic (acyclic.of_map _ condenses.leads_node)
  have failure := toposort_eq_error_of_cyclic
    (fun a b edge => (condenses.leads_lt wellFormed edge).2) cyclic'
  have order : (Merging.condensed g).order =
      .error (.cycle {n | Stuck (Leads (Merging.condensed g).forward) n}.ncard) := by
    unfold Condensed.order
    rw [failure]
    rfl
  calc condensedPlan g = (Merging.condensed g).order >>= fun nodes =>
        .ok (nodes.map fun node => g.select ((Merging.condensed g).membersOf node)) := rfl
    _ = _ := by rw [order]; rfl

/-! ## Merged operators -/

namespace OperatorGraph.Represents

variable {g : OperatorGraph} {ops : List Operator} {graph : DependencyGraph}
  (represents : g.Represents ops graph)

include represents

theorem lt_size {i : Nat} {op : Operator} (found : ops[i]? = some op) : i < g.size := by
  rw [size, represents.operators]
  exact (List.getElem?_eq_some_iff.1 found).1

theorem home_eq {i : Nat} {op : Operator} (found : ops[i]? = some op) :
    Merging.home g op = (Merging.condensed g).node i := by
  rw [Merging.home, represents.operators, represents.idxOf_eq found]

/-- Nodes depend on each other as the operators that were merged into them do. -/
theorem leads_condensed :
    Leads (Merging.condensed g).forward =
      Relation.Map graph.Edge (Merging.home g) (Merging.home g) := by
  have condenses := Merging.condenses_condensed represents.toWellFormed
  funext m n
  refine propext ((condenses.leads_iff m n).trans ⟨fun holds => ?_, fun holds => ?_⟩)
  · obtain ⟨i, j, edge, rfl, rfl⟩ := holds
    obtain ⟨a, b, isA, isB, depends⟩ := represents.edge_getElem? edge
    exact ⟨a, b, depends, represents.home_eq isA, represents.home_eq isB⟩
  · obtain ⟨a, b, depends, rfl, rfl⟩ := holds
    refine ⟨_, _, represents.edge_idxOf depends, ?_, ?_⟩ <;>
      rw [Merging.home, represents.operators]

/-- Operators are merged only if they are mergeable and not connected. -/
theorem merged_of_home_eq {a b : Operator} (isA : a ∈ ops) (isB : b ∈ ops) (differ : a ≠ b)
    (same : Merging.home g a = Merging.home g b) :
    mergeable a [b] = true ∧ ¬ TransGen graph.Edge a b := by
  have wellFormed := represents.toWellFormed
  obtain ⟨i, atA⟩ := List.mem_iff_getElem?.1 isA
  obtain ⟨j, atB⟩ := List.mem_iff_getElem?.1 isB
  rw [represents.home_eq atA, represents.home_eq atB] at same
  constructor
  · refine (Merging.condenses_condensed wellFormed).mergeable_of_node_eq wellFormed ?_ ?_ same differ
    · rwa [represents.operators]
    · rwa [represents.operators]
  · intro path
    have path' := represents.transGen_idxOf path
    rw [represents.idxOf_eq atA, represents.idxOf_eq atB] at path'
    refine (Merging.faithful_condensed wellFormed).unconnected i (represents.lt_size atA) j
      (represents.lt_size atB) ?_ same path'
    rintro rfl
    exact differ (Option.some.inj (atA.symm.trans atB))

/-- If every stuck operator is connected to what it is mergeable with, it stays alone, and as many
nodes are stuck as operators. -/
theorem ncard_stuck_condensed
    (connected : ∀ a ∈ ops, ∀ b ∈ ops, Stuck graph.Edge a → a ≠ b → mergeable a [b] = true →
      TransGen graph.Edge a b ∨ TransGen graph.Edge b a) :
    {n | Stuck (Leads (Merging.condensed g).forward) n}.ncard =
      {op | Stuck graph.Edge op}.ncard := by
  have wellFormed := represents.toWellFormed
  rw [← represents.ncard_stuck]
  refine (Merging.faithful_condensed wellFormed).ncard_stuck wellFormed
    (Merging.condenses_condensed wellFormed) fun i stuck j inside same => ?_
  obtain ⟨before, -, edge⟩ := stuck.exists_predecessor
  obtain ⟨-, a, -, isA, -⟩ := represents.edge_getElem? edge
  obtain ⟨b, isB⟩ : ∃ b, ops[j]? = some b := by
    rw [size, represents.operators] at inside
    exact ⟨_, List.getElem?_eq_getElem inside⟩
  have knownA := List.mem_of_getElem? isA
  have knownB := List.mem_of_getElem? isB
  rw [← represents.home_eq isA, ← represents.home_eq isB] at same
  by_contra differ
  have differ' : a ≠ b := by
    rintro rfl
    exact differ ((represents.idxOf_eq isB).symm.trans (represents.idxOf_eq isA))
  obtain ⟨merges, apart⟩ := represents.merged_of_home_eq knownA knownB differ' same.symm
  obtain ⟨-, apart'⟩ := represents.merged_of_home_eq knownB knownA differ'.symm same
  have stuckA := (represents.stuck_iff isA).1 stuck
  exact (connected a knownA b knownB stuckA differ' merges).elim apart apart'

end OperatorGraph.Represents

end BatchGraph
