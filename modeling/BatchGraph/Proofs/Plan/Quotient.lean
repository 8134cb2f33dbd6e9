import BatchGraph.Proofs.Plan.Stuck
import BatchGraph.Proofs.Planner

/-!
The condensed graph is the quotient of the dependencies by what was merged.

After any number of steps the nodes that are alive are the classes of a partition of the operators,
and depend on each other as the members of the classes do (`Condensed.IsQuotient`).  Nothing else is
left in the graph: a node that was merged into another one has neither members nor edges.
-/

namespace BatchGraph

namespace Condensed

variable {g : OperatorGraph} {c : Condensed} {ops : List Operator} {graph : DependencyGraph}

/-- Some member of the first node has a member of the second one as a direct successor. -/
def Precedes (c : Condensed) (ops : List Operator) (graph : DependencyGraph) (m n : Nat) : Prop :=
  ∃ i ∈ c.membersOf m, ∃ j ∈ c.membersOf n, ∃ a b, ops[i]? = some a ∧ ops[j]? = some b ∧
    graph.Edge a b

/-- The nodes that are alive are the quotient of the dependencies by a partition of the positions,
and the other ones are empty. -/
structure IsQuotient (c : Condensed) (ops : List Operator) (graph : DependencyGraph) : Prop where
  distinct : c.alive.Nodup
  inhabited : ∀ node ∈ c.alive, c.membersOf node ≠ []
  partition : (c.alive.flatMap c.membersOf).Perm (List.range ops.length)
  located : ∀ i < ops.length, ∃ node ∈ c.alive, c.nodeOf[i]? = some node ∧ i ∈ c.membersOf node
  leads_iff : ∀ m ∈ c.alive, ∀ n ∈ c.alive, m ≠ n →
    (n ∈ c.forwardOf m ↔ c.Precedes ops graph m n)
  loopless : ∀ node ∈ c.alive, node ∉ c.forwardOf node
  vacated : ∀ node, node ∉ c.alive →
    c.membersOf node = [] ∧ c.forwardOf node = [] ∧ ∀ other, node ∉ c.forwardOf other
  acyclic : Acyclic graph.Edge → Acyclic fun m n => n ∈ c.forwardOf m

/-- No node comes alive twice. -/
theorem nodup_alive_condense {group : List Nat} (condenses : c.Condenses g)
    (distinct : c.alive.Nodup) : (c.condense group).alive.Nodup := by
  refine List.nodup_append.2 ⟨distinct.filter _, List.nodup_singleton _, ?_⟩
  intro node isAlive merged isMerged same
  have old := (condenses.alive_iff node).1 (List.mem_filter.1 isAlive).1
  obtain ⟨i, inside, rfl⟩ := old
  have bound := condenses.inside i inside
  rw [same, List.mem_singleton.1 isMerged] at bound
  exact Nat.lt_irrefl _ bound

namespace Condenses

theorem getElem?_nodeOf (condenses : c.Condenses g) {i : Nat} (inside : i < g.size) :
    c.nodeOf[i]? = some (c.node i) := by
  rw [← condenses.nodes_length] at inside
  rw [node, List.getElem?_eq_getElem inside, Option.getD_some]

/-- Every position is in one of the nodes, once. -/
theorem partition (condenses : c.Condenses g) (distinct : c.alive.Nodup) :
    (c.alive.flatMap c.membersOf).Perm (List.range g.size) := by
  have node_eq {node i : Nat} (member : i ∈ c.membersOf node) : c.node i = node :=
    ((condenses.mem_iff node i).1 member).2
  refine (List.perm_ext_iff_of_nodup ?_ List.nodup_range).2 fun i => ?_
  · refine List.nodup_flatMap.2 ⟨fun node _ => condenses.once node, distinct.imp ?_⟩
    intro m n differ i first second
    exact differ ((node_eq first).symm.trans (node_eq second))
  · rw [List.mem_flatMap, List.mem_range]
    constructor
    · rintro ⟨node, -, member⟩
      exact ((condenses.mem_iff node i).1 member).1
    · intro inside
      exact ⟨c.node i, (condenses.alive_iff _).2 ⟨i, inside, rfl⟩,
        (condenses.mem_iff _ i).2 ⟨inside, rfl⟩⟩

theorem quotient (condenses : c.Condenses g) (represents : g.Represents ops graph)
    (distinct : c.alive.Nodup) : c.IsQuotient ops graph := by
  have size : g.size = ops.length := congrArg List.length represents.operators
  -- Only nodes of operators have edges.
  have ends {m n : Nat} (edge : n ∈ c.forwardOf m) : m ∈ c.alive ∧ n ∈ c.alive := by
    obtain ⟨i, j, depends, rfl, rfl⟩ := (condenses.leads_iff m n).1 edge
    have inside := represents.inside i j depends
    exact ⟨(condenses.alive_iff _).2 ⟨i, inside.1, rfl⟩,
      (condenses.alive_iff _).2 ⟨j, inside.2, rfl⟩⟩
  have precedes (m n : Nat) : n ∈ c.forwardOf m ↔ c.Precedes ops graph m n := by
    refine (condenses.leads_iff m n).trans ⟨fun holds => ?_, fun holds => ?_⟩
    · obtain ⟨i, j, edge, rfl, rfl⟩ := holds
      have inside := represents.inside i j edge
      exact ⟨i, (condenses.mem_iff _ i).2 ⟨inside.1, rfl⟩, j,
        (condenses.mem_iff _ j).2 ⟨inside.2, rfl⟩, (represents.edge_iff i j).1 edge⟩
    · obtain ⟨i, isI, j, isJ, edge⟩ := holds
      exact ⟨i, j, (represents.edge_iff i j).2 edge, ((condenses.mem_iff m i).1 isI).2,
        ((condenses.mem_iff n j).1 isJ).2⟩
  refine ⟨distinct, fun node isAlive => ?inhabited, size ▸ condenses.partition distinct,
    fun i inside => ?located, fun m _ n _ _ => precedes m n, fun node _ edge => ?loopless,
    fun node gone => ⟨?members, ?outgoing, fun other edge => gone (ends edge).2⟩,
    fun acyclic => condenses.acyclic (represents.acyclic_iff.2 acyclic)⟩
  case inhabited =>
    obtain ⟨i, inside, same⟩ := (condenses.alive_iff node).1 isAlive
    exact List.ne_nil_of_mem ((condenses.mem_iff node i).2 ⟨inside, same⟩)
  case located =>
    rw [← size] at inside
    exact ⟨c.node i, (condenses.alive_iff _).2 ⟨i, inside, rfl⟩,
      condenses.getElem?_nodeOf inside, (condenses.mem_iff _ i).2 ⟨inside, rfl⟩⟩
  case loopless =>
    obtain ⟨i, j, depends, atI, atJ⟩ := (condenses.leads_iff node node).1 edge
    exact condenses.apart i j depends (atI.trans atJ.symm)
  case members =>
    refine List.eq_nil_iff_forall_not_mem.2 fun i member => gone ?_
    obtain ⟨inside, same⟩ := (condenses.mem_iff node i).1 member
    exact (condenses.alive_iff node).2 ⟨i, inside, same⟩
  case outgoing =>
    exact List.eq_nil_iff_forall_not_mem.2 fun other edge => gone (ends edge).1

end Condenses

end Condensed

namespace OperatorGraph

variable {g : OperatorGraph} {ops : List Operator}

/-- A graph by position represents the dependencies that it was made from, given or derived. -/
theorem exists_represents_of_eq_ok {graph? : Option DependencyGraph}
    (success : ofDependencies ops graph? = .ok g) :
    ∃ graph, graph?.elim (DependencyGraph.derive ops) .ok = .ok graph ∧
      g.Represents ops graph := by
  have given : ∃ graph, graph?.elim (DependencyGraph.derive ops) .ok = .ok graph ∧
      ofDependencies ops (some graph) = .ok g := by
    unfold ofDependencies at success ⊢
    split at success
    case h_1 => cases success
    case h_2 fresh =>
      obtain ⟨graph, isGraph, success⟩ := Except.bind_eq_ok_iff.1 success
      refine ⟨graph, isGraph, ?_⟩
      rwa [Option.elim_some, Except.ok_bind]
  obtain ⟨graph, isGraph, success'⟩ := given
  obtain ⟨distinct, isOver⟩ := of_ofDependencies_eq_ok success'
  obtain ⟨g', success'', represents⟩ := exists_represents distinct isOver
  obtain rfl := Except.ok.inj (success'.symm.trans success'')
  exact ⟨graph, isGraph, represents⟩

end OperatorGraph

namespace Merging

variable {g : OperatorGraph} {ops : List Operator}

/-- After any number of steps, the condensed graph is a quotient of the dependencies. -/
theorem steps_quotient {graph? : Option DependencyGraph}
    (success : OperatorGraph.ofDependencies ops graph? = .ok g) :
    ∃ graph, graph?.elim (DependencyGraph.derive ops) .ok = .ok graph ∧
      ∀ count, (Merging.steps g count (Merging.start g)).graph.IsQuotient ops graph := by
  obtain ⟨graph, isGraph, represents⟩ := OperatorGraph.exists_represents_of_eq_ok success
  have wellFormed := represents.toWellFormed
  have sound := Sound.start wellFormed
  refine ⟨graph, isGraph, fun count => ?_⟩
  refine (sound.steps wellFormed count).condenses.quotient represents ?_
  refine sound.invariant_of_steps wellFormed (·.alive.Nodup)
    (fun c group condenses _ distinct => ?_) ?_ count
  · exact Condensed.nodup_alive_condense condenses distinct
  · exact List.nodup_range

open Planner (task pair pair_edge_iff)

/-- The last of three tasks is merged with the first; the second one waits for that. -/
theorem steps_quotient_pair :
    ∃ g, OperatorGraph.ofDependencies [task 0, task 1, task 2] (some (pair [])) = .ok g ∧
      (Merging.steps g 1 (Merging.start g)).graph.members = [[], [1], [], [2, 0]] ∧
      (Merging.steps g 1 (Merging.start g)).graph.IsQuotient [task 0, task 1, task 2] (pair []) := by
  have isOver : (pair []).Over [task 0, task 1, task 2] := by
    refine ⟨by simp [pair], fun a b edge => ?_, fun a edge => ?_⟩
    · rcases pair_edge_iff.1 edge with ⟨-, rfl⟩ | ⟨-, none⟩
      · simp
      · cases none
    · rcases pair_edge_iff.1 edge with ⟨rfl, same⟩ | ⟨-, none⟩
      · exact absurd same (by decide)
      · cases none
  have success := OperatorGraph.ofDependencies_eq (by decide) isOver
  obtain ⟨graph, isGraph, quotient⟩ := steps_quotient success
  obtain rfl : pair [] = graph := Except.ok.inj isGraph
  exact ⟨_, success, by decide +kernel, quotient 1⟩

end Merging

end BatchGraph
