import BatchGraph.Plan.Condensed
import BatchGraph.Proofs.Dependency.Closure
import BatchGraph.Proofs.Plan.Singleton

/-!
Merging unconnected operators neither makes a cycle nor loses one.

`Condensed.Condenses` says that the condensed graph has the dependencies of the operators between
their nodes, none of them inside a node.  One merge keeps this (`Condenses.condense`): nodes that no
path connects are identified, which leaves an acyclic graph acyclic, and an edge of the original
graph never ends up inside a node, so that its cycles stay as well.
-/

namespace BatchGraph

open Relation

namespace Condensed

variable {g : OperatorGraph} {c : Condensed} {group : List Nat}

theorem getD_mapIdx_append {f : Nat → List Nat → List Nat} (empty : ∀ m, f m [] = [])
    (rows : List (List Nat)) (last : List Nat) (m : Nat) :
    ((rows.mapIdx f ++ [last])[m]?).getD [] =
      if m = rows.length then last else f m ((rows[m]?).getD []) := by
  rw [List.getElem?_append, List.length_mapIdx, List.getElem?_mapIdx]
  rcases Nat.lt_trichotomy m rows.length with before | rfl | behind
  · simp [before, Nat.ne_of_lt before]
  · simp
  · simp [Nat.not_lt_of_gt behind, Nat.ne_of_gt behind, Nat.sub_ne_zero_of_lt behind, empty]

/-- The nodes are a partition of the operators into batches, and lead to each other as their members
do. -/
structure Condenses (c : Condensed) (g : OperatorGraph) : Prop where
  nodes_length : c.nodeOf.length = g.size
  members_length : c.members.length = c.forward.length
  inside : ∀ i < g.size, c.node i < c.forward.length
  mem_iff : ∀ node i, i ∈ c.membersOf node ↔ i < g.size ∧ c.node i = node
  once : ∀ node, (c.membersOf node).Nodup
  alive_iff : ∀ node, node ∈ c.alive ↔ ∃ i < g.size, c.node i = node
  leads_iff : ∀ m n, Leads c.forward m n ↔ ∃ i j, g.Edge i j ∧ c.node i = m ∧ c.node j = n
  apart : ∀ i j, g.Edge i j → c.node i ≠ c.node j
  batched : ∀ node, MergeableGroup (g.select (c.membersOf node))
  acyclic : Acyclic g.Edge → Acyclic (Leads c.forward)

theorem Condenses.ofGraph (wellFormed : g.WellFormed) : (ofGraph g).Condenses g := by
  have node (i : Nat) : (Condensed.ofGraph g).node i = i := by
    by_cases inside : i < g.size
    · simp [Condensed.node, Condensed.ofGraph, inside]
    · simp [Condensed.node, Condensed.ofGraph, inside]
  have members (node : Nat) :
      (Condensed.ofGraph g).membersOf node = if node < g.size then [node] else [] :=
    getD_map_range ([·]) g.size node
  have length : (Condensed.ofGraph g).forward.length = g.size := wellFormed.successors_length
  refine ⟨by simp [Condensed.ofGraph], ?_, fun i inside => ?_, fun n i => ?_, fun n => ?_,
    fun n => ?_, fun m n => ?_, fun i j edge => ?_, fun n => ?_, id⟩
  · simp [Condensed.ofGraph, wellFormed.successors_length]
  · rwa [node, length]
  · rw [members, node]
    grind
  · rw [members]
    split
    · exact List.nodup_singleton n
    · exact List.nodup_nil
  · simp only [node, exists_eq_right]
    exact List.mem_range
  · simp only [node]
    exact ⟨fun edge => ⟨m, n, edge, rfl, rfl⟩, by rintro ⟨i, j, edge, rfl, rfl⟩; exact edge⟩
  · rw [node, node]
    intro same
    subst same
    exact wellFormed.loopless i edge
  · rw [members]
    split
    · exact g.mergeableGroup_select_singleton n
    · exact List.Pairwise.nil

/-! ## One merge -/

/-- A batch of operators that are alone in nodes that no path connects. -/
structure Apart (c : Condensed) (g : OperatorGraph) (group : List Nat) : Prop where
  nonempty : group ≠ []
  distinct : group.Nodup
  alone : ∀ i ∈ group, i < g.size ∧ c.membersOf (c.node i) = [i]
  batched : MergeableGroup (g.select group)
  unconnected : ∀ i ∈ group, ∀ j ∈ group, i ≠ j →
    ¬ TransGen (Leads c.forward) (c.node i) (c.node j)

/-- What becomes of a node. -/
def rename (c : Condensed) (group : List Nat) (node : Nat) : Nat :=
  if node ∈ group.map c.node then c.forward.length else node

theorem rename_eq_of_ne {m n : Nat} (old : n ≠ c.forward.length) :
    c.rename group m = n ↔ m = n ∧ m ∉ group.map c.node := by
  unfold rename
  split
  case isTrue merges => simp [merges, Ne.symm old]
  case isFalse stays => simp [stays]

theorem rename_eq_last {m : Nat} (old : m ≠ c.forward.length) :
    c.rename group m = c.forward.length ↔ m ∈ group.map c.node := by
  unfold rename
  split
  case isTrue merges => simp [merges]
  case isFalse stays => simp [stays, old]

/-- Edges to merged nodes lead to the new one instead. -/
theorem mem_redirect {targets : List Nat} {n : Nat} :
    n ∈ (if targets.any (group.map c.node).contains then
        targets.filter (fun node => !(group.map c.node).contains node) ++ [c.forward.length]
      else targets) ↔
      ∃ b ∈ targets, c.rename group b = n := by
  unfold rename
  split
  case isTrue some_ =>
    obtain ⟨target, isTarget, merges⟩ := List.any_eq_true.1 some_
    rw [List.contains_iff_mem] at merges
    grind
  case isFalse none =>
    rw [List.any_eq_true] at none
    push Not at none
    grind

section Condense

variable (wellFormed : g.WellFormed) (condenses : c.Condenses g)

include wellFormed condenses in
theorem Condenses.leads_lt {m n : Nat} (edge : Leads c.forward m n) :
    m < c.forward.length ∧ n < c.forward.length := by
  obtain ⟨i, j, depends, rfl, rfl⟩ := (condenses.leads_iff m n).1 edge
  have inside := wellFormed.inside i j depends
  exact ⟨condenses.inside i inside.1, condenses.inside j inside.2⟩

variable (apart : c.Apart g group)

include condenses apart

theorem Apart.eq_of_node_eq {i j : Nat} (member : i ∈ group) (inside : j < g.size)
    (same : c.node j = c.node i) : j = i := by
  have holds := (condenses.mem_iff (c.node i) j).2 ⟨inside, same⟩
  rwa [(apart.alone i member).2, List.mem_singleton] at holds

theorem Apart.node_mem_iff {i : Nat} (inside : i < g.size) :
    c.node i ∈ group.map c.node ↔ i ∈ group := by
  constructor
  · intro merges
    obtain ⟨j, member, same⟩ := List.mem_map.1 merges
    rwa [apart.eq_of_node_eq condenses member inside same.symm]
  · exact List.mem_map_of_mem

theorem Apart.node_lt {m : Nat} (merges : m ∈ group.map c.node) : m < c.forward.length := by
  obtain ⟨i, member, rfl⟩ := List.mem_map.1 merges
  exact condenses.inside i (apart.alone i member).1

/-- The nodes of the batch are different. -/
theorem Apart.eraseDups_nodes : (group.map c.node).eraseDups = group.map c.node := by
  apply Distinct.eraseDups_of_nodup
  refine List.Nodup.map_on (fun i isI j isJ same => ?_) apart.distinct
  exact apart.eq_of_node_eq condenses isJ (apart.alone i isI).1 same

omit condenses in
theorem Apart.flatMap_membersOf : (group.map c.node).flatMap c.membersOf = group := by
  rw [List.flatMap_map]
  exact (List.flatMap_congr fun i member => (apart.alone i member).2).trans
    (List.flatMap_singleton' group)

/-- No edge leads from one merged node to another one. -/
theorem Apart.not_leads {m n : Nat} (first : m ∈ group.map c.node)
    (second : n ∈ group.map c.node) : ¬ Leads c.forward m n := by
  intro edge
  obtain ⟨i, isI, rfl⟩ := List.mem_map.1 first
  obtain ⟨j, isJ, rfl⟩ := List.mem_map.1 second
  by_cases same : i = j
  · subst same
    obtain ⟨a, b, depends, atFirst, atSecond⟩ := (condenses.leads_iff _ _).1 edge
    exact condenses.apart a b depends (atFirst.trans atSecond.symm)
  · exact apart.unconnected i isI j isJ same (.single edge)

/-! ## What a merge changes -/

theorem node_condense {i : Nat} (inside : i < g.size) :
    (c.condense group).node i = c.rename group (c.node i) := by
  have known : i < c.nodeOf.length := condenses.nodes_length ▸ inside
  have renamed : (c.condense group).node i =
      if i ∈ group then c.forward.length else c.node i := by
    unfold node condense
    simp [apart.eraseDups_nodes condenses, apart.flatMap_membersOf, known]
  simp only [renamed, rename, apart.node_mem_iff condenses inside]

theorem membersOf_condense (m : Nat) :
    (c.condense group).membersOf m =
      if m = c.forward.length then group
      else if m ∈ group.map c.node then [] else c.membersOf m := by
  unfold membersOf condense
  simp only [apart.eraseDups_nodes condenses, apart.flatMap_membersOf]
  rw [getD_mapIdx_append (by simp), condenses.members_length]
  simp

theorem mem_membersOf_condense {m i : Nat} :
    i ∈ (c.condense group).membersOf m ↔ i < g.size ∧ (c.condense group).node i = m := by
  have renamed (inside : i < g.size) := node_condense condenses apart inside
  have old (inside : i < g.size) := (condenses.inside i inside).ne
  rw [membersOf_condense condenses apart]
  by_cases last : m = c.forward.length
  · subst last
    rw [if_pos rfl]
    constructor
    · intro member
      have inside := (apart.alone i member).1
      rw [renamed inside, rename_eq_last (old inside)]
      exact ⟨inside, List.mem_map_of_mem member⟩
    · intro holds
      rcases holds with ⟨inside, same⟩
      rw [renamed inside, rename_eq_last (old inside)] at same
      exact (apart.node_mem_iff condenses inside).1 same
  · have stays : i ∈ (if m ∈ group.map c.node then [] else c.membersOf m) ↔
        (i < g.size ∧ c.node i = m) ∧ m ∉ group.map c.node := by
      split
      case isTrue merges => simp [merges]
      case isFalse stays => simp [stays, condenses.mem_iff]
    rw [if_neg last, stays, and_assoc, and_congr_right_iff]
    intro inside
    rw [renamed inside, rename_eq_of_ne last]
    apply and_congr_right
    intro same
    rw [same]

include wellFormed

theorem leads_condense (m n : Nat) :
    Leads (c.condense group).forward m n ↔
      ∃ a b, Leads c.forward a b ∧ c.rename group a = m ∧ c.rename group b = n := by
  unfold Leads condense
  simp only [apart.eraseDups_nodes condenses]
  rw [getD_mapIdx_append (by simp)]
  by_cases last : m = c.forward.length
  · subst last
    rw [if_pos rfl, List.mem_eraseDups, List.mem_filter, List.mem_flatMap]
    constructor
    · intro holds
      rcases holds with ⟨⟨a, merges, edge⟩, stays⟩
      refine ⟨a, n, edge, (rename_eq_last (apart.node_lt condenses merges).ne).2 merges, ?_⟩
      have old := (condenses.leads_lt wellFormed edge).2.ne
      exact (rename_eq_of_ne old).2 ⟨rfl, by simpa using stays⟩
    · intro holds
      rcases holds with ⟨a, b, edge, isMerged, rfl⟩
      have bound := condenses.leads_lt wellFormed edge
      have merges := (rename_eq_last bound.1.ne).1 isMerged
      have stays : b ∉ group.map c.node := fun again => apart.not_leads condenses merges again edge
      rw [rename, if_neg stays]
      exact ⟨⟨a, merges, edge⟩, by simpa using stays⟩
  · rw [if_neg last]
    simp only [rename_eq_of_ne last]
    by_cases merges : m ∈ group.map c.node
    · rw [if_pos (by simpa using merges)]
      simp only [List.not_mem_nil, false_iff]
      intro holds
      rcases holds with ⟨a, b, -, ⟨rfl, stays⟩, -⟩
      exact stays merges
    · rw [if_neg (by simpa using merges), mem_redirect]
      constructor
      · intro holds
        rcases holds with ⟨b, edge, same⟩
        exact ⟨m, b, edge, ⟨rfl, merges⟩, same⟩
      · intro holds
        rcases holds with ⟨a, b, edge, ⟨rfl, -⟩, same⟩
        exact ⟨b, edge, same⟩

/-- A merge makes no cycle: those of the new graph are those of the old one. -/
theorem exists_cycle_of_condense {n : Nat}
    (cycle : TransGen (Leads (c.condense group).forward) n n) :
    ∃ m, c.rename group m = n ∧ TransGen (Leads c.forward) m m := by
  -- The new node is `none`, so that it differs from every other number.
  let f : Nat → Option Nat := fun node => if node ∈ group.map c.node then none else some node
  let seen : Nat → Option Nat := fun node => if node = c.forward.length then none else some node
  have renames (m : Nat) (bound : m < c.forward.length) : seen (c.rename group m) = f m := by
    simp only [seen, f, rename]
    split <;> simp [bound.ne]
  have traced : TransGen (fun m n => ∃ a b, Leads c.forward a b ∧ f a = m ∧ f b = n)
      (seen n) (seen n) := by
    refine cycle.lift seen fun m n edge => ?_
    obtain ⟨a, b, edge', rfl, rfl⟩ := (leads_condense wellFormed condenses apart m n).1 edge
    have bound := condenses.leads_lt wellFormed edge'
    exact ⟨a, b, edge', (renames a bound.1).symm, (renames b bound.2).symm⟩
  have unconnected (a b : Nat) (first : a ∈ group.map c.node) (second : b ∈ group.map c.node)
      (differ : a ≠ b) : ¬ TransGen (Leads c.forward) a b := by
    obtain ⟨i, isI, rfl⟩ := List.mem_map.1 first
    obtain ⟨j, isJ, rfl⟩ := List.mem_map.1 second
    exact apart.unconnected i isI j isJ fun same => differ (congrArg c.node same)
  have identifies (a b : Nat) (same : f a = f b) :
      a = b ∨ a ∈ group.map c.node ∧ b ∈ group.map c.node := by
    simp only [f] at same
    grind
  obtain ⟨m, same, cycle'⟩ := exists_cycle_of_identify f _ unconnected identifies traced
  have bound : m < c.forward.length := by
    obtain ⟨next, edge, -⟩ := TransGen.head'_iff.1 cycle'
    exact (condenses.leads_lt wellFormed edge).1
  refine ⟨m, ?_, cycle'⟩
  rw [← renames m bound] at same
  simp only [seen] at same
  grind

theorem acyclic_condense (acyclic : Acyclic (Leads c.forward)) :
    Acyclic (Leads (c.condense group).forward) := by
  intro n cycle
  obtain ⟨m, -, cycle'⟩ := exists_cycle_of_condense wellFormed condenses apart cycle
  exact acyclic m cycle'

omit wellFormed in
/-- The nodes that are alive are those of the operators. -/
theorem mem_alive_condense {n : Nat} :
    n ∈ (c.condense group).alive ↔ ∃ i < g.size, (c.condense group).node i = n := by
  have renamed (i : Nat) (inside : i < g.size) := node_condense condenses apart inside
  have alive : n ∈ (c.condense group).alive ↔
      n ∈ c.alive ∧ n ∉ group.map c.node ∨ n = c.forward.length := by
    simp [Condensed.condense, apart.eraseDups_nodes condenses]
  rw [alive, condenses.alive_iff]
  constructor
  · intro holds
    rcases holds with ⟨⟨i, inside, rfl⟩, stays⟩ | rfl
    · exact ⟨i, inside, by rw [renamed i inside, rename, if_neg stays]⟩
    · obtain ⟨i, member⟩ := List.exists_mem_of_ne_nil group apart.nonempty
      have inside := (apart.alone i member).1
      refine ⟨i, inside, ?_⟩
      rw [renamed i inside, rename_eq_last (condenses.inside i inside).ne]
      exact List.mem_map_of_mem member
  · intro holds
    rcases holds with ⟨i, inside, rfl⟩
    rw [renamed i inside, rename]
    split
    case isTrue => exact .inr rfl
    case isFalse stays => exact .inl ⟨⟨i, inside, rfl⟩, stays⟩

/-- Nodes lead to each other as their members do. -/
theorem leads_condense_iff (m n : Nat) :
    Leads (c.condense group).forward m n ↔
      ∃ i j, g.Edge i j ∧ (c.condense group).node i = m ∧ (c.condense group).node j = n := by
  have renamed (i : Nat) (inside : i < g.size) := node_condense condenses apart inside
  rw [leads_condense wellFormed condenses apart]
  constructor
  · intro holds
    rcases holds with ⟨a, b, edge, rfl, rfl⟩
    obtain ⟨i, j, depends, rfl, rfl⟩ := (condenses.leads_iff a b).1 edge
    have inside := wellFormed.inside i j depends
    exact ⟨i, j, depends, renamed i inside.1, renamed j inside.2⟩
  · intro holds
    rcases holds with ⟨i, j, depends, rfl, rfl⟩
    have inside := wellFormed.inside i j depends
    exact ⟨c.node i, c.node j, (condenses.leads_iff _ _).2 ⟨i, j, depends, rfl, rfl⟩,
      (renamed i inside.1).symm, (renamed j inside.2).symm⟩

/-- No operator depends on one of its own node. -/
theorem node_condense_ne {i j : Nat} (edge : g.Edge i j) :
    (c.condense group).node i ≠ (c.condense group).node j := by
  have inside := wellFormed.inside i j edge
  have edge' : Leads c.forward (c.node i) (c.node j) :=
    (condenses.leads_iff _ _).2 ⟨i, j, edge, rfl, rfl⟩
  have differ := condenses.apart i j edge
  have notBoth := fun first second => apart.not_leads condenses first second edge'
  have oldI := (condenses.inside i inside.1).ne
  have oldJ := (condenses.inside j inside.2).ne
  rw [node_condense condenses apart inside.1, node_condense condenses apart inside.2]
  unfold rename
  grind

theorem Condenses.condense : (c.condense group).Condenses g := by
  have members := membersOf_condense condenses apart
  refine ⟨?_, ?_, fun i inside => ?_, fun n i => mem_membersOf_condense condenses apart,
    fun n => ?_, fun n => mem_alive_condense condenses apart,
    leads_condense_iff wellFormed condenses apart,
    fun i j => node_condense_ne wellFormed condenses apart, fun n => ?_, fun acyclic => ?_⟩
  · simpa [Condensed.condense] using condenses.nodes_length
  · simpa [Condensed.condense] using condenses.members_length
  · have bound := condenses.inside i inside
    have length : (c.condense group).forward.length = c.forward.length + 1 := by
      simp [Condensed.condense]
    rw [node_condense condenses apart inside, length, rename]
    split <;> omega
  · rw [members]
    split
    · exact apart.distinct
    · split
      · exact List.nodup_nil
      · exact condenses.once n
  · rw [members]
    split
    · exact apart.batched
    · split
      · exact List.Pairwise.nil
      · exact condenses.batched n
  · exact acyclic_condense wellFormed condenses apart (condenses.acyclic acyclic)

end Condense

end Condensed

/-! ## All merges -/

namespace Merging

variable {g : OperatorGraph} {m : Merging} {group : List Nat}

/-- The condensed graph is one of the operators, and those that are said to be alone are. -/
structure Sound (m : Merging) (g : OperatorGraph) : Prop where
  condenses : m.graph.Condenses g
  distinct : m.alone.Nodup
  alone : ∀ i ∈ m.alone, i < g.size ∧ m.graph.membersOf (m.graph.node i) = [i]

theorem Sound.start (wellFormed : g.WellFormed) : (Merging.start g).Sound g := by
  have condenses := Condensed.Condenses.ofGraph wellFormed
  refine ⟨condenses, List.nodup_reverse.2 List.nodup_range, fun i member => ?_⟩
  have inside : i < g.size := by simpa [Merging.start] using member
  refine ⟨inside, ?_⟩
  have node : (Condensed.ofGraph g).node i = i := by
    simp [Condensed.node, Condensed.ofGraph, inside]
  simp only [Merging.start]
  rw [node]
  exact (getD_map_range ([·]) g.size i).trans (if_pos inside)

theorem connected_iff {i j : Nat} :
    m.graph.connected m.closure i j = true ↔
      TransGen (Leads m.graph.forward) (m.graph.node i) (m.graph.node j) ∨
        TransGen (Leads m.graph.forward) (m.graph.node j) (m.graph.node i) := by
  rw [Condensed.connected, m.closure_eq, Bool.or_eq_true, Closure.reaches_iff, Closure.reaches_iff]

/-- One operator more may be part of the batch. -/
theorem apart_append {i : Nat} (apart : m.graph.Apart g group) (fresh : i ∉ group)
    (alone : i < g.size ∧ m.graph.membersOf (m.graph.node i) = [i])
    (merges : (g.select [i]).all (mergeable · (g.select group)) = true)
    (unconnected : group.any (m.graph.connected m.closure · i) = false) :
    m.graph.Apart g (group ++ [i]) := by
  have free (j : Nat) (member : j ∈ group) :
      ¬ TransGen (Leads m.graph.forward) (m.graph.node j) (m.graph.node i) ∧
        ¬ TransGen (Leads m.graph.forward) (m.graph.node i) (m.graph.node j) := by
    rw [← not_or, ← connected_iff]
    exact List.any_eq_false.1 unconnected j member
  refine ⟨by simp, ?_, fun j member => ?_, ?_, fun j isJ k isK differ => ?_⟩
  · refine List.nodup_append.2 ⟨apart.distinct, List.nodup_singleton i, fun j member k isNew => ?_⟩
    rw [List.mem_singleton.1 isNew]
    intro same
    subst same
    exact fresh member
  · rcases List.mem_append.1 member with old | new
    · exact apart.alone j old
    · rwa [List.mem_singleton.1 new]
  · obtain ⟨op, found⟩ : ∃ op, g.operators[i]? = some op :=
      ⟨_, List.getElem?_eq_getElem alone.1⟩
    have single : g.select [i] = [op] := by simp [OperatorGraph.select, found]
    rw [single, List.all_cons, List.all_nil, Bool.and_true] at merges
    have whole : g.select (group ++ [i]) = g.select group ++ [op] := by
      rw [OperatorGraph.select, List.filterMap_append, ← single]
      rfl
    rw [whole]
    exact apart.batched.append merges
  · rcases List.mem_append.1 isJ with oldJ | newJ
    · rcases List.mem_append.1 isK with oldK | newK
      · exact apart.unconnected j oldJ k oldK differ
      · rw [List.mem_singleton.1 newK]
        exact (free j oldJ).1
    · rw [List.mem_singleton.1 newJ] at differ ⊢
      rcases List.mem_append.1 isK with oldK | newK
      · exact (free k oldK).2
      · exact absurd (List.mem_singleton.1 newK).symm differ

/-- What is absorbed makes a batch with the group. -/
theorem absorb_apart {candidates : List Nat} (distinct : candidates.Nodup)
    (alone : ∀ i ∈ candidates, i < g.size ∧ m.graph.membersOf (m.graph.node i) = [i])
    (apart : m.graph.Apart g group) (fresh : ∀ i ∈ candidates, i ∉ group) :
    m.graph.Apart g (absorb g m group candidates) := by
  induction candidates generalizing group with
  | nil => exact apart
  | cons i candidates ih =>
    rw [List.nodup_cons] at distinct
    rw [List.forall_mem_cons] at alone fresh
    rw [absorb, List.foldl_cons]
    refine ih distinct.2 alone.2 ?_ fun j later => ?_
    · split
      case isTrue accepted =>
        rw [Bool.and_eq_true, Bool.not_eq_true'] at accepted
        exact apart_append apart fresh.1 alone.1 accepted.1 accepted.2
      case isFalse => exact apart
    · split
      case isTrue =>
        rw [List.mem_append, List.mem_singleton, not_or]
        refine ⟨fresh.2 j later, ?_⟩
        intro same
        subst same
        exact distinct.1 later
      case isFalse => exact fresh.2 j later

theorem apart_singleton {i : Nat} (inside : i < g.size)
    (alone : m.graph.membersOf (m.graph.node i) = [i]) : m.graph.Apart g [i] where
  nonempty := List.cons_ne_nil i []
  distinct := List.nodup_singleton i
  alone j member := by
    rw [List.mem_singleton.1 member]
    exact ⟨inside, alone⟩
  batched := g.mergeableGroup_select_singleton i
  unconnected j isJ k isK differ := by
    rw [List.mem_singleton.1 isJ, List.mem_singleton.1 isK] at differ
    exact absurd rfl differ

/-- The next group is a batch. -/
theorem Sound.apart (sound : m.Sound g) {seed : Nat} {rest : List Nat}
    (split : m.alone = seed :: rest) : m.graph.Apart g (absorb g m [seed] rest.reverse) := by
  obtain ⟨-, distinct, alone⟩ := sound
  rw [split, List.nodup_cons] at distinct
  rw [split, List.forall_mem_cons] at alone
  refine absorb_apart (List.nodup_reverse.2 distinct.2)
    (fun i member => alone.2 i (List.mem_reverse.1 member))
    (apart_singleton alone.1.1 alone.1.2) fun i member => ?_
  rw [List.mem_reverse] at member
  rw [List.mem_singleton]
  intro same
  subst same
  exact distinct.1 member

theorem Sound.step (wellFormed : g.WellFormed) (sound : m.Sound g) : (m.step g).Sound g := by
  unfold Merging.step
  split
  case h_1 => exact sound
  case h_2 seed rest split =>
    have apart := sound.apart split
    obtain ⟨condenses, distinct, alone⟩ := sound
    rw [split, List.nodup_cons] at distinct
    rw [split, List.forall_mem_cons] at alone
    dsimp only
    split
    · exact ⟨condenses, distinct.2, alone.2⟩
    · refine ⟨condenses.condense wellFormed apart, distinct.2.filter _, fun i member => ?_⟩
      rw [List.mem_filter] at member
      obtain ⟨inside, single⟩ := alone.2 i member.1
      have stays : m.graph.node i ∉ (absorb g m [seed] rest.reverse).map m.graph.node := by
        rw [apart.node_mem_iff condenses inside]
        simpa using member.2
      dsimp only
      rw [Condensed.node_condense condenses apart inside, Condensed.rename, if_neg stays,
        Condensed.membersOf_condense condenses apart, if_neg (condenses.inside i inside).ne,
        if_neg stays]
      exact ⟨inside, single⟩

theorem Sound.steps (wellFormed : g.WellFormed) (sound : m.Sound g) (count : Nat) :
    (steps g count m).Sound g := by
  induction count generalizing m with
  | zero => exact sound
  | succ count ih => exact ih (sound.step wellFormed)

end Merging

/-! ## The condensed plan -/

namespace Condensed

variable {g : OperatorGraph} {c : Condensed}

theorem Condenses.runs (condenses : c.Condenses g) {order : List Nat}
    (complete : order.Perm (List.range c.forward.length))
    (ordered : order.Pairwise fun earlier later => ¬ Leads c.forward later earlier) :
    g.Runs (List.range g.size) ((order.filter c.alive.contains).map c.membersOf) := by
  have once := complete.nodup_iff.2 List.nodup_range
  have node_eq {node i} (member : i ∈ c.membersOf node) : c.node i = node :=
    ((condenses.mem_iff node i).1 member).2
  refine ⟨?_, ?_, ?_, ?_⟩
  · refine (List.perm_ext_iff_of_nodup ?_ List.nodup_range).2 fun i => ?_
    · refine List.nodup_flatten.2 ⟨?_, ?_⟩
      · exact List.forall_mem_map.2 fun node _ => condenses.once node
      · refine List.pairwise_map.2 ((once.filter _).imp fun differ i first second => ?_)
        exact differ ((node_eq first).symm.trans (node_eq second))
    · rw [List.mem_flatten, List.mem_range]
      constructor
      · intro holds
        rcases holds with ⟨group, isGroup, member⟩
        obtain ⟨node, -, rfl⟩ := List.mem_map.1 isGroup
        exact ((condenses.mem_iff node i).1 member).1
      · intro inside
        refine ⟨_, List.mem_map_of_mem (a := c.node i) (List.mem_filter.2 ⟨?_, ?_⟩),
          (condenses.mem_iff _ i).2 ⟨inside, rfl⟩⟩
        · exact complete.mem_iff.2 (List.mem_range.2 (condenses.inside i inside))
        · rw [List.contains_iff_mem]
          exact (condenses.alive_iff _).2 ⟨i, inside, rfl⟩
  · refine List.pairwise_map.2 ((ordered.filter _).imp fun back i isI j isJ edge => back ?_)
    exact (condenses.leads_iff _ _).2 ⟨i, j, edge, node_eq isI, node_eq isJ⟩
  · refine List.forall_mem_map.2 fun node _ i isI j isJ edge => ?_
    exact condenses.apart i j edge ((node_eq isI).trans (node_eq isJ).symm)
  · exact List.forall_mem_map.2 fun node _ => condenses.batched node

end Condensed

theorem condensedPlan_planned {g : OperatorGraph} (wellFormed : g.WellFormed) :
    g.Planned (List.range g.size) (condensedPlan g) := by
  have sound := (Merging.Sound.start wellFormed).steps wellFormed g.size
  unfold condensedPlan Condensed.order
  dsimp only
  generalize Merging.steps g g.size (Merging.start g) = m at *
  have condenses := sound.condenses
  have within (a b : Nat) (edge : Leads m.graph.forward a b) : b < m.graph.forward.length :=
    (condenses.leads_lt wellFormed edge).2
  refine ⟨fun plan success => ?_, fun acyclic => ?_, fun error failure => ?_⟩
  · obtain ⟨alive, isAlive, success⟩ := Except.bind_eq_ok_iff.1 success
    obtain ⟨order, sorted, filtered⟩ := Except.bind_eq_ok_iff.1 isAlive
    cases success
    cases filtered
    obtain ⟨complete, ordered⟩ := toposort_eq_ok within sorted
    refine ⟨_, ?_, condenses.runs complete ordered, ?_⟩
    · rw [List.map_map]
      rfl
    · refine List.forall_mem_map.2 fun node member => ?_
      have alive := (List.mem_filter.1 member).2
      rw [List.contains_iff_mem, condenses.alive_iff] at alive
      obtain ⟨i, inside, same⟩ := alive
      exact List.ne_nil_of_mem ((condenses.mem_iff node i).2 ⟨inside, same⟩)
  · obtain ⟨order, sorted⟩ := exists_toposort_eq_ok within (condenses.acyclic acyclic)
    exact ⟨_, by rw [sorted]; rfl⟩
  · cases sorted : toposort m.graph.forward with
    | ok order =>
      rw [sorted] at failure
      cases failure
    | error reason =>
      rw [sorted] at failure
      cases failure
      exact toposort_eq_error sorted

end BatchGraph
