import BatchGraph.Proofs.Plan.Stuck

/-!
What planning by merging leaves apart is connected.

A step absorbs every operator that is mergeable with the seed unless a path connects it to one that
has been absorbed before.  Merging keeps paths, so mergeable operators in different nodes are
connected as soon as one of them has been through a step (`Merging.Settled`), and in the end all are
(`Merging.joined_condensed`).
-/

namespace BatchGraph

open Relation

namespace Condensed

variable {g : OperatorGraph} {c : Condensed} {group : List Nat} {i j : Nat}

/-- A path leads from the node of one of the operators to that of the other. -/
def Joined (c : Condensed) (i j : Nat) : Prop :=
  TransGen (Leads c.forward) (c.node i) (c.node j) ∨
    TransGen (Leads c.forward) (c.node j) (c.node i)

theorem Joined.symm (joined : c.Joined i j) : c.Joined j i := Or.symm joined

/-- Merging keeps paths. -/
theorem Joined.condense (wellFormed : g.WellFormed) (condenses : c.Condenses g)
    (apart : c.Apart g group) (insideI : i < g.size) (insideJ : j < g.size)
    (joined : c.Joined i j) : (c.condense group).Joined i j := by
  have keeps {m n : Nat} (path : TransGen (Leads c.forward) m n) :
      TransGen (Leads (c.condense group).forward) (c.rename group m) (c.rename group n) :=
    path.lift (c.rename group) fun a b edge =>
      (leads_condense wellFormed condenses apart _ _).2 ⟨a, b, edge, rfl, rfl⟩
  rw [Joined, node_condense condenses apart insideI, node_condense condenses apart insideJ]
  exact joined.imp keeps keeps

end Condensed

namespace OperatorGraph

variable {g : OperatorGraph} {i j k : Nat}

/-- The operators at two positions are mergeable. -/
def MergeableAt (g : OperatorGraph) (i j : Nat) : Prop :=
  ∃ a b, g.operators[i]? = some a ∧ g.operators[j]? = some b ∧ mergeablePair a b = true

theorem MergeableAt.symm (merges : g.MergeableAt i j) : g.MergeableAt j i := by
  obtain ⟨a, b, isA, isB, pair⟩ := merges
  exact ⟨b, a, isB, isA, by rwa [mergeablePair_comm]⟩

theorem MergeableAt.trans (first : g.MergeableAt i j) (second : g.MergeableAt j k) :
    g.MergeableAt i k := by
  obtain ⟨a, b, isA, isB, pair⟩ := first
  obtain ⟨b', c, isB', isC, pair'⟩ := second
  obtain rfl := Option.some.inj (isB.symm.trans isB')
  exact ⟨a, c, isA, isC, mergeablePair_trans pair pair'⟩

end OperatorGraph

/-- The members of a batch are mergeable. -/
theorem Condensed.Apart.mergeableAt {g : OperatorGraph} {c : Condensed} {group : List Nat}
    {i j : Nat} (wellFormed : g.WellFormed) (apart : c.Apart g group) (isI : i ∈ group)
    (isJ : j ∈ group) (differ : i ≠ j) : g.MergeableAt i j := by
  have isA := List.getElem?_eq_getElem (apart.alone i isI).1
  have isB := List.getElem?_eq_getElem (apart.alone j isJ).1
  refine ⟨_, _, isA, isB, ?_⟩
  refine (mergeableGroup_iff (wellFormed.nodup_select apart.distinct)).1 apart.batched _
    ((wellFormed.mem_select_iff isA).2 isI) _ ((wellFormed.mem_select_iff isB).2 isJ) fun same => ?_
  rw [← same] at isB
  exact differ (Distinct.eq_of_getElem? wellFormed.distinct isA isB)

namespace Merging

variable {g : OperatorGraph} {m : Merging} {c : Condensed} {seed i j : Nat}
  {group others candidates rest alone left : List Nat}

/-! ## What is not absorbed -/

theorem subset_absorb (g : OperatorGraph) (m : Merging) (group candidates : List Nat) :
    group ⊆ absorb g m group candidates := by
  induction candidates generalizing group with
  | nil => exact List.Subset.refl group
  | cons i candidates ih =>
    rw [absorb, List.foldl_cons]
    split
    · exact fun _ member => ih (group ++ [i]) (List.mem_append_left [i] member)
    · exact ih group

/-- What is mergeable with the seed and not absorbed is connected to something that is. -/
theorem exists_joined_of_not_mem_absorb (isCandidate : i ∈ candidates)
    (merges : g.MergeableAt i seed) (left : i ∉ absorb g m (seed :: others) candidates) :
    ∃ k ∈ absorb g m (seed :: others) candidates, m.graph.Joined k i := by
  induction candidates generalizing others with
  | nil => cases isCandidate
  | cons k candidates ih =>
    rw [absorb, List.foldl_cons] at left ⊢
    rcases List.mem_cons.1 isCandidate with rfl | later
    · split at left
      case isTrue =>
        exact absurd (subset_absorb g m _ candidates (List.mem_append_right _ (by simp))) left
      case isFalse refused =>
        -- It is mergeable with the group as with the seed, so a connection has kept it out.
        obtain ⟨op, first, isOp, isFirst, pair⟩ := merges
        have fits : (g.select [i]).all (mergeable · (g.select (seed :: others))) = true := by
          simp [OperatorGraph.select, isOp, isFirst, mergeable, pair]
        rw [if_neg refused]
        rw [fits, Bool.true_and, Bool.not_eq_true', Bool.not_eq_false, List.any_eq_true] at refused
        obtain ⟨k, inGroup, connected⟩ := refused
        exact ⟨k, subset_absorb g m _ candidates inGroup, connected_iff.1 connected⟩
    · split at left
      case isTrue accepted =>
        rw [if_pos accepted]
        exact ih later left
      case isFalse refused =>
        rw [if_neg refused]
        exact ih later left

/-- What could be merged with a member of the next group is connected to some member of it, unless
it has been through a step before. -/
theorem Sound.exists_joined (wellFormed : g.WellFormed) (sound : m.Sound g)
    (split : m.alone = seed :: rest) (member : i ∈ absorb g m [seed] rest.reverse)
    (isAlone : j ∈ m.alone) (outside : j ∉ absorb g m [seed] rest.reverse)
    (merges : g.MergeableAt i j) : ∃ k ∈ absorb g m [seed] rest.reverse, m.graph.Joined k j := by
  have apart := sound.apart split
  have isSeed : seed ∈ absorb g m [seed] rest.reverse :=
    subset_absorb g m [seed] rest.reverse (List.mem_singleton_self seed)
  have waits : j ∈ rest := by
    rw [split] at isAlone
    refine (List.mem_cons.1 isAlone).resolve_left ?_
    rintro rfl
    exact outside isSeed
  have withSeed : g.MergeableAt j seed := by
    by_cases same : i = seed
    · exact same ▸ merges.symm
    · exact merges.symm.trans (apart.mergeableAt wellFormed member isSeed same)
  exact exists_joined_of_not_mem_absorb (List.mem_reverse.2 waits) withSeed outside

/-! ## Settled operators -/

/-- Mergeable operators in different nodes are connected, unless both are still alone. -/
def Settled (g : OperatorGraph) (c : Condensed) (alone : List Nat) : Prop :=
  ∀ i < g.size, ∀ j < g.size, i ∉ alone → c.node i ≠ c.node j → g.MergeableAt i j → c.Joined i j

theorem Settled.start (g : OperatorGraph) :
    Settled g (Merging.start g).graph (Merging.start g).alone := by
  intro i inside j _ settled
  exact absurd (by simpa [Merging.start] using inside) settled

/-- An operator that is connected to all others that it is mergeable with may stay alone. -/
theorem Settled.leave (settled : Settled g c (seed :: rest))
    (joins : ∀ j < g.size, j ≠ seed → g.MergeableAt seed j → c.Joined seed j) :
    Settled g c rest := by
  intro i insideI j insideJ left differ merges
  by_cases same : i = seed
  · subst same
    exact joins j insideJ (fun same => differ (same ▸ rfl)) merges
  · exact settled i insideI j insideJ (by simp [same, left]) differ merges

/-- The node of a group is connected to all that its members are mergeable with. -/
theorem Settled.condense (wellFormed : g.WellFormed) (condenses : c.Condenses g)
    (apart : c.Apart g group) (settled : Settled g c alone)
    (joins : ∀ i ∈ group, ∀ j < g.size, j ∉ group → g.MergeableAt i j → ∃ k ∈ group, c.Joined k j)
    (fewer : ∀ i ∈ alone, i ∈ group ∨ i ∈ left) : Settled g (c.condense group) left := by
  intro i insideI j insideJ isSettled differ merges
  have renamed {k : Nat} (inside : k < g.size) := Condensed.node_condense condenses apart inside
  by_cases member : i ∈ group
  · have together {k : Nat} (isK : k ∈ group) : (c.condense group).node k = c.forward.length := by
      have inside := (apart.alone k isK).1
      rw [renamed inside, Condensed.rename_eq_last (condenses.inside k inside).ne]
      exact List.mem_map_of_mem isK
    have outside : j ∉ group := fun again =>
      differ ((together member).trans (together again).symm)
    obtain ⟨k, isK, joined⟩ := joins i member j insideJ outside merges
    have joined' := joined.condense wellFormed condenses apart (apart.alone k isK).1 insideJ
    rwa [Condensed.Joined, together isK, ← together member] at joined'
  · have isSettled' : i ∉ alone := fun isAlone => (fewer i isAlone).elim member isSettled
    refine (settled i insideI j insideJ isSettled' (fun same => differ ?_) merges).condense
      wellFormed condenses apart insideI insideJ
    rw [renamed insideI, renamed insideJ, same]

theorem Settled.step (wellFormed : g.WellFormed) (sound : m.Sound g)
    (settled : Settled g m.graph m.alone) : Settled g (m.step g).graph (m.step g).alone := by
  unfold Merging.step
  split
  case h_1 => exact settled
  case h_2 seed rest split =>
    have apart := sound.apart split
    have isSeed : seed ∈ absorb g m [seed] rest.reverse :=
      subset_absorb g m [seed] rest.reverse (List.mem_singleton_self seed)
    have joins (i : Nat) (member : i ∈ absorb g m [seed] rest.reverse) (j : Nat)
        (inside : j < g.size) (outside : j ∉ absorb g m [seed] rest.reverse)
        (merges : g.MergeableAt i j) :
        ∃ k ∈ absorb g m [seed] rest.reverse, m.graph.Joined k j := by
      -- What is no longer alone was settled with the member before this step.
      by_cases isAlone : j ∈ m.alone
      · exact sound.exists_joined wellFormed split member isAlone outside merges
      · have insideI := (apart.alone i member).1
        refine ⟨i, member, (settled j inside i insideI isAlone (fun same => ?_) merges.symm).symm⟩
        rw [apart.eq_of_node_eq sound.condenses member inside same] at outside
        exact outside member
    dsimp only
    split
    case isTrue single =>
      have only : absorb g m [seed] rest.reverse = [seed] := by
        obtain ⟨i, isOnly⟩ := List.length_eq_one_iff.1
          (Nat.le_antisymm single (List.length_pos_of_mem isSeed))
        rw [isOnly, List.mem_singleton] at isSeed
        rw [isOnly, isSeed]
      rw [only] at joins
      rw [split] at settled
      refine settled.leave fun j inside differ merges => ?_
      obtain ⟨k, isK, joined⟩ := joins seed (List.mem_singleton_self seed) j inside
        (mt List.mem_singleton.1 differ) merges
      rwa [List.mem_singleton.1 isK] at joined
    case isFalse =>
      refine settled.condense wellFormed sound.condenses apart joins fun i isAlone => ?_
      rw [split] at isAlone
      rw [List.mem_filter, Bool.not_eq_true', ← Bool.not_eq_true, List.contains_iff_mem]
      rcases List.mem_cons.1 isAlone with rfl | waits
      · exact .inl isSeed
      · by_cases member : i ∈ absorb g m [seed] rest.reverse
        · exact .inl member
        · exact .inr ⟨waits, member⟩

theorem Settled.steps (wellFormed : g.WellFormed) (sound : m.Sound g)
    (settled : Settled g m.graph m.alone) (count : Nat) :
    Settled g (Merging.steps g count m).graph (Merging.steps g count m).alone := by
  induction count generalizing m with
  | zero => exact settled
  | succ count ih => exact ih (sound.step wellFormed) (settled.step wellFormed sound)

/-! ## The last step -/

theorem length_alone_step (g : OperatorGraph) (m : Merging) :
    (m.step g).alone.length ≤ m.alone.length - 1 := by
  unfold Merging.step
  split
  case h_1 none => simp [none]
  case h_2 seed rest split =>
    have length : m.alone.length - 1 = rest.length := by rw [split]; rfl
    dsimp only
    rw [length]
    split
    · exact le_rfl
    · exact List.length_filter_le _ rest

/-- Every step uses up an operator that is alone. -/
theorem alone_steps {count : Nat} (enough : m.alone.length ≤ count) :
    (Merging.steps g count m).alone = [] := by
  induction count generalizing m with
  | zero => exact List.length_eq_zero_iff.1 (Nat.le_zero.1 enough)
  | succ count ih =>
    refine ih ?_
    have fewer := length_alone_step g m
    omega

/-- In the end all mergeable operators in different nodes are connected. -/
theorem joined_condensed (wellFormed : g.WellFormed) (insideI : i < g.size) (insideJ : j < g.size)
    (differ : (condensed g).node i ≠ (condensed g).node j) (merges : g.MergeableAt i j) :
    (condensed g).Joined i j := by
  have settled := (Settled.start g).steps wellFormed (Sound.start wellFormed) g.size
  have none : (Merging.steps g g.size (Merging.start g)).alone = [] :=
    alone_steps (by simp [Merging.start])
  exact settled i insideI j insideJ (by simp [none]) differ merges

end Merging

/-! ## The condensed plan -/

namespace OperatorGraph.Represents

variable {g : OperatorGraph} {ops : List Operator} {graph : DependencyGraph}
  (represents : g.Represents ops graph)

include represents

/-- A group of the condensed plan is all that was merged into one node. -/
theorem home_eq_iff_mem {plan : Plan} (success : condensedPlan g = .ok plan)
    {group : List Operator} (isGroup : group ∈ plan) {a b : Operator} (isA : a ∈ ops)
    (isB : b ∈ ops) (member : a ∈ group) : Merging.home g a = Merging.home g b ↔ b ∈ group := by
  have wellFormed := represents.toWellFormed
  have condenses := Merging.condenses_condensed wellFormed
  obtain ⟨nodes, -, isPlan⟩ := Except.bind_eq_ok_iff.1 success
  cases isPlan
  obtain ⟨n, -, rfl⟩ := List.mem_map.1 isGroup
  have atNode {op : Operator} (isOp : op ∈ ops) :
      op ∈ g.select ((Merging.condensed g).membersOf n) ↔ Merging.home g op = n := by
    obtain ⟨i, found⟩ := List.mem_iff_getElem?.1 isOp
    rw [represents.home_eq found, wellFormed.mem_select_iff (represents.operators ▸ found)]
    exact (condenses.mem_iff n i).trans (and_iff_right (represents.lt_size found))
  rw [(atNode isA).1 member, eq_comm]
  exact (atNode isB).symm

/-- If dependencies lead to higher ranks and what is merged has one rank, so do paths of nodes. -/
theorem lt_of_transGen_home {rank : Operator → Nat}
    (grows : ∀ a b, graph.Edge a b → rank a < rank b)
    (constant : ∀ a ∈ ops, ∀ b ∈ ops, Merging.home g a = Merging.home g b → rank a = rank b)
    {a b : Operator} (isA : a ∈ ops) (isB : b ∈ ops)
    (path : TransGen (Leads (Merging.condensed g).forward) (Merging.home g a) (Merging.home g b)) :
    rank a < rank b := by
  have isOver := represents.isOver
  rw [represents.leads_condensed] at path
  generalize home : Merging.home g b = n at path
  induction path generalizing b with
  | single edge =>
    obtain ⟨x, y, depends, atX, atY⟩ := edge
    have up := grows x y depends
    rw [constant a isA x (isOver.source_mem depends) atX.symm,
      constant b isB y (isOver.targets x y depends) (home.trans atY.symm)]
    exact up
  | tail _ edge ih =>
    obtain ⟨x, y, depends, atX, atY⟩ := edge
    have up := grows x y depends
    rw [constant b isB y (isOver.targets x y depends) (home.trans atY.symm)]
    exact (ih (isOver.source_mem depends) atX).trans up

/-- Mergeable operators of different nodes are connected. -/
theorem transGen_home_of_mergeable {a b : Operator} (isA : a ∈ ops) (isB : b ∈ ops)
    (merges : mergeable a [b] = true) (differ : Merging.home g a ≠ Merging.home g b) :
    TransGen (Leads (Merging.condensed g).forward) (Merging.home g a) (Merging.home g b) ∨
      TransGen (Leads (Merging.condensed g).forward) (Merging.home g b) (Merging.home g a) := by
  obtain ⟨i, atA⟩ := List.mem_iff_getElem?.1 isA
  obtain ⟨j, atB⟩ := List.mem_iff_getElem?.1 isB
  rw [represents.home_eq atA, represents.home_eq atB] at differ ⊢
  refine Merging.joined_condensed represents.toWellFormed (represents.lt_size atA)
    (represents.lt_size atB) differ ⟨a, b, ?_, ?_, merges⟩
  · rwa [represents.operators]
  · rwa [represents.operators]

end OperatorGraph.Represents

end BatchGraph
