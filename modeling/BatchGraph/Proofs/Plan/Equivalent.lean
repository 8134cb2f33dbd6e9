import BatchGraph.Proofs.Dependency.Implied
import BatchGraph.Proofs.Plan.Condensed
import BatchGraph.Proofs.Plan.Exhaustive
import BatchGraph.Proofs.Plan.Greedy
import BatchGraph.Proofs.Planner

/-!
Equivalent graphs have the same plans.

Each planner is followed on two graphs of the same operators at once.  The greedy one and the
exhaustive one only ever look at a set of operators that is closed under dependencies, where the
same operators are free.  Merging keeps condensed graphs equivalent (`Condensed.Matches.condense`):
a path through a third node is still one after nodes are identified that no path connects, so that
whatever is direct in the condensed graph was direct before.
-/

namespace BatchGraph

open Relation

namespace OperatorGraph

/-- The same operators under equivalent dependencies. -/
structure Equivalent (g g' : OperatorGraph) : Prop where
  wellFormed : g.WellFormed
  wellFormed' : g'.WellFormed
  operators : g'.operators = g.operators
  table : BatchGraph.Equivalent g.successors g'.successors

variable {g g' : OperatorGraph} (equivalent : g.Equivalent g')

include equivalent

theorem Equivalent.size : g'.size = g.size := by rw [OperatorGraph.size, equivalent.operators]; rfl

theorem Equivalent.select : g'.select = g.select := by
  funext positions
  rw [OperatorGraph.select, equivalent.operators]
  rfl

end OperatorGraph

variable {g g' : OperatorGraph}

/-! ## One locally best group at a time -/

namespace Greedy

variable {waiting : List (List Operator)} {freed done : List Nat}

theorem isFree_eq (equivalent : g.Equivalent g') (closed : Closed g.Edge (· ∈ done)) (i : Nat) :
    isFree g' done i = isFree g done i := by
  rw [Bool.eq_iff_iff, isFree_iff equivalent.wellFormed, isFree_iff equivalent.wellFormed']
  exact equivalent.table.ready_iff closed

/-- Running operators of which all dependencies have run frees the same ones. -/
theorem run_eq (equivalent : g.Equivalent g') (acyclic : Acyclic g.Edge) {batch : List Nat}
    (closed : Closed g.Edge (· ∈ done)) (distinct : batch.Nodup) (apart : ∀ i ∈ batch, i ∉ done)
    (ready : ∀ i ∈ batch, isFree g done i = true) : run g' done batch = run g done batch := by
  induction batch generalizing done with
  | nil => rfl
  | cons i batch ih =>
    rw [List.nodup_cons] at distinct
    rw [List.forall_mem_cons] at apart ready
    have free := (isFree_iff equivalent.wellFormed).1 ready.1
    have closed' : Closed g.Edge (· ∈ i :: done) := by
      simpa only [List.mem_cons] using closed.insert free
    have freed : (g'.successorsOf i).filter (isFree g' (i :: done)) =
        (g.successorsOf i).filter (isFree g (i :: done)) := by
      refine equivalent.table.filter_ready acyclic closed apart.1 free (fun j => ?_) fun j => ?_
      · rw [isFree_iff equivalent.wellFormed]
        simp only [List.mem_cons]
        rfl
      · rw [isFree_iff equivalent.wellFormed']
        simp only [List.mem_cons]
        rfl
    have rest := ih closed' distinct.2
      (fun j later => by
        rw [List.mem_cons, not_or]
        exact ⟨fun same => distinct.1 (same ▸ later), apart.2 j later⟩)
      fun j later =>
        isFree_mono equivalent.wellFormed (List.subset_cons_self i done) (ready.2 j later)
    simp only [run]
    rw [freed, rest]

theorem Waiting.closed_done (wellFormed : g.WellFormed) (waits : Waiting g waiting freed done) :
    Closed g.Edge (· ∈ done) :=
  fun i j edge isDone => (isFree_iff wellFormed).1 (waits.closed j isDone) i edge

theorem schedule_eq (equivalent : g.Equivalent g') (acyclic : Acyclic g.Edge) (steps : Nat)
    (waits : Waiting g waiting freed done) :
    schedule g' steps waiting freed done = schedule g steps waiting freed done := by
  induction steps generalizing waiting freed done with
  | zero => rfl
  | succ steps ih =>
    unfold schedule
    rw [equivalent.size, equivalent.select, equivalent.operators]
    have fitted := waits.assign equivalent.wellFormed
    generalize assignToGroups waiting (g.select freed) = waiting' at fitted ⊢
    dsimp only
    cases isGroup : waiting'[largest waiting']? with
    | none => rfl
    | some group =>
      obtain ⟨-, distinct, atHand⟩ :=
        fitted.batch equivalent.wellFormed (List.mem_of_getElem? isGroup)
      have ran := run_eq equivalent acyclic (fitted.closed_done equivalent.wellFormed)
        distinct (fun i member => (mem_runnable.1 (atHand i member)).2.1)
        fun i member => (mem_runnable.1 (atHand i member)).2.2
      dsimp only
      rw [ran, ih (fitted.run equivalent.wellFormed isGroup)]

end Greedy

theorem greedyPlan_eq (equivalent : g.Equivalent g') (acyclic : Acyclic g.Edge) :
    greedyPlan g' = greedyPlan g := by
  have start := Greedy.Waiting.start g
  have none : Greedy.isFree g' [] = Greedy.isFree g [] := by
    funext i
    exact Greedy.isFree_eq equivalent (start.closed_done equivalent.wellFormed) i
  unfold greedyPlan
  rw [none, equivalent.size]
  exact Greedy.schedule_eq equivalent acyclic g.size start

/-! ## The fewest groups -/

namespace Exhaustive

variable {remaining : List Nat}

theorem candidates_eq (equivalent : g.Equivalent g') (closed : Closed g.Edge (· ∉ remaining)) :
    candidates g' remaining = candidates g remaining := by
  have same : free g' remaining = free g remaining := by
    refine List.filter_congr fun i _ => ?_
    rw [Bool.eq_iff_iff]
    simp only [List.all_eq_true, Bool.not_eq_true', List.contains_eq_mem, decide_eq_false_iff_not,
      equivalent.wellFormed.predecessor_iff, equivalent.wellFormed'.predecessor_iff]
    exact equivalent.table.ready_iff closed
  unfold candidates
  rw [same, equivalent.select, equivalent.operators]

/-- What remains behind a candidate depends on nothing that has not run. -/
theorem Candidate.closed_without {group : List Nat} (candidate : Candidate g remaining group)
    (closed : Closed g.Edge (· ∉ remaining)) : Closed g.Edge (· ∉ without remaining group) := by
  intro i j edge behind again
  have isLeft := (mem_without.1 again).1
  have still : j ∈ remaining := by
    by_contra ran
    exact closed i j edge ran isLeft
  have chosen : j ∈ group := by
    by_contra stays
    exact behind (mem_without.2 ⟨still, stays⟩)
  exact candidate.free j chosen i isLeft edge

theorem shortest_eq (equivalent : g.Equivalent g') (depth : Nat)
    (inside : ∀ i ∈ remaining, i < g.size) (distinct : remaining.Nodup)
    (closed : Closed g.Edge (· ∉ remaining)) :
    shortest g' depth remaining = shortest g depth remaining := by
  induction depth generalizing remaining with
  | zero =>
    match remaining with
    | [] => rfl
    | [i] => rfl
    | first :: second :: others => rfl
  | succ depth ih =>
    match remaining with
    | [] => rfl
    | [i] => rfl
    | first :: second :: others =>
      rw [shortest_of_many (by simp), shortest_of_many (by simp),
        candidates_eq equivalent closed,
        foldlM_shorter fun group => shortest g' depth (without _ group),
        foldlM_shorter fun group => shortest g depth (without _ group)]
      split
      · rfl
      · refine congrArg _ (extensions_congr fun group isGroup => ?_)
        have candidate := candidate_of_mem equivalent.wellFormed inside distinct isGroup
        exact ih (fun i member => inside i (mem_without.1 member).1) (distinct.filter _)
          (candidate.closed_without closed)

end Exhaustive

theorem exhaustivePlan_eq_of_equivalent (equivalent : g.Equivalent g') :
    exhaustivePlan g' = exhaustivePlan g := by
  have closed : Closed g.Edge (· ∉ List.range g.size) := fun i j edge outside =>
    absurd (List.mem_range.2 (equivalent.wellFormed.inside i j edge).2) outside
  rw [exhaustivePlan_eq equivalent.wellFormed, exhaustivePlan_eq equivalent.wellFormed',
    equivalent.size, equivalent.select, Exhaustive.shortest_eq equivalent g.size
      (fun i member => List.mem_range.1 member) List.nodup_range closed]

/-! ## One operator at a time -/

theorem singletonPlan_eq (equivalent : g.Equivalent g') (acyclic : Acyclic g.Edge) :
    singletonPlan g' = singletonPlan g := by
  unfold singletonPlan
  rw [equivalent.table.toposort_eq equivalent.wellFormed.leads_inside acyclic, equivalent.select]

/-! ## Merging what no path connects -/

namespace Condensed

variable {c c' : Condensed} {group : List Nat}

/-- The same nodes under equivalent dependencies. -/
structure Matches (c c' : Condensed) : Prop where
  members : c'.members = c.members
  nodeOf : c'.nodeOf = c.nodeOf
  alive : c'.alive = c.alive
  table : Equivalent c.forward c'.forward

theorem Matches.node (pair : c.Matches c') : c'.node = c.node := by
  funext i
  rw [Condensed.node, pair.nodeOf]
  rfl

theorem Matches.membersOf (pair : c.Matches c') : c'.membersOf = c.membersOf := by
  funext node
  rw [Condensed.membersOf, pair.members]
  rfl

/-- Condensed graphs have the same paths if the graphs have and the nodes are the same. -/
theorem Condenses.transGen_leads (condenses : c.Condenses g) (condenses' : c'.Condenses g')
    (paths : ∀ i j, g.Edge i j → TransGen g'.Edge i j) (same : c'.node = c.node) {m n : Nat}
    (path : TransGen (Leads c.forward) m n) : TransGen (Leads c'.forward) m n := by
  refine path.lift' id fun m n edge => ?_
  obtain ⟨i, j, depends, rfl, rfl⟩ := (condenses.leads_iff m n).1 edge
  rw [← same]
  exact (paths i j depends).lift c'.node fun a b edge =>
    (condenses'.leads_iff _ _).2 ⟨a, b, edge, rfl, rfl⟩

section Condense

variable (wellFormed : g.WellFormed) (condenses : c.Condenses g) (apart : c.Apart g group)

include wellFormed condenses apart

theorem transGen_condense {m n : Nat} (path : TransGen (Leads c.forward) m n) :
    TransGen (Leads (c.condense group).forward) (c.rename group m) (c.rename group n) :=
  path.lift _ fun a b edge =>
    (leads_condense wellFormed condenses apart _ _).2 ⟨a, b, edge, rfl, rfl⟩

/-- A path through a third node stays one. -/
theorem implied_condense {m n : Nat} (implied : Implied (Leads c.forward) m n) :
    Implied (Leads (c.condense group).forward) (c.rename group m) (c.rename group n) := by
  obtain ⟨between, front, back⟩ := implied
  exact ⟨_, transGen_condense wellFormed condenses apart front,
    transGen_condense wellFormed condenses apart back⟩

omit wellFormed in
theorem forward_condense (m : Nat) :
    ((c.condense group).forward[m]?).getD [] =
      if m = c.forward.length then
        (((group.map c.node).flatMap c.forwardOf).filter
          (!(group.map c.node).contains ·)).eraseDups
      else if (group.map c.node).contains m then []
      else if (c.forwardOf m).any (group.map c.node).contains then
        (c.forwardOf m).filter (!(group.map c.node).contains ·) ++ [c.forward.length]
      else c.forwardOf m := by
  unfold condense
  simp only [apart.eraseDups_nodes condenses]
  rw [getD_mapIdx_append (by simp)]
  rfl

theorem once_condense (once : ∀ m : Nat, ((c.forward[m]?).getD []).Nodup) (m : Nat) :
    (((c.condense group).forward[m]?).getD []).Nodup := by
  rw [forward_condense condenses apart]
  split
  · exact Distinct.nodup_eraseDups _
  · split
    · exact List.nodup_nil
    · split
      · refine List.nodup_append.2 ⟨(once m).filter _, List.nodup_singleton _, ?_⟩
        intro target isTarget last isLast same
        have edge : Leads c.forward m target := (List.mem_filter.1 isTarget).1
        rw [same, List.mem_singleton.1 isLast] at edge
        exact (condenses.leads_lt wellFormed edge).2.false
      · exact once m

end Condense

/-- Some target is merged exactly if an edge leads to the new node. -/
theorem any_merged_iff (wellFormed : g.WellFormed) (condenses : c.Condenses g)
    (apart : c.Apart g group) {m : Nat} (old : m ≠ c.forward.length)
    (stays : (group.map c.node).contains m ≠ true) :
    (c.forwardOf m).any (group.map c.node).contains = true ↔
      Leads (c.condense group).forward m c.forward.length := by
  unfold Leads
  rw [forward_condense condenses apart, if_neg old, if_neg stays]
  split
  case isTrue some_ => simp [some_]
  case isFalse none =>
    refine iff_of_false none fun edge => ?_
    exact (condenses.leads_lt wellFormed edge).2.false

/-- What is kept of a row whose edges to merged nodes were redirected. -/
theorem filter_redirect (targets : List Nat) (merges keep : Nat → Bool) (last : Nat) :
    (if targets.any merges then targets.filter (!merges ·) ++ [last] else targets).filter keep =
      targets.filter (fun j => !merges j && keep j) ++
        if targets.any merges && keep last then [last] else [] := by
  cases some_ : targets.any merges with
  | true => simp [List.filter_append, List.filter_cons, Bool.and_comm]
  | false =>
    rw [List.any_eq_false] at some_
    simp only [Bool.false_eq_true, if_false, Bool.false_and, List.append_nil]
    exact List.filter_congr fun j member => by simp [some_ j member]

theorem Matches.condense (equivalent : g.Equivalent g') (condenses : c.Condenses g)
    (condenses' : c'.Condenses g') (apart : c.Apart g group) (apart' : c'.Apart g' group)
    (pair : c.Matches c') :
    (c.condense group).Matches (c'.condense group) := by
  have nodeOf : (c'.condense group).nodeOf = (c.condense group).nodeOf := by
    simp only [Condensed.condense, pair.node, pair.nodeOf, pair.table.length, pair.membersOf]
  have paths (m n : Nat) : TransGen (Leads (c'.condense group).forward) m n ↔
      TransGen (Leads (c.condense group).forward) m n := by
    have same : (c'.condense group).node = (c.condense group).node := by
      funext i
      rw [Condensed.node, nodeOf]
      rfl
    have new := condenses.condense equivalent.wellFormed apart
    have new' := condenses'.condense equivalent.wellFormed' apart'
    constructor
    · exact new'.transGen_leads new
        (fun i j edge => (equivalent.table.paths i j).1 (.single edge)) same.symm
    · exact new.transGen_leads new'
        (fun i j edge => (equivalent.table.paths i j).2 (.single edge)) same
  refine ⟨?_, nodeOf, ?_, ⟨?_, once_condense equivalent.wellFormed condenses apart pair.table.once,
    once_condense equivalent.wellFormed' condenses' apart' pair.table.once', paths,
    fun m keep hidden => ?_⟩⟩
  · simp only [Condensed.condense, pair.node, pair.members, pair.membersOf]
  · simp only [Condensed.condense, pair.node, pair.alive, pair.table.length]
  · simp [Condensed.condense, pair.table.length]
  -- Of what stays a node, an edge that is direct now was direct before.
  have rows (a : Nat) (same : c.rename group a = m) :
      (c'.forwardOf a).filter (fun j => !(group.map c.node).contains j && keep j) =
        (c.forwardOf a).filter fun j => !(group.map c.node).contains j && keep j := by
    refine pair.table.direct a _ fun j kept implied => ?_
    rw [Bool.and_eq_true, Bool.not_eq_true'] at kept
    have new := implied_condense equivalent.wellFormed condenses apart implied
    have stays : c.rename group j = j := if_neg (by simpa using kept.1)
    rw [same, stays] at new
    exact hidden j kept.2 new
  rw [forward_condense condenses apart, forward_condense condenses' apart', pair.node,
    pair.table.length]
  split
  case isTrue last =>
    subst last
    rw [Distinct.filter_eraseDups, Distinct.filter_eraseDups, List.filter_filter,
      List.filter_filter, List.filter_flatMap, List.filter_flatMap]
    congr 1
    refine List.flatMap_congr fun a merges => ?_
    simpa only [Bool.and_comm] using rows a (if_pos merges)
  case isFalse old =>
    split
    case isTrue => rfl
    case isFalse stays =>
      rw [filter_redirect, filter_redirect, rows m (if_neg (by simpa using stays))]
      congr 1
      cases kept : keep c.forward.length with
      | false => simp
      | true =>
        have direct := hidden _ kept
        have any := any_merged_iff equivalent.wellFormed condenses apart old stays
        have any' := any_merged_iff equivalent.wellFormed' condenses' apart'
          (pair.table.length ▸ old) (pair.node ▸ stays)
        rw [pair.node, pair.table.length, edge_iff_of_not_implied
          (mt (implied_iff_of_paths paths).1 direct), paths, ← edge_iff_of_not_implied direct,
          ← any, ← Bool.eq_iff_iff] at any'
        rw [any']

end Condensed

namespace Merging

variable {m m' : Merging}

/-- Two states of merging differ in implied edges only. -/
structure Matches (m m' : Merging) : Prop where
  alone : m'.alone = m.alone
  graph : m.graph.Matches m'.graph

theorem connected_eq (pair : m.Matches m') :
    m'.graph.connected m'.closure = m.graph.connected m.closure := by
  funext i j
  rw [Bool.eq_iff_iff, connected_iff, connected_iff, pair.graph.node]
  simp only [pair.graph.table.paths]

theorem absorb_eq (equivalent : g.Equivalent g') (pair : m.Matches m') (group candidates : List Nat) :
    absorb g' m' group candidates = absorb g m group candidates := by
  unfold absorb
  rw [connected_eq pair, equivalent.select]

theorem Matches.start (equivalent : g.Equivalent g') : (start g).Matches (start g') where
  alone := by simp only [Merging.start, equivalent.size]
  graph := by
    refine ⟨?_, ?_, ?_, equivalent.table⟩ <;>
      simp only [Merging.start, Condensed.ofGraph, equivalent.size]

theorem Matches.step (equivalent : g.Equivalent g') (sound : m.Sound g) (sound' : m'.Sound g')
    (pair : m.Matches m') : (m.step g).Matches (m'.step g') := by
  unfold Merging.step
  cases split : m.alone with
  | nil =>
    rw [pair.alone, split]
    exact pair
  | cons seed rest =>
    have split' : m'.alone = seed :: rest := pair.alone.trans split
    have apart := sound.apart split
    have apart' := sound'.apart split'
    have same := absorb_eq equivalent pair [seed] rest.reverse
    rw [split']
    simp only [same] at apart' ⊢
    split
    · exact ⟨rfl, pair.graph⟩
    · exact ⟨rfl, pair.graph.condense equivalent sound.condenses sound'.condenses apart apart'⟩

theorem Matches.steps (equivalent : g.Equivalent g') (sound : m.Sound g) (sound' : m'.Sound g')
    (pair : m.Matches m') (count : Nat) : (steps g count m).Matches (steps g' count m') := by
  induction count generalizing m m' with
  | zero => exact pair
  | succ count ih =>
    exact ih (sound.step equivalent.wellFormed) (sound'.step equivalent.wellFormed')
      (pair.step equivalent sound sound')

end Merging

theorem condensedPlan_eq (equivalent : g.Equivalent g') (acyclic : Acyclic g.Edge) :
    condensedPlan g' = condensedPlan g := by
  have sound := (Merging.Sound.start equivalent.wellFormed).steps equivalent.wellFormed g.size
  have sound' := (Merging.Sound.start equivalent.wellFormed').steps equivalent.wellFormed' g.size
  have pair := (Merging.Matches.start equivalent).steps equivalent
    (Merging.Sound.start equivalent.wellFormed) (Merging.Sound.start equivalent.wellFormed') g.size
  unfold condensedPlan Condensed.order
  dsimp only
  rw [equivalent.size]
  generalize Merging.steps g g.size (Merging.start g) = m at *
  generalize Merging.steps g' g.size (Merging.start g') = m' at *
  have within (a b : Nat) (edge : Leads m.graph.forward a b) : b < m.graph.forward.length :=
    (sound.condenses.leads_lt equivalent.wellFormed edge).2
  have members : m'.graph.membersOf = m.graph.membersOf := pair.graph.membersOf
  rw [pair.graph.table.toposort_eq within (sound.condenses.acyclic acyclic), pair.graph.alive,
    members, equivalent.select]

/-! ## All planners -/

theorem Planner.schedule_eq (equivalent : g.Equivalent g') (acyclic : Acyclic g.Edge)
    (planner : Planner) : planner.schedule g' = planner.schedule g := by
  cases planner with
  | greedy => exact greedyPlan_eq equivalent acyclic
  | tree => exact exhaustivePlan_eq_of_equivalent equivalent
  | noop => exact singletonPlan_eq equivalent acyclic
  | transitive => exact condensedPlan_eq equivalent acyclic

end BatchGraph
