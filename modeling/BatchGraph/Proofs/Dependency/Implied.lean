import BatchGraph.Proofs.Dependency.Closure
import BatchGraph.Proofs.Distinct

/-!
Edges that a longer path implies.

Tables are `Equivalent` if they have the same paths and their rows differ in implied targets only.
What runs in the order of its dependencies cannot tell them apart: the nodes that have run are
`Closed`, so that it does not matter whether a node waits for the edges or for the paths into it
(`Closed.forall_edge_iff`), and a node that is freed by another one is not implied by it
(`Closed.not_implied`).  Hence equivalent tables have one topological order
(`Equivalent.toposort_eq`).
-/

namespace BatchGraph

open Relation

/-! ## Paths and edges -/

section Relation

variable {α : Type} {E E' : α → α → Prop} {done : α → Prop} {i j node : α}

/-- A path of at least two edges leads from `i` to `j`. -/
def Implied (E : α → α → Prop) (i j : α) : Prop := ∃ b, TransGen E i b ∧ TransGen E b j

/-- Whoever leads to something that is done is done. -/
def Closed (E : α → α → Prop) (done : α → Prop) : Prop := ∀ i j, E i j → done j → done i

theorem edge_or_implied (path : TransGen E i j) : E i j ∨ Implied E i j := by
  cases path with
  | single edge => exact .inl edge
  | tail front edge => exact .inr ⟨_, front, .single edge⟩

theorem implied_iff_of_paths (paths : ∀ i j, TransGen E' i j ↔ TransGen E i j) :
    Implied E' i j ↔ Implied E i j := by
  simp only [Implied, paths]

/-- What is not implied is an edge exactly if it is a path. -/
theorem edge_iff_of_not_implied (direct : ¬ Implied E i j) : E i j ↔ TransGen E i j :=
  ⟨.single, fun path => (edge_or_implied path).resolve_right direct⟩

namespace Closed

variable (closed : Closed E done)

include closed

theorem of_path (path : TransGen E i j) (isDone : done j) : done i := by
  induction path with
  | single edge => exact closed _ _ edge isDone
  | tail _ edge ih => exact ih (closed _ _ edge isDone)

/-- Waiting for the edges into a node is waiting for all paths into it. -/
theorem forall_edge_iff : (∀ i, E i j → done i) ↔ ∀ i, TransGen E i j → done i := by
  constructor
  · intro ready i path
    obtain ⟨before, front, edge⟩ := TransGen.tail'_iff.1 path
    rcases reflTransGen_iff_eq_or_transGen.1 front with rfl | front
    · exact ready _ edge
    · exact closed.of_path front (ready _ edge)
  · intro ready i edge
    exact ready i (.single edge)

/-- One more node can be done if it waits for nothing else. -/
theorem insert (ready : ∀ i, E i node → done i) : Closed E fun i => i = node ∨ done i := by
  intro i j edge isDone
  rcases isDone with rfl | isDone
  · exact .inr (ready i edge)
  · exact .inr (closed i j edge isDone)

/-- The last node that `j` waits for does not imply it. -/
theorem not_implied (acyclic : Acyclic E) (left : ¬ done node)
    (ready : ∀ i, TransGen E i j → i = node ∨ done i) : ¬ Implied E node j := by
  intro implied
  obtain ⟨between, front, back⟩ := implied
  rcases ready between back with rfl | isDone
  · exact acyclic between front
  · exact left (closed.of_path front isDone)

end Closed

/-- Relations with the same paths have the same closed sets. -/
theorem Closed.of_paths (closed : Closed E done)
    (paths : ∀ i j, TransGen E' i j ↔ TransGen E i j) : Closed E' done :=
  fun i j edge isDone => closed.of_path ((paths i j).1 (.single edge)) isDone

end Relation

/-! ## Equivalent tables -/

/-- Tables without repeated targets, with the same paths and the same rows but for implied
targets. -/
structure Equivalent (successors successors' : List (List Nat)) : Prop where
  length : successors'.length = successors.length
  once : ∀ i : Nat, ((successors[i]?).getD []).Nodup
  once' : ∀ i : Nat, ((successors'[i]?).getD []).Nodup
  paths : ∀ i j, TransGen (Leads successors') i j ↔ TransGen (Leads successors) i j
  direct : ∀ (i : Nat) (keep : Nat → Bool),
    (∀ j, keep j = true → ¬ Implied (Leads successors) i j) →
    ((successors'[i]?).getD []).filter keep = ((successors[i]?).getD []).filter keep

namespace Equivalent

variable {successors successors' : List (List Nat)} {done : Nat → Prop} {i j node : Nat}
  (equivalent : Equivalent successors successors')

include equivalent

theorem within (within : ∀ i j, Leads successors i j → j < successors.length) (i j : Nat)
    (edge : Leads successors' i j) : j < successors'.length := by
  obtain ⟨before, -, edge⟩ := TransGen.tail'_iff.1 ((equivalent.paths i j).1 (.single edge))
  rw [equivalent.length]
  exact within before j edge

/-- The same nodes wait for nothing but what is done. -/
theorem ready_iff (closed : Closed (Leads successors) done) :
    (∀ i, Leads successors' i j → done i) ↔ ∀ i, Leads successors i j → done i := by
  rw [closed.forall_edge_iff, (closed.of_paths equivalent.paths).forall_edge_iff]
  simp only [equivalent.paths]

/-- A node frees the same nodes in the same order. -/
theorem filter_ready (acyclic : Acyclic (Leads successors))
    (closed : Closed (Leads successors) done) (left : ¬ done node)
    (ready : ∀ i, Leads successors i node → done i) {frees frees' : Nat → Bool}
    (frees_iff : ∀ j, frees j = true ↔ ∀ i, Leads successors i j → i = node ∨ done i)
    (frees_iff' : ∀ j, frees' j = true ↔ ∀ i, Leads successors' i j → i = node ∨ done i) :
    ((successors'[node]?).getD []).filter frees' = ((successors[node]?).getD []).filter frees := by
  have closed' := closed.insert ready
  have same : frees' = frees := by
    funext j
    rw [Bool.eq_iff_iff, frees_iff, frees_iff', equivalent.ready_iff closed']
  rw [same]
  refine equivalent.direct node frees fun j isFreed => ?_
  rw [frees_iff, closed'.forall_edge_iff] at isFreed
  exact closed.not_implied acyclic left isFreed

/-! ## The topological order -/

/-- In the same state the loop takes the same nodes from both tables. -/
theorem takeFree_eq (within : ∀ i j, Leads successors i j → j < successors.length)
    (acyclic : Acyclic (Leads successors)) (count : Nat) {taken degrees degrees' queue : List Nat}
    (taking : Taking successors taken degrees queue)
    (taking' : Taking successors' taken degrees' queue) :
    takeFree successors' count degrees' queue = takeFree successors count degrees queue := by
  induction count generalizing taken degrees degrees' queue with
  | zero => rfl
  | succ count ih =>
    cases queue with
    | nil => rfl
    | cons node queue =>
      have within' := equivalent.within within
      have freed : (release degrees' ((successors'[node]?).getD [])).2 =
          (release degrees ((successors[node]?).getD [])).2 := by
        rw [taking.freed_eq within (equivalent.once node),
          taking'.freed_eq within' (equivalent.once' node)]
        refine equivalent.filter_ready acyclic taking.closed taking.head_not_mem
          taking.ready_head (fun j => ?_) fun j => ?_
        · simp [edgesInto_eq_zero_iff, or_comm]
        · simp [edgesInto_eq_zero_iff, or_comm]
      have next := taking.step within
      have next' := taking'.step within'
      rw [freed] at next'
      simp only [takeFree]
      rw [freed, ih next next']

/-- Equivalent tables have one topological order. -/
theorem toposort_eq (within : ∀ i j, Leads successors i j → j < successors.length)
    (acyclic : Acyclic (Leads successors)) : toposort successors' = toposort successors := by
  have start := @Taking.start successors
  have start' := @Taking.start successors'
  have free : ((List.range successors'.length).filter fun node =>
      (indegrees successors')[node]? = some 0) =
      (List.range successors.length).filter fun node => (indegrees successors)[node]? = some 0 := by
    rw [equivalent.length]
    refine List.filter_congr fun j inside => ?_
    rw [List.mem_range] at inside
    have none : Closed (Leads successors) (· ∈ ([] : List Nat)) := fun i j _ isDone => by
      cases isDone
    rw [start.degree j inside, start'.degree j (equivalent.length ▸ inside), decide_eq_decide,
      Option.some.injEq, Option.some.injEq, edgesInto_eq_zero_iff, edgesInto_eq_zero_iff]
    exact equivalent.ready_iff none
  unfold toposort
  dsimp only
  rw [free] at start' ⊢
  rw [equivalent.length, equivalent.takeFree_eq within acyclic _ start start']

end Equivalent

end BatchGraph
