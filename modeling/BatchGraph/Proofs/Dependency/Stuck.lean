import Mathlib.Data.Set.Card
import BatchGraph.Proofs.Dependency.Toposort

/-!
What never runs in the order of dependencies.

A node is `Stuck` if it lies on a cycle or behind one.  A stuck node waits for a stuck one
(`Stuck.exists_predecessor`), so that it never comes to run; and where each of finitely many nodes
waits for another one of them, they are stuck (`stuck_of_blocked`).  So whoever runs all that waits
for nothing is left with exactly the stuck nodes (`ncard_stuck`), as is the topological order
(`toposort_eq_error_of_cyclic`).  An acyclic table has no such nodes and is sorted completely, so
that sorting says of every table which of the two it is (`toposort_correct`).
-/

namespace BatchGraph

open Relation

section Relation

variable {α β : Type} {E : α → α → Prop} {F : β → β → Prop} {a b : α}

/-- The node lies on a cycle or behind one. -/
def Stuck (E : α → α → Prop) (a : α) : Prop := ∃ b, TransGen E b b ∧ ReflTransGen E b a

namespace Stuck

theorem of_edge (stuck : Stuck E a) (edge : E a b) : Stuck E b := by
  obtain ⟨start, cycle, path⟩ := stuck
  exact ⟨start, cycle, path.tail edge⟩

/-- A stuck node waits for a stuck one. -/
theorem exists_predecessor (stuck : Stuck E a) : ∃ b, Stuck E b ∧ E b a := by
  obtain ⟨start, cycle, path⟩ := stuck
  obtain ⟨last, before, edge⟩ := TransGen.tail'_iff.1 (TransGen.trans_left cycle path)
  exact ⟨last, ⟨start, cycle, before⟩, edge⟩

/-- A map that keeps edges keeps what is stuck. -/
theorem map (f : α → β) (keeps : ∀ a b, E a b → F (f a) (f b)) (stuck : Stuck E a) :
    Stuck F (f a) := by
  obtain ⟨start, cycle, path⟩ := stuck
  exact ⟨f start, cycle.lift f keeps, path.lift f keeps⟩

end Stuck

theorem exists_stuck (cyclic : ¬ Acyclic E) : ∃ a, Stuck E a := by
  unfold Acyclic at cyclic
  push Not at cyclic
  obtain ⟨a, cycle⟩ := cyclic
  exact ⟨a, a, cycle, .refl⟩

/-- What waits for nothing that is stuck is not stuck. -/
theorem not_stuck_of_ready (ready : ∀ b, E b a → ¬ Stuck E b) : ¬ Stuck E a := by
  intro stuck
  obtain ⟨b, waits, edge⟩ := stuck.exists_predecessor
  exact ready b edge waits

/-- Finitely many nodes that wait for each other are stuck. -/
theorem stuck_of_blocked {left : List α} (blocked : ∀ a ∈ left, ∃ b ∈ left, E b a) :
    ∀ a ∈ left, Stuck E a := by
  classical
  -- Among the nodes that are not stuck no path closes, so that one of them waits for none.
  have acyclic : Acyclic fun a b => E a b ∧ ¬ Stuck E b := by
    intro a cycle
    obtain ⟨before, -, -, clear⟩ := TransGen.tail'_iff.1 cycle
    exact clear ⟨a, cycle.lift id fun _ _ edge => edge.1, .refl⟩
  by_contra exception
  push Not at exception
  obtain ⟨a, isLeft, clear⟩ := exception
  have nonempty : left.filter (fun a => ¬ Stuck E a) ≠ [] :=
    List.ne_nil_of_mem (List.mem_filter.2 ⟨isLeft, by simpa using clear⟩)
  obtain ⟨source, isSource, none⟩ := acyclic.exists_source nonempty
  rw [List.mem_filter, decide_eq_true_eq] at isSource
  obtain ⟨b, isLeft', edge⟩ := blocked source isSource.1
  have clear' : ¬ Stuck E b := fun stuck => isSource.2 (stuck.of_edge edge)
  exact none b (List.mem_filter.2 ⟨isLeft', by simpa using clear'⟩) ⟨edge, isSource.2⟩

/-- If nodes wait for each other and no other node is stuck, they are the stuck ones. -/
theorem ncard_stuck_eq_length {left : List α} (once : left.Nodup)
    (known : ∀ a, Stuck E a → a ∈ left) (blocked : ∀ a ∈ left, ∃ b ∈ left, E b a) :
    {a | Stuck E a}.ncard = left.length := by
  classical
  have same : {a | Stuck E a} = (left.toFinset : Set α) := by
    ext a
    rw [List.coe_toFinset]
    exact ⟨known a, stuck_of_blocked blocked a⟩
  rw [same, Set.ncard_coe_finset, List.toFinset_card_of_nodup once]

end Relation

/-! ## What is left -/

/-- If nothing that is done is stuck, and everything that is left waits for something that is left,
the stuck nodes are those that are left. -/
theorem ncard_stuck {E : Nat → Nat → Prop} {count : Nat} {done : List Nat}
    (inside : ∀ i j, E i j → i < count ∧ j < count) (once : done.Nodup)
    (within : ∀ i ∈ done, i < count) (clear : ∀ i ∈ done, ¬ Stuck E i)
    (blocked : ∀ j < count, j ∉ done → ∃ i, i ∉ done ∧ E i j) :
    {i | Stuck E i}.ncard = count - done.length := by
  have isLeft (i : Nat) : i ∈ ((List.range count).filter fun i => !done.contains i) ↔
      i < count ∧ i ∉ done := by simp
  rw [← Distinct.length_filter_not_contains once within]
  refine ncard_stuck_eq_length (List.nodup_range.filter _) (fun i stuck => ?_) fun j remains => ?_
  · obtain ⟨before, -, edge⟩ := stuck.exists_predecessor
    exact (isLeft i).2 ⟨(inside before i edge).2, fun ran => clear i ran stuck⟩
  · obtain ⟨bound, notDone⟩ := (isLeft j).1 remains
    obtain ⟨i, left, edge⟩ := blocked j bound notDone
    exact ⟨i, (isLeft i).2 ⟨(inside i j edge).1, left⟩, edge⟩

/-! ## The topological order -/

section Table

variable {successors : List (List Nat)}

/-- No stuck node is taken. -/
theorem takeFree_not_stuck (within : ∀ i j, Leads successors i j → j < successors.length)
    (count : Nat) {taken degrees queue : List Nat} (taking : Taking successors taken degrees queue)
    (clear : ∀ i ∈ taken, ¬ Stuck (Leads successors) i) :
    ∀ i ∈ takeFree successors count degrees queue, ¬ Stuck (Leads successors) i := by
  induction count generalizing taken degrees queue with
  | zero => exact fun i member => nomatch member
  | succ count ih =>
    cases queue with
    | nil => exact fun i member => nomatch member
    | cons node queue =>
      have ready : ¬ Stuck (Leads successors) node :=
        not_stuck_of_ready fun i edge => clear i (taking.ready_head i edge)
      refine List.forall_mem_cons.2 ⟨ready, ih (taking.step within) ?_⟩
      exact List.forall_mem_append.2 ⟨clear, List.forall_mem_singleton.2 ready⟩

/-- Sorting a table with cycles fails, and counts the nodes on cycles and behind them. -/
theorem toposort_eq_error_of_cyclic
    (within : ∀ i j, Leads successors i j → j < successors.length)
    (cyclic : ¬ Acyclic (Leads successors)) :
    toposort successors = .error (.cycle {i | Stuck (Leads successors) i}.ncard) := by
  have spec := takeFree_spec within successors.length Taking.start (by simp)
  have clear := takeFree_not_stuck within successors.length Taking.start (by simp)
  simp only [List.nil_append] at spec
  obtain ⟨once, bound, -, left⟩ := spec
  have count := ncard_stuck (fun i j edge => ⟨edge.lt_length, within i j edge⟩) once bound clear left
  obtain ⟨node, stuck⟩ := exists_stuck cyclic
  unfold toposort
  dsimp only
  generalize takeFree successors successors.length (indegrees successors) _ = sorted at *
  split
  case isTrue all =>
    -- All nodes are sorted, the stuck one included.
    have complete := (once.subperm fun i member =>
      List.mem_range.2 (bound i member)).perm_of_length_le (by simp [all])
    obtain ⟨before, -, edge⟩ := stuck.exists_predecessor
    have isSorted := complete.mem_iff.2 (List.mem_range.2 (within before node edge))
    exact absurd stuck (clear node isSorted)
  case isFalse => rw [count]

/-- What the loop takes if it may take `count` nodes. -/
def takenWithin (successors : List (List Nat)) (count : Nat) : List Nat :=
  takeFree successors count (indegrees successors)
    ((List.range successors.length).filter fun node => (indegrees successors)[node]? = some 0)

/-- An acyclic table is sorted so that every node comes before those that it leads to; otherwise the
error counts the nodes on cycles and behind them.  The loop ends by itself: with a higher bound it
takes the same nodes. -/
theorem toposort_correct (within : ∀ row ∈ successors, ∀ j ∈ row, j < successors.length) :
    (∀ more, takenWithin successors (successors.length + more) =
      takenWithin successors successors.length) ∧
    (Acyclic (Leads successors) → ∃ order, toposort successors = .ok order ∧
      order = takenWithin successors successors.length ∧
      order.Perm (List.range successors.length) ∧
      ∀ i j, Leads successors i j → order.idxOf i < order.idxOf j) ∧
    (¬ Acyclic (Leads successors) →
      toposort successors = .error (.cycle {i | Stuck (Leads successors) i}.ncard)) := by
  have inside (i j : Nat) (edge : Leads successors i j) : j < successors.length := by
    have isRow := List.getElem?_eq_getElem edge.lt_length
    rw [Leads, isRow] at edge
    exact within _ (List.getElem_mem _) j edge
  refine ⟨takeFree_add inside _ Taking.start (by simp), fun acyclic => ?_,
    toposort_eq_error_of_cyclic inside⟩
  obtain ⟨order, success⟩ := exists_toposort_eq_ok inside acyclic
  refine ⟨order, success, ?_, (toposort_eq_ok inside success).1,
    fun i j edge => idxOf_lt_of_toposort inside success acyclic edge⟩
  unfold toposort at success
  dsimp only at success
  split at success
  · exact (Except.ok.inj success).symm
  · cases success

/-- A node with two edges to a cycle, a node behind the cycle that leads to itself, and one apart. -/
def tangle : List (List Nat) := [[1, 1], [2], [1, 3], [3], []]

example : toposort [[1, 1], [2], [], [2, 1], [2]] = .ok [0, 3, 4, 1, 2] := by decide

/-- Three of the nodes of the tangle are stuck. -/
theorem toposort_correct_tangle :
    (∀ row ∈ tangle, ∀ j ∈ row, j < tangle.length) ∧ ¬ Acyclic (Leads tangle) ∧
      {i | Stuck (Leads tangle) i}.ncard = 3 := by
  have within : ∀ row ∈ tangle, ∀ j ∈ row, j < tangle.length := by decide
  have onCycle : TransGen (Leads tangle) 3 3 :=
    .single (show (3 : Nat) ∈ (tangle[3]?).getD [] by decide)
  have cyclic : ¬ Acyclic (Leads tangle) := fun acyclic => acyclic 3 onCycle
  have failure := (toposort_correct within).2.2 cyclic
  have counted : toposort tangle = .error (.cycle 3) := by decide
  rw [counted] at failure
  injection failure with same
  injection same with same
  exact ⟨within, cyclic, same.symm⟩

end Table

end BatchGraph
