import Mathlib.Algebra.BigOperators.Group.Finset.Basic
import BatchGraph.Dependency.Closure
import BatchGraph.Proofs.Dependency.Toposort

/-!
The closure of a table holds the paths of its edges.

The invariant of the search is `Closure.Search.Explores`: only nodes that are reached are marked or
on the stack, and what the start or a marked node leads to is marked or on the stack.  Once the
stack is empty, the marked nodes are those that are reached.

That it gets empty is seen from `Closure.Search.weight`, which counts the nodes on the stack and the
successors of the nodes that may still be marked: each look at a node takes one off it
(`weight_step`).  So the search looks at no more nodes than `limit` says, and the closure of every
table is reachability (`closure_reachability`).
-/

namespace BatchGraph

open Relation

namespace Closure

namespace Search

variable {successors : List (List Nat)} {s : Search} {node start i j : Nat} {stack : List Nat}

/-! ## One look -/

theorem mem_reverse_row : j ∈ (successors[node]?.getD []).reverse ↔ Leads successors node j :=
  List.mem_reverse

theorem testBit_mark (marked : Nat) :
    (marked ||| 1 <<< node).testBit j = true ↔ marked.testBit j = true ∨ j = node := by
  rw [Nat.testBit_or, Nat.one_shiftLeft, Nat.testBit_two_pow, Bool.or_eq_true, decide_eq_true_eq,
    eq_comm (a := j)]

/-- A marked node is taken off the stack. -/
theorem step_marked (onTop : s.stack = node :: stack) (isMarked : s.marked.testBit node = true) :
    s.step successors = ⟨s.marked, stack⟩ := by
  rw [step, onTop]
  exact if_pos isMarked

/-- A new node is marked, and its successors come on the stack. -/
theorem step_new (onTop : s.stack = node :: stack) (isNew : s.marked.testBit node = false) :
    s.step successors =
      ⟨s.marked ||| 1 <<< node, (successors[node]?.getD []).reverse ++ stack⟩ := by
  rw [step, onTop]
  exact if_neg (by rw [isNew]; exact Bool.false_ne_true)

/-! ## What is found -/

/-- The node is marked or on the stack. -/
def Knows (s : Search) (j : Nat) : Prop := s.marked.testBit j = true ∨ j ∈ s.stack

/-- What is known is reached from the start, and what the start or a marked node leads to is
known. -/
structure Explores (successors : List (List Nat)) (start : Nat) (s : Search) : Prop where
  sound : ∀ j, s.Knows j → TransGen (Leads successors) start j
  first : ∀ j, Leads successors start j → s.Knows j
  onward : ∀ i j, s.marked.testBit i = true → Leads successors i j → s.Knows j

namespace Explores

theorem ofStart (successors : List (List Nat)) (start : Nat) :
    Explores successors start (Search.start successors start) where
  sound j known := by
    rcases known with isMarked | onStack
    · simp [Search.start] at isMarked
    · exact .single (mem_reverse_row.1 onStack)
  first j edge := .inr (mem_reverse_row.2 edge)
  onward i j isMarked := by simp [Search.start] at isMarked

/-- A look at a node loses nothing of what is known, and adds what the node leads to. -/
theorem step (explores : Explores successors start s) :
    Explores successors start (s.step successors) := by
  cases onTop : s.stack with
  | nil =>
    rw [Search.step, onTop]
    exact explores
  | cons node stack =>
    have top (j : Nat) (known : s.Knows j) : s.marked.testBit j = true ∨ j = node ∨ j ∈ stack := by
      rwa [Knows, onTop, List.mem_cons] at known
    rcases Bool.eq_false_or_eq_true (s.marked.testBit node) with isMarked | isNew
    · rw [step_marked onTop isMarked]
      have keeps (j : Nat) (known : s.Knows j) : Knows ⟨s.marked, stack⟩ j := by
        rcases top j known with before | rfl | below
        · exact .inl before
        · exact .inl isMarked
        · exact .inr below
      refine ⟨fun j known => explores.sound j ?_, fun j edge => keeps j (explores.first j edge),
        fun i j before edge => keeps j (explores.onward i j before edge)⟩
      rw [Knows, onTop]
      exact known.imp_right (List.mem_cons_of_mem node)
    · rw [step_new onTop isNew]
      have isKnown : s.Knows node := .inr (by rw [onTop]; exact List.mem_cons_self)
      have knows (j : Nat) : Knows ⟨s.marked ||| 1 <<< node,
            (successors[node]?.getD []).reverse ++ stack⟩ j ↔
          s.Knows j ∨ Leads successors node j := by
        simp only [Knows, testBit_mark, List.mem_append, mem_reverse_row, onTop, List.mem_cons]
        tauto
      refine ⟨fun j known => ?_, fun j edge => (knows j).2 (.inl (explores.first j edge)),
        fun i j before edge => (knows j).2 ?_⟩
      · rcases (knows j).1 known with before | edge
        · exact explores.sound j before
        · exact (explores.sound node isKnown).tail edge
      · rcases (testBit_mark _).1 before with before | rfl
        · exact .inl (explores.onward i j before edge)
        · exact .inr edge

theorem run (explores : Explores successors start s) (count : Nat) :
    Explores successors start (s.run successors count) := by
  induction count generalizing s with
  | zero => exact explores
  | succ count ih =>
    rw [Search.run]
    split
    · exact explores
    · exact ih explores.step

/-- When no node is left to be looked at, the marked ones are those that are reached. -/
theorem marked_iff (explores : Explores successors start s) (done : s.stack = []) :
    s.marked.testBit j = true ↔ TransGen (Leads successors) start j := by
  have isMarked (k : Nat) (known : s.Knows k) : s.marked.testBit k = true :=
    known.resolve_right (by rw [done]; exact List.not_mem_nil)
  constructor
  · exact fun before => explores.sound j (.inl before)
  · intro path
    induction path with
    | single edge => exact isMarked _ (explores.first _ edge)
    | tail _ edge ih => exact isMarked _ (explores.onward _ _ ih edge)

end Explores

/-! ## How long it takes -/

/-- The nodes that have not been marked. -/
def unmarked (successors : List (List Nat)) (s : Search) : Finset Nat :=
  (Finset.range successors.length).filter fun i => s.marked.testBit i = false

/-- How many nodes may still be looked at: those on the stack, and the successors of those that may
be marked yet. -/
def weight (successors : List (List Nat)) (s : Search) : Nat :=
  s.stack.length + ∑ i ∈ s.unmarked successors, (successors[i]?.getD []).length

theorem weight_start (successors : List (List Nat)) (node : Nat) :
    (Search.start successors node).weight successors = limit successors node := by
  have all : (Search.start successors node).unmarked successors =
      (List.range successors.length).toFinset := by
    ext i
    simp [unmarked, Search.start]
  have rows : ((List.range successors.length).map fun i => (successors[i]?.getD []).length) =
      successors.map List.length := by
    apply List.ext_getElem (by simp)
    intro i _ inside
    simp [List.getElem?_eq_getElem (show i < successors.length by simpa using inside)]
  rw [weight, all, limit, List.sum_toFinset _ List.nodup_range, rows, ← List.length_flatten,
    Search.start, List.length_reverse]

theorem unmarked_mark :
    unmarked successors ⟨s.marked ||| 1 <<< node, stack⟩ = (s.unmarked successors).erase node := by
  ext i
  have marks : (s.marked ||| 1 <<< node).testBit i = true ↔ s.marked.testBit i = true ∨ i = node :=
    testBit_mark s.marked
  simp only [unmarked, Finset.mem_filter, Finset.mem_erase, ← Bool.not_eq_true, marks]
  tauto

/-- The successors of a node count until it is marked. -/
theorem sum_unmarked (isNew : s.marked.testBit node = false) :
    ∑ i ∈ s.unmarked successors, (successors[i]?.getD []).length =
      (successors[node]?.getD []).length +
        ∑ i ∈ (s.unmarked successors).erase node, (successors[i]?.getD []).length := by
  by_cases inside : node < successors.length
  · refine (Finset.add_sum_erase _ _ ?_).symm
    exact Finset.mem_filter.2 ⟨Finset.mem_range.2 inside, isNew⟩
  · have outside : node ∉ s.unmarked successors := fun member =>
      inside (Finset.mem_range.1 (Finset.mem_filter.1 member).1)
    rw [List.getElem?_eq_none (Nat.le_of_not_lt inside), Finset.erase_eq_of_notMem outside]
    exact (Nat.zero_add _).symm

/-- A look at a node uses it up. -/
theorem weight_step (onTop : s.stack = node :: stack) :
    s.weight successors = (s.step successors).weight successors + 1 := by
  rcases Bool.eq_false_or_eq_true (s.marked.testBit node) with isMarked | isNew
  · rw [step_marked onTop isMarked, weight, weight, onTop, List.length_cons]
    exact Nat.add_right_comm _ _ _
  · rw [step_new onTop isNew, weight, weight, onTop, unmarked_mark, sum_unmarked isNew,
      List.length_cons, List.length_append, List.length_reverse]
    omega

/-- A search that may look at as many nodes as it weighs looks at all of them. -/
theorem stack_run {count : Nat} (enough : s.weight successors ≤ count) :
    (s.run successors count).stack = [] := by
  induction count generalizing s with
  | zero =>
    have none : s.stack.length = 0 := by
      rw [weight] at enough
      omega
    exact List.length_eq_zero_iff.1 none
  | succ count ih =>
    rw [run]
    cases onTop : s.stack with
    | nil => simpa using onTop
    | cons node stack =>
      have less : s.weight successors = (s.step successors).weight successors + 1 :=
        weight_step onTop
      exact ih (by omega)

/-- A search that may look at enough nodes has found what is reached when its stack is empty. -/
theorem run_start (successors : List (List Nat)) (start : Nat) {count : Nat}
    (enough : limit successors start ≤ count) :
    ((Search.start successors start).run successors count).stack = [] ∧
      ∀ j, ((Search.start successors start).run successors count).marked.testBit j = true ↔
        TransGen (Leads successors) start j := by
  have done : ((Search.start successors start).run successors count).stack = [] :=
    stack_run (by rwa [weight_start])
  exact ⟨done, fun j => ((Explores.ofStart successors start).run count).marked_iff done⟩

end Search

/-! ## Reachability -/

variable {successors : List (List Nat)}

/-- A node reaches another one exactly if a path leads to it. -/
theorem reaches_iff {i j : Nat} :
    (ofSuccessors successors).reaches i j = true ↔ TransGen (Leads successors) i j := by
  by_cases inside : i < successors.length
  · rw [reaches, ofSuccessors, List.getElem?_map, List.getElem?_range inside]
    exact (Search.run_start successors i le_rfl).2 j
  · have none : (ofSuccessors successors).reaches i j = false := by
      rw [reaches, List.getElem?_eq_none (by simpa [ofSuccessors] using inside), Option.getD_none,
        Nat.zero_testBit]
    rw [none]
    refine ⟨fun reached => absurd reached Bool.false_ne_true, fun path => ?_⟩
    obtain ⟨next, edge, -⟩ := TransGen.head'_iff.1 path
    exact absurd edge.lt_length inside

/-- The search from every node comes to its end: however many nodes it may look at beyond the limit,
its stack is empty, and the nodes that it has marked are the row of the closure.  They are the nodes
to which a path of at least one edge leads, the start among them exactly if it lies on a cycle. -/
theorem closure_reachability (successors : List (List Nat)) :
    (∀ i more, ((Search.start successors i).run successors
      (Search.limit successors i + more)).stack = []) ∧
    (∀ more, (ofSuccessors successors).rows = (List.range successors.length).map fun i =>
      ((Search.start successors i).run successors (Search.limit successors i + more)).marked) ∧
    ∀ i j, (ofSuccessors successors).reaches i j = true ↔ TransGen (Leads successors) i j := by
  refine ⟨fun i more => (Search.run_start successors i (Nat.le_add_right _ more)).1,
    fun more => List.map_congr_left fun i _ => Nat.eq_of_testBit_eq fun j => ?_,
    fun i j => reaches_iff⟩
  rw [Bool.eq_iff_iff, (Search.run_start successors i le_rfl).2 j,
    (Search.run_start successors i (Nat.le_add_right _ more)).2 j]

/-- Two nodes on a cycle, one behind it, and one in front of it. -/
example : (List.range 4).map (ofSuccessors [[1, 1], [0, 2], [], [1, 3, 0]]).reachable =
    [[0, 1, 2], [0, 1, 2], [], [0, 1, 2, 3]] := by decide

end Closure

end BatchGraph
