import BatchGraph.Proofs.Layout.Partition
import BatchGraph.Proofs.Signal

/-!
An order is cut exactly where no slot of a group reaches across.

The sweep along the order keeps a running number of open spans, in which spans that start and end at
the same signal cancel out.  What it finds is said without any counting: a position is a break if
and only if no slot has a base in front of it and another one behind it (`Partition.Crosses`).  The
breaks come in order, and the last one is the end.
-/

namespace BatchGraph

namespace Partition

variable {signals : List Signal} {plan : Plan}

/-- One of the operators has the base at position `j` at this slot. -/
def HasSlotAt (signals : List Signal) (group : List Operator) (slot j : Nat) : Prop :=
  ∃ op ∈ group, ∃ s ∈ op.allSignals[slot]?, signals[j]? = some s.root

theorem HasSlotAt.lt_length {group : List Operator} {slot j : Nat}
    (holds : HasSlotAt signals group slot j) : j < signals.length := by
  obtain ⟨op, -, s, -, isAt⟩ := holds
  exact (List.getElem?_eq_some_iff.1 isAt).1

/-- Some slot of the group, which is not of resets, has a base up to position `i` and one behind. -/
def Crosses (signals : List Signal) (group : List Operator) (i : Nat) : Prop :=
  ∃ first ∈ group.head?, first.action.builder ≠ .reset ∧
    ∃ slot < first.allSignals.length,
      (∃ j ≤ i, HasSlotAt signals group slot j) ∧ ∃ k > i, HasSlotAt signals group slot k

/-- The bases at a slot are those that the operators have there. -/
theorem mem_slotBases {group : List Operator} {slot : Nat} {bases : List Signal}
    (areBases : slotBases group slot = .ok bases) {s : Signal} {j : Nat}
    (isAt : signals[j]? = some s) : s ∈ bases ↔ HasSlotAt signals group slot j := by
  obtain ⟨filling, filled⟩ := of_slotBases_eq_ok areBases
  constructor
  · intro member
    obtain ⟨op, isOp, t, isT, rfl⟩ := filling s member
    exact ⟨op, isOp, t, isT, isAt⟩
  · rintro ⟨op, isOp, t, isT, isAt'⟩
    obtain ⟨t', isT', member⟩ := filled op isOp
    cases isT.symm.trans isT'
    cases isAt.symm.trans isAt'
    exact member

/-- A group leaves no span open behind a position exactly if it does not cross it. -/
theorem uncrossed_iff (distinct : signals.Nodup) {group : List Operator}
    {spans : List (Signal × Signal)}
    (success : groupSpans (Assoc.lastPositions signals) group = .ok spans) {i : Nat} :
    (∀ x ∈ spans, x.1 ∈ signals.take (i + 1) → x.2 ∈ signals.take (i + 1)) ↔
      ¬ Crosses signals group i := by
  obtain ⟨first, isFirst, comes, slots⟩ := of_groupSpans_eq_ok distinct success
  constructor
  · rintro uncrossed ⟨first', isFirst', notReset, slot, inside, ⟨j, before, atJ⟩, k, behind, atK⟩
    cases isFirst.symm.trans isFirst'
    obtain ⟨bases, areBases, x, isSpan, spans_⟩ := slots notReset slot inside
    have isBase {p : Nat} (holds : HasSlotAt signals group slot p) :
        ∃ s ∈ bases, signals[p]? = some s :=
      ⟨_, (mem_slotBases areBases (List.getElem?_eq_getElem holds.lt_length)).2 holds,
        List.getElem?_eq_getElem holds.lt_length⟩
    obtain ⟨s, isS, isAtJ⟩ := isBase atJ
    obtain ⟨t, isT, isAtK⟩ := isBase atK
    have side := spans_.le_of_le distinct isS isT isAtJ isAtK (uncrossed x isSpan) before
    omega
  · intro free x isSpan starts
    obtain ⟨notReset, slot, inside, bases, areBases, spans_⟩ := comes x isSpan
    obtain ⟨j, atJ, -⟩ := spans_.within x.1 spans_.starts
    obtain ⟨k, atK, -⟩ := spans_.within x.2 spans_.ends
    rw [mem_take_iff distinct atJ] at starts
    rw [mem_take_iff distinct atK]
    by_contra behind
    exact free ⟨first, isFirst, notReset, slot, inside,
      ⟨j, by omega, (mem_slotBases areBases atJ).1 spans_.starts⟩,
      k, by omega, (mem_slotBases areBases atK).1 spans_.ends⟩

/-- Closings are found in order. -/
theorem pairwise_closings (spans : List (Signal × Signal)) (rest : List Signal) (i : Nat)
    (before : Int) : (closings spans rest i before).Pairwise (· < ·) := by
  induction rest generalizing i before with
  | nil => exact .nil
  | cons s rest ih =>
    rw [closings]
    split
    case isTrue =>
      refine List.pairwise_cons.2 ⟨fun p later => ?_, ih (i + 1) _⟩
      obtain ⟨k, -, rfl, -⟩ := mem_closings.1 later
      omega
    case isFalse => exact ih (i + 1) _

/-- The last of numbers in order is their upper bound, if it is one of them. -/
theorem getLast?_of_pairwise_lt {xs : List Nat} {bound : Nat} (sorted : xs.Pairwise (· < ·))
    (member : bound ∈ xs) (upper : ∀ x ∈ xs, x ≤ bound) : xs.getLast? = some bound := by
  obtain ⟨front, last, rfl⟩ := List.append_of_mem member
  cases last with
  | nil => simp
  | cons next last =>
    have larger : bound < next :=
      List.rel_of_pairwise_cons (List.pairwise_append.1 sorted).2.1 List.mem_cons_self
    have := upper next (by simp)
    omega

/-- The breaks of an order are the positions that no slot of a group crosses, in order, and the last
of them is the end. -/
theorem breaks_uncrossed (distinct : signals.Nodup) (aligned : plan.Aligned signals) :
    ∃ found, breaks signals plan = .ok found ∧
      (∀ i < signals.length, i + 1 ∈ found ↔ ∀ group ∈ plan, ¬ Crosses signals group i) ∧
      (∀ p ∈ found, 0 < p ∧ p ≤ signals.length) ∧ found.Pairwise (· < ·) ∧
      (signals ≠ [] → found.getLast? = some signals.length) := by
  obtain ⟨found, success⟩ := exists_breaks aligned
  obtain ⟨spans, areSpans, mem_found⟩ := of_breaks_eq_ok distinct success
  have uncrossed (i : Nat) :
      (∀ x ∈ spans.flatten, x.1 ∈ signals.take (i + 1) → x.2 ∈ signals.take (i + 1)) ↔
        ∀ group ∈ plan, ¬ Crosses signals group i := by
    constructor
    · intro none group isGroup
      obtain ⟨ofGroup, isResult, result⟩ := Except.exists_result_of_mem areSpans isGroup
      exact (uncrossed_iff distinct result).1 fun x isSpan =>
        none x (List.mem_flatten.2 ⟨ofGroup, isResult, isSpan⟩)
    · intro none x isSpan
      obtain ⟨ofGroup, isResult, isSpan⟩ := List.mem_flatten.1 isSpan
      obtain ⟨group, isGroup, result⟩ := Except.exists_of_mem_result areSpans isResult
      exact (uncrossed_iff distinct result).2 (none group isGroup) x isSpan
  have mem_iff (i : Nat) (inside : i < signals.length) :
      i + 1 ∈ found ↔ ∀ group ∈ plan, ¬ Crosses signals group i := by
    rw [mem_found, ← uncrossed]
    constructor
    · rintro ⟨k, -, same, none⟩
      rwa [Nat.succ.inj same]
    · exact fun none => ⟨i, inside, rfl, none⟩
  have bounds (p : Nat) (isBreak : p ∈ found) : 0 < p ∧ p ≤ signals.length := by
    obtain ⟨k, inside, rfl, -⟩ := (mem_found p).1 isBreak
    omega
  have sorted : found.Pairwise (· < ·) := by
    obtain ⟨_, -, success⟩ := Except.bind_eq_ok_iff.1 success
    cases success
    exact pairwise_closings _ _ _ _
  refine ⟨found, success, mem_iff, bounds, sorted, fun nonempty => ?_⟩
  have positive := List.length_pos_iff.2 nonempty
  refine getLast?_of_pairwise_lt sorted ?_ fun p isBreak => (bounds p isBreak).2
  -- Behind the last signal there is no base to reach.
  have last := (mem_iff (signals.length - 1) (by omega)).2 ?_
  · rwa [Nat.sub_add_cancel positive] at last
  · rintro group - ⟨first, -, -, slot, -, -, k, behind, atK⟩
    have := atK.lt_length
    omega

/-- Single numbers in memory. -/
def point (id : Nat) : Signal :=
  .ofBase ⟨id, "point", .float32, [1], [0], false, false, Base.natural_extents_one,
    Base.initial_length_one⟩

def readPoint (id : Nat) : Operator := .func id false [] [] [point id] [] none

/-- Three numbers, of which a group of two operators reads the first two, are not cut between
these. -/
theorem breaks_uncrossed_points :
    ∃ found, breaks [point 0, point 1, point 2] [[readPoint 0, readPoint 1], [readPoint 2]] =
        .ok found ∧ 1 ∉ found ∧ found.getLast? = some 3 := by
  have aligned : Plan.Aligned [point 0, point 1, point 2]
      [[readPoint 0, readPoint 1], [readPoint 2]] :=
    ⟨by decide, by decide, by decide⟩
  obtain ⟨found, success, mem_found, -, -, last⟩ := breaks_uncrossed (by decide) aligned
  refine ⟨found, success, fun isBreak => ?_, last (by simp)⟩
  refine (mem_found 0 (by decide)).1 isBreak [readPoint 0, readPoint 1] List.mem_cons_self ?_
  exact ⟨readPoint 0, rfl, by decide, 0, by decide,
    ⟨0, by decide, readPoint 0, by simp, point 0, rfl, rfl⟩,
    1, by decide, readPoint 1, by simp, point 1, rfl, rfl⟩

end Partition

end BatchGraph
