import Mathlib
import BatchGraph.Proofs.Refinement
import BatchGraph.Proofs.Order.Exchange

/-!
How far a converged order is sorted.

Refinement has converged when a pass changes nothing (`pass_of_settle`).  In that pass a group is
sorted for the last time at the visit of its last block (`LastVisit`).  Bases that are exchanged
from this visit on must have been exchanged before it as well, as the pass ends with the order from
which it started (`LastVisit.ExchangedAround`).  Except for operators that read two such bases, the
group is sorted against the final order (`converged_sorted`).  The exception is needed: groups of
equal weight can exchange two bases back and forth in every pass (`converged_unsorted`).
-/

namespace BatchGraph

open Refine Refine.Arrangement

/-- The operators are sorted by what they read at a slot, up to pairs that are excused.  Offsets
that do not compare are only compared with their neighbours. -/
structure SortedUpTo (excused : Operator → Operator → Prop) (order : List Signal) (slot : Nat)
    (ops : List Operator) : Prop where
  positions : ops.Pairwise fun a b =>
    (keyAt order slot b).1 < (keyAt order slot a).1 → excused a b
  neighbours : ops.IsChain fun a b =>
    ReadKey.before (keyAt order slot b) (keyAt order slot a) = true → excused a b
  offsets : (∀ op ∈ ops, (keyAt order slot op).compares = true) → ops.Pairwise fun a b =>
    ReadKey.before (keyAt order slot b) (keyAt order slot a) = true → excused a b

/-- Sorting by one order sorts by another one as well, up to operators whose bases fall there. -/
theorem SortedUpTo.of_sortedBy {excused : Operator → Operator → Prop} {order order' : List Signal}
    {slot : Nat} {ops : List Operator}
    (reads : ∀ op ∈ ops, ∃ s, op.inputReads[slot]? = some s ∧ s.root ∈ order')
    (kept : ∀ a ∈ ops, ∀ b ∈ ops, ¬ excused a b →
      (keyAt order slot a).1 ≤ (keyAt order slot b).1 →
        (keyAt order' slot a).1 ≤ (keyAt order' slot b).1) :
    SortedUpTo excused order' slot (sortedBy order slot ops) := by
  have isOp {op : Operator} := ((sortedBy_perm order slot ops).mem_iff (a := op)).1
  have key (a b : Operator) (isA : a ∈ sortedBy order slot ops) (isB : b ∈ sortedBy order slot ops)
      (notBefore : ReadKey.before (keyAt order slot b) (keyAt order slot a) = false)
      (isBefore : ReadKey.before (keyAt order' slot b) (keyAt order' slot a) = true) :
      excused a b := by
    by_contra apart
    obtain ⟨le, offsets⟩ := ReadKey.before_eq_false_iff.1 notBefore
    have le' := kept a (isOp isA) b (isOp isB) apart le
    refine Bool.eq_false_iff.1 (ReadKey.before_eq_false_iff.2 ⟨le', ?_⟩) isBefore
    obtain ⟨s, isInput, inside⟩ := reads a (isOp isA)
    obtain ⟨t, isInput', -⟩ := reads b (isOp isB)
    rw [keyAt_of_input isInput, keyAt_of_input isInput'] at offsets ⊢
    -- Equal positions in one order are those of one base, and so equal in the other one.
    exact fun same => offsets (congrArg order.idxOf (Distinct.idxOf_inj inside same))
  refine ⟨?positions, ?neighbours, fun numbers => ?offsets⟩
  case positions =>
    refine (pairwise_position_sortedBy order slot ops).imp_of_mem fun {a b} isA isB le less => ?_
    by_contra apart
    exact Nat.not_lt.2 (kept a (isOp isA) b (isOp isB) apart le) less
  case neighbours => exact (sortedBy_ascending order slot ops).imp_of_mem_imp key
  case offsets =>
    have numbers' : ∀ op ∈ ops, (keyAt order slot op).compares = true := by
      intro op member
      obtain ⟨s, isInput, -⟩ := reads op member
      have number := numbers op ((sortedBy_perm order slot ops).mem_iff.2 member)
      rw [keyAt_of_input isInput] at number ⊢
      exact number
    exact (sortedBy_pairwise numbers').imp_of_mem fun {a b} isA isB => key a b isA isB

namespace ReadAnalysis

variable {analysis : ReadAnalysis} {plan : Plan}

/-- Refinement stops early at a state that a pass does not change. -/
theorem pass_of_settle {limit passes : Nat} {state last : OrderState}
    (settled : analysis.settle limit state = .ok (last, passes, true)) :
    pass analysis last = .ok last := by
  induction limit generalizing state passes with
  | zero => cases settled
  | succ limit ih =>
    rw [settle] at settled
    obtain ⟨next, passed, settled⟩ := Except.bind_eq_ok_iff.1 settled
    split at settled
    case isTrue same =>
      cases settled
      rw [same] at passed ⊢
      exact passed
    case isFalse =>
      obtain ⟨⟨last', passes', converged⟩, later, result⟩ := Except.bind_eq_ok_iff.1 settled
      cases result
      exact ih later

/-- Refinement changes nothing in a converged order. -/
theorem pass_of_orderSignals (surveys : analysis.Surveys plan) (isAnalysis : ofPlan plan = .ok analysis)
    {limit : Nat} {ordered : SignalOrder} (success : orderSignals plan limit = .ok ordered)
    (converged : ordered.converged = true) :
    pass analysis ⟨ordered.signals, ordered.plan⟩ = .ok ⟨ordered.signals, ordered.plan⟩ := by
  unfold orderSignals at success
  rw [isAnalysis, Except.ok_bind] at success
  split at success
  case isTrue none_ =>
    have empty : analysis.sortedReads = [] := by
      have perm := surveys.sorted
      rwa [List.isEmpty_iff.1 none_, List.perm_nil] at perm
    rw [Refine.pass, empty]
    rfl
  case isFalse =>
    obtain ⟨⟨last, passes, early⟩, settled, success⟩ := Except.bind_eq_ok_iff.1 success
    obtain ⟨-, -, success⟩ := Except.bind_eq_ok_iff.1 success
    obtain ⟨-, -, success⟩ := Except.bind_eq_ok_iff.1 success
    cases success
    cases converged
    exact pass_of_settle settled

/-! ## The last visit of a group -/

/-- The last and so the heaviest block of a group, with those that are visited before and behind
it. -/
structure LastVisit (analysis : ReadAnalysis) (i : Nat) where
  visited : List ReadBlock
  block : ReadBlock
  rest : List ReadBlock
  split : analysis.sortedReads = visited ++ block :: rest
  group : block.group = i
  last : ∀ other ∈ rest, other.group ≠ i

namespace LastVisit

variable {i : Nat}

theorem exists_of_mem (some_ : i ∈ analysis.sortedReads.map (·.group)) :
    Nonempty (analysis.LastVisit i) := by
  obtain ⟨block, isBlock, group⟩ := List.mem_map.1 some_
  have isSome : (analysis.sortedReads.reverse.find? (·.group = i)).isSome :=
    List.find?_isSome.2 ⟨block, List.mem_reverse.2 isBlock, decide_eq_true group⟩
  obtain ⟨block, found⟩ := Option.isSome_iff_exists.1 isSome
  obtain ⟨isLast, behind, front, split, others⟩ := List.find?_eq_some_iff_append.1 found
  refine ⟨front.reverse, block, behind.reverse, ?_, of_decide_eq_true isLast, ?_⟩
  · rw [← List.reverse_reverse analysis.sortedReads, split]
    simp
  · intro other isOther same
    simpa [same] using others other (List.mem_reverse.1 isOther)

variable (turn : analysis.LastVisit i)

theorem isBlock : turn.block ∈ analysis.sortedReads := by simp [turn.split]

theorem visited_subset : turn.visited ⊆ analysis.sortedReads := by simp [turn.split]

theorem rest_subset : turn.rest ⊆ analysis.sortedReads := by
  rw [turn.split]
  exact fun _ isOther => List.mem_append_right _ (List.mem_cons_of_mem _ isOther)

/-- The last block of a group is also the last one that a visit of the group moves. -/
theorem exists_slotsOf :
    ∃ front, analysis.slotsOf turn.block.group = front ++ [turn.block.slot] := by
  have others : turn.rest.filter (·.group = turn.block.group) = [] :=
    List.filter_eq_nil_iff.2 fun other isOther same =>
      turn.last other isOther ((of_decide_eq_true same).trans turn.group)
  refine ⟨(turn.visited.filter (·.group = turn.block.group)).map (·.slot), ?_⟩
  rw [slotsOf, turn.split, List.filter_append, List.filter_cons, if_pos (decide_eq_true rfl), others,
    List.map_append]
  rfl

/-- Two bases of the same blocks that may be exchanged before the visit and once more from the visit
on; the visit itself puts them back if the bases of its block follow each other. -/
structure ExchangedAround (order : List Signal) (s t : Signal) : Prop where
  differ : s ≠ t
  same : analysis.membership s = analysis.membership t
  earlier : ∃ other ∈ turn.visited, analysis.Exchanges other s t
  later : (∃ other ∈ turn.rest, analysis.Exchanges other s t) ∨
    analysis.Exchanges turn.block s t ∧ ¬ Unbroken order turn.block.bases

/-- The operators read two bases that may be exchanged before and after they are sorted. -/
def Excused (order : List Signal) (a b : Operator) : Prop :=
  ∃ s t, a.inputReads[turn.block.slot]? = some s ∧ b.inputReads[turn.block.slot]? = some t ∧
    turn.ExchangedAround order s.root t.root

end LastVisit

namespace Surveys

variable (surveys : analysis.Surveys plan)

include surveys

/-! ## Several visits -/

section Visits

variable {blocks : List ReadBlock} (areBlocks : blocks ⊆ analysis.sortedReads)
  {state next : Arrangement × List (List Operator)}
  (keeps : Refine.Keeps analysis plan analysis.hammingOrder state)
  (success : blocks.foldlM (visit analysis) state = .ok next)

include areBlocks keeps success

theorem keeps_visits : Refine.Keeps analysis plan analysis.hammingOrder next :=
  Except.invariant_of_foldlM_eq_ok _ keeps
    (fun _ keeps _ member _ visited => surveys.keeps_visit keeps (areBlocks member) visited) success

/-- What every visit of a state with the plan's bases and groups keeps. -/
theorem invariant_of_visits (invariant : Arrangement × List (List Operator) → Prop)
    (initial : invariant state)
    (step : ∀ now, Refine.Keeps analysis plan analysis.hammingOrder now → invariant now →
      ∀ block ∈ blocks, ∀ later, visit analysis now block = .ok later → invariant later) :
    invariant next :=
  (Except.invariant_of_foldlM_eq_ok
    (fun now => Refine.Keeps analysis plan analysis.hammingOrder now ∧ invariant now)
    ⟨keeps, initial⟩
    (fun now ⟨keeps, kept⟩ block member later visited =>
      ⟨surveys.keeps_visit keeps (areBlocks member) visited,
        step now keeps kept block member later visited⟩) success).2

/-- Visits of blocks that cannot exchange two bases keep their order. -/
theorem visits_keep {s t : Signal} (same : analysis.membership s = analysis.membership t)
    (differ : s ≠ t) (apart : ∀ block ∈ blocks, ¬ analysis.Exchanges block s t) :
    next.1.order.idxOf s < next.1.order.idxOf t ↔
      state.1.order.idxOf s < state.1.order.idxOf t := by
  refine surveys.invariant_of_visits areBlocks keeps success
    (fun now : Arrangement × List (List Operator) =>
      now.1.order.idxOf s < now.1.order.idxOf t ↔ state.1.order.idxOf s < state.1.order.idxOf t)
    .rfl fun now keeps kept block member later visited => ?_
  exact (surveys.visit_keeps keeps (areBlocks member) visited same differ
    (apart block member)).trans kept

/-- Visits of blocks of other groups leave a group as it is. -/
theorem visits_group {i : Nat} (others : ∀ block ∈ blocks, block.group ≠ i) :
    next.2[i]? = state.2[i]? := by
  refine surveys.invariant_of_visits areBlocks keeps success
    (fun now : Arrangement × List (List Operator) => now.2[i]? = state.2[i]?) rfl
    fun (a, groups) keeps kept block member later visited => ?_
  obtain ⟨-, ops, a', -, -, -, -, visited'⟩ := surveys.visit_eq keeps (areBlocks member)
  cases visited.symm.trans visited'
  exact (List.getElem?_set_ne (others block member)).trans kept

end Visits

/-! ## A pass that changes nothing -/

section Fixed

variable {i : Nat} (turn : analysis.LastVisit i)

/-- Bases that are not exchanged around the last visit of a group stand there in the order in which
the pass has found and left them. -/
theorem idxOf_lt_iff_of_visits {start before behind last : Arrangement × List (List Operator)}
    (keeps : Refine.Keeps analysis plan analysis.hammingOrder start)
    (front : turn.visited.foldlM (visit analysis) start = .ok before)
    (here : visit analysis before turn.block = .ok behind)
    (back : turn.rest.foldlM (visit analysis) behind = .ok last)
    (unchanged : last.1.order = start.1.order) {s t : Signal} (isS : s ∈ turn.block.bases)
    (isT : t ∈ turn.block.bases) (differ : s ≠ t)
    (apart : ¬ turn.ExchangedAround start.1.order s t) :
    before.1.order.idxOf s < before.1.order.idxOf t ↔
      start.1.order.idxOf s < start.1.order.idxOf t := by
  have keepsBefore := surveys.keeps_visits turn.visited_subset keeps front
  have keepsBehind := surveys.keeps_visit keepsBefore turn.isBlock here
  have inside {u : Signal} := surveys.mem_hammingOrder (s := u) turn.isBlock
  by_cases same : analysis.membership s = analysis.membership t
  case neg =>
    exact surveys.idxOf_lt_iff keeps.arranges keepsBefore.arranges (inside isS) (inside isT) same
  by_cases earlier : ∃ other ∈ turn.visited, analysis.Exchanges other s t
  case neg =>
    exact surveys.visits_keep turn.visited_subset keeps front same differ
      fun other isOther exchanges => earlier ⟨other, isOther, exchanges⟩
  -- The bases are not exchanged from the visit on, so they stand already as in the end.
  have notLater := fun later => apart ⟨differ, same, earlier, later⟩
  have final := surveys.visits_keep turn.rest_subset keepsBehind back same differ
    fun other isOther exchanges => notLater (.inl ⟨other, isOther, exchanges⟩)
  rw [unchanged] at final
  rw [final]
  by_cases exchanges : analysis.Exchanges turn.block s t
  case neg => exact (surveys.visit_keeps keepsBefore turn.isBlock here same differ exchanges).symm
  have unbroken : Unbroken start.1.order turn.block.bases := by
    by_contra broken
    exact notLater (.inr ⟨exchanges, broken⟩)
  obtain ⟨slots, isLast⟩ := turn.exists_slotsOf
  have unbroken' := surveys.unbroken keeps.arranges keepsBefore.arranges turn.isBlock unbroken
  exact (surveys.visit_restores keepsBefore turn.isBlock here isLast unbroken' isS isT differ).symm

variable {state : OrderState} (keeps : analysis.Keeps plan analysis.hammingOrder state)
  (fixed : pass analysis state = .ok state)

include keeps fixed

/-- A group is sorted against the order at its last visit, in which bases that are not exchanged
around that visit stand as in the end. -/
theorem exists_sortedBy :
    ∃ order ops, state.groups[i]? = some (sortedBy order turn.block.slot ops) ∧
      ∀ s ∈ turn.block.bases, ∀ t ∈ turn.block.bases, ¬ turn.ExchangedAround state.order s t →
        order.idxOf s ≤ order.idxOf t → state.order.idxOf s ≤ state.order.idxOf t := by
  have initial : Refine.Keeps analysis plan analysis.hammingOrder
      (.ofOrder state.order, state.groups) :=
    ⟨.ofOrder surveys.distinct keeps.perm keeps.places, keeps.groups⟩
  obtain ⟨last, visits, result⟩ := Except.bind_eq_ok_iff.1 fixed
  have unchanged : ⟨last.1.order, last.2⟩ = state := Except.ok.inj result
  rw [turn.split, List.foldlM_append] at visits
  obtain ⟨before, front, visits⟩ := Except.bind_eq_ok_iff.1 visits
  rw [List.foldlM_cons] at visits
  obtain ⟨behind, here, back⟩ := Except.bind_eq_ok_iff.1 visits
  have keepsBefore := surveys.keeps_visits turn.visited_subset initial front
  have keepsBehind := surveys.keeps_visit keepsBefore turn.isBlock here
  obtain ⟨-, ops, a, -, isHeld, -, -, visited⟩ := surveys.visit_eq keepsBefore turn.isBlock
  refine ⟨before.1.order, ops, ?_, fun s isS t isT apart le => ?_⟩
  · have kept := surveys.visits_group turn.rest_subset keepsBehind back turn.last
    cases here.symm.trans visited
    rw [← unchanged, kept]
    dsimp only
    rw [List.getElem?_set, if_pos turn.group, if_pos (List.getElem?_eq_some_iff.1 isHeld).1]
  · by_cases same : s = t
    case pos => rw [same]
    have inOrder := keepsBefore.arranges.perm.mem_iff.2 (surveys.mem_hammingOrder turn.isBlock isS)
    have less := lt_of_le_of_ne le (mt (Distinct.idxOf_inj inOrder) same)
    exact Nat.le_of_lt ((surveys.idxOf_lt_iff_of_visits turn initial front here back
      (congrArg OrderState.order unchanged) isS isT same apart).1 less)

/-- A group is sorted by its last block. -/
theorem sortedUpTo {ops : List Operator} (isHeld : state.groups[i]? = some ops) :
    SortedUpTo (turn.Excused state.order) state.order turn.block.slot ops := by
  obtain ⟨order, ops', isSorted, kept⟩ := surveys.exists_sortedBy turn keeps fixed
  cases isHeld.symm.trans isSorted
  obtain ⟨group, isGroup, perm⟩ := keeps.groups.symm.exists_group isHeld
  rw [← turn.group] at isGroup
  have readBy := surveys.readBy turn.isBlock isGroup
    (perm.symm.trans (sortedBy_perm order turn.block.slot ops'))
  have exists_base {op : Operator} (isOp : op ∈ ops') :
      ∃ s, op.inputReads[turn.block.slot]? = some s ∧ s.root ∈ turn.block.bases := by
    obtain ⟨s, isInput, -⟩ := exists_input surveys.describes readBy.members readBy.reads isOp
    exact ⟨s, isInput, (readBy.bases _).1 (List.mem_map_of_mem (mem_inputsAt.2 ⟨op, isOp, isInput⟩))⟩
  refine .of_sortedBy (fun op isOp => ?_) fun a isA b isB apart le => ?_
  · obtain ⟨s, isInput, isBase⟩ := exists_base isOp
    exact ⟨s, isInput, keeps.perm.mem_iff.2 (surveys.mem_hammingOrder turn.isBlock isBase)⟩
  · obtain ⟨s, isInput, isBase⟩ := exists_base isA
    obtain ⟨t, isInput', isBase'⟩ := exists_base isB
    rw [keyAt_of_input isInput, keyAt_of_input isInput'] at le ⊢
    exact kept _ isBase _ isBase' (fun around => apart ⟨s, t, isInput, isInput', around⟩) le

end Fixed

end Surveys

end ReadAnalysis

open ReadAnalysis

/-- In a converged order every group that takes an input is sorted by its heaviest block, except for
operators that read bases which are exchanged back and forth. -/
theorem converged_sorted {plan : Plan}
    (slots : ∀ group ∈ plan, ∀ a ∈ group, ∀ b ∈ group, a.inputReads.length = b.inputReads.length)
    (states : ∀ op ∈ plan.flatten, op.StatesSet) (limit : Nat) :
    ∃ analysis ordered, ofPlan plan = .ok analysis ∧ orderSignals plan limit = .ok ordered ∧
      (ordered.converged = true → ∀ (i : Nat) (group : List Operator),
        ordered.plan[i]? = some group → (∃ op ∈ group, op.inputReads ≠ []) →
          ∃ turn : analysis.LastVisit i,
            SortedUpTo (turn.Excused ordered.signals) ordered.signals turn.block.slot group) := by
  have alike : plan.Alike := ⟨slots, fun op isOp => (states op isOp).inputs⟩
  obtain ⟨analysis, isAnalysis, surveys⟩ := exists_surveys alike
  obtain ⟨ordered, success, perm, places, same⟩ :=
    orderSignals_keeps isAnalysis surveys.describes alike.served alike.inputs limit
  refine ⟨analysis, ordered, isAnalysis, success, ?_⟩
  intro converged i group isHeld takesInput
  have perm' : ordered.signals.Perm analysis.hammingOrder :=
    perm.trans (surveys.describes.signals ▸ analysis.hammingOrder_perm).symm
  have keeps : analysis.Keeps plan analysis.hammingOrder ⟨ordered.signals, ordered.plan⟩ :=
    ⟨perm', places, same⟩
  have fixed := pass_of_orderSignals surveys isAnalysis success converged
  obtain ⟨group', isGroup, perm⟩ := same.symm.exists_group isHeld
  obtain ⟨op, isOp, some_⟩ := takesInput
  have visited : i ∈ analysis.sortedReads.map (·.group) :=
    (surveys.mem_groups_iff isGroup perm.symm).2 (List.any_eq_true.2 ⟨op, isOp, decide_eq_true some_⟩)
  obtain ⟨turn⟩ := LastVisit.exists_of_mem visited
  exact ⟨turn, surveys.sortedUpTo turn keeps fixed isHeld⟩

namespace Refine

/-- A function of two numbers in memory. -/
def pairing (id first second : Nat) : Operator :=
  .func id false [] [] [place first, place second] [] none

/-- Two groups that read the same two bases at both slots, in opposite orders. -/
def crossed : Plan := [[pairing 0 0 1, pairing 1 1 0], [pairing 2 1 0, pairing 3 0 1]]

theorem crossed_slots : ∀ group ∈ crossed, ∀ a ∈ group, ∀ b ∈ group,
    a.inputReads.length = b.inputReads.length := by decide

theorem crossed_statesSet : ∀ op ∈ crossed.flatten, op.StatesSet := by
  have built (id first second : Nat) : (pairing id first second).StatesSet :=
    (Operator.Built.func ..).statesSet
  simp only [crossed, List.flatten_cons, List.flatten_nil, List.append_nil,
    List.forall_mem_append, List.forall_mem_cons]
  exact ⟨⟨built _ _ _, built _ _ _, by simp⟩, built _ _ _, built _ _ _, by simp⟩

/-- Each group exchanges the bases for its first slot and back for its second one. -/
theorem orderSignals_crossed :
    orderSignals crossed 10 = .ok ⟨[place 0, place 1], crossed, 1, true⟩ := by cbv

theorem sortedReads_crossed : (ofPlan crossed).map (·.sortedReads) = .ok
    [⟨0, 0, [place 0, place 1], [0, 1]⟩, ⟨0, 1, [place 1, place 0], [0, 1]⟩,
      ⟨1, 0, [place 1, place 0], [0, 1]⟩, ⟨1, 1, [place 0, place 1], [0, 1]⟩] := by cbv

end Refine

theorem converged_sorted_crossed :
    (∀ group ∈ crossed, ∀ a ∈ group, ∀ b ∈ group, a.inputReads.length = b.inputReads.length) ∧
    (∀ op ∈ crossed.flatten, op.StatesSet) ∧
    ∃ analysis ordered, ofPlan crossed = .ok analysis ∧ orderSignals crossed 10 = .ok ordered ∧
      ordered.converged = true ∧ ∃ group, ordered.plan[0]? = some group ∧
        (∃ op ∈ group, op.inputReads ≠ []) ∧ ∃ turn : analysis.LastVisit 0,
          SortedUpTo (turn.Excused ordered.signals) ordered.signals turn.block.slot group := by
  obtain ⟨analysis, ordered, isAnalysis, success, sorted⟩ :=
    converged_sorted crossed_slots crossed_statesSet 10
  refine ⟨crossed_slots, crossed_statesSet, analysis, ordered, isAnalysis, success, ?_⟩
  cases orderSignals_crossed.symm.trans success
  have takesInput : ∃ op ∈ [pairing 0 0 1, pairing 1 1 0], op.inputReads ≠ [] :=
    ⟨pairing 0 0 1, List.mem_cons_self, by decide⟩
  exact ⟨rfl, _, rfl, takesInput, sorted rfl 0 _ rfl takesInput⟩

/-- A converged order of the crossed groups in which the first group reads the bases of its heaviest
block against their positions. -/
theorem converged_unsorted :
    (∀ group ∈ crossed, ∀ a ∈ group, ∀ b ∈ group, a.inputReads.length = b.inputReads.length) ∧
    (∀ op ∈ crossed.flatten, op.StatesSet) ∧
    ∃ analysis ordered, ofPlan crossed = .ok analysis ∧ orderSignals crossed 10 = .ok ordered ∧
      ordered.converged = true ∧ ∃ group, ordered.plan[0]? = some group ∧
        (∃ op ∈ group, op.inputReads ≠ []) ∧ ∃ turn : analysis.LastVisit 0,
          ¬ group.IsChain fun a b =>
            ReadKey.before (keyAt ordered.signals turn.block.slot b)
              (keyAt ordered.signals turn.block.slot a) = false := by
  obtain ⟨analysis, isAnalysis, sortedReads⟩ := Except.map_eq_ok_iff.1 sortedReads_crossed
  have falls : ReadKey.before (keyAt [place 0, place 1] 1 (pairing 1 1 0))
      (keyAt [place 0, place 1] 1 (pairing 0 0 1)) = true := by decide
  refine ⟨crossed_slots, crossed_statesSet, analysis, _, isAnalysis, orderSignals_crossed, rfl, _,
    rfl, ⟨pairing 0 0 1, List.mem_cons_self, by decide⟩,
    ⟨[_], _, [_, _], sortedReads, rfl, by simp⟩, fun sorted => ?_⟩
  have rises := List.isChain_pair.1 sorted
  exact Bool.eq_false_iff.1 rises falls

end BatchGraph
