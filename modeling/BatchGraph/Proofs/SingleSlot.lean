import Mathlib
import BatchGraph.Proofs.Refinement
import BatchGraph.Proofs.Order.Exchange

/-!
Refinement of a plan whose operators take at most one input.

Every group has at most one read block then, so no visit can exchange two bases
(`not_exchanges`), and the order stays that of the chain of memberships.  A pass only sorts the
operators of each group by what they read (`pass_eq`).  Sorting them again changes nothing, so
refinement has converged after the second pass (`single_slot_settles`).  This asks for operators
that take their inputs from their own signals, and an offset that is no number keeps the operators
around it from being compared (`single_slot_unsettled`).
-/

namespace BatchGraph

open Refine

/-- A group sorted by what its operators read first, if they read anything. -/
def sortedReaders (order : List Signal) (group : List Operator) : List Operator :=
  if group.any (·.inputReads ≠ []) then sortedBy order 0 group else group

theorem sortedReaders_perm (order : List Signal) (group : List Operator) :
    (sortedReaders order group).Perm group := by
  unfold sortedReaders
  split
  · exact sortedBy_perm order 0 group
  · exact .refl group

theorem sameGroups_sortedReaders (order : List Signal) (plan : Plan) :
    SameGroups plan (plan.map (sortedReaders order)) := by
  rw [SameGroups, List.forall₂_map_right_iff]
  exact List.forall₂_same.2 fun group _ => (sortedReaders_perm order group).symm

theorem sortedReaders_sortedReaders (order : List Signal) (group : List Operator) :
    sortedReaders order (sortedReaders order group) = sortedReaders order group := by
  have same := (sortedReaders_perm order group).any_eq (f := (·.inputReads ≠ []))
  rw [sortedReaders, same]
  unfold sortedReaders
  split
  · exact sortedBy_sortedBy order 0 group
  · rfl

/-- A group whose operators take no input is in any order. -/
theorem pairwise_of_unread {group : List Operator} (order : List Signal)
    (none_ : ¬ group.any (·.inputReads ≠ [])) :
    group.Pairwise fun a b => ReadKey.before (keyAt order 0 b) (keyAt order 0 a) = false := by
  have noInput {op : Operator} (isOp : op ∈ group) : keyAt order 0 op = (0, 0) := by
    have empty : op.inputReads = [] := by
      by_contra some_
      exact none_ (List.any_eq_true.2 ⟨op, isOp, decide_eq_true some_⟩)
    rw [keyAt, empty]
    rfl
  refine List.pairwise_of_forall_mem_list fun a isA b isB => ?_
  rw [noInput isA, noInput isB]
  decide

theorem sortedReaders_ascending (order : List Signal) (group : List Operator) :
    (sortedReaders order group).IsChain fun a b =>
      ReadKey.before (keyAt order 0 b) (keyAt order 0 a) = false := by
  unfold sortedReaders
  split
  case isTrue => exact sortedBy_ascending order 0 group
  case isFalse none_ => exact (pairwise_of_unread order none_).isChain

theorem sortedReaders_pairwise {order : List Signal} {group : List Operator}
    (numbers : ∀ op ∈ group, (keyAt order 0 op).compares = true) :
    (sortedReaders order group).Pairwise fun a b =>
      ReadKey.before (keyAt order 0 b) (keyAt order 0 a) = false := by
  unfold sortedReaders
  split
  case isTrue => exact sortedBy_pairwise numbers
  case isFalse none_ => exact pairwise_of_unread order none_

namespace ReadAnalysis

namespace Surveys

variable {analysis : ReadAnalysis} {plan : Plan} (surveys : analysis.Surveys plan)

include surveys

variable (single : ∀ op ∈ plan.flatten, op.inputReads.length ≤ 1)

include single

theorem slot_eq_zero {block : ReadBlock} (isBlock : block ∈ analysis.sortedReads) :
    block.slot = 0 := by
  obtain ⟨group, blockOf⟩ := surveys.blockOf isBlock
  obtain ⟨first, isFirst, inside⟩ := blockOf.slot
  have most := single first (List.mem_flatten.2
    ⟨group, List.mem_of_getElem? blockOf.isGroup, List.mem_of_mem_head? isFirst⟩)
  omega

theorem not_exchanges {block : ReadBlock} (isBlock : block ∈ analysis.sortedReads) (s t : Signal) :
    ¬ analysis.Exchanges block s t := by
  rintro ⟨other, isOther, -, differ, -⟩
  rw [surveys.slot_eq_zero single isOther, surveys.slot_eq_zero single isBlock] at differ
  exact differ rfl

/-- A visit moves no base. -/
theorem order_visit {state next : Arrangement × List (List Operator)}
    (keeps : Refine.Keeps analysis plan analysis.hammingOrder state) {block : ReadBlock}
    (isBlock : block ∈ analysis.sortedReads) (success : visit analysis state block = .ok next) :
    next.1.order = state.1.order := by
  have kept := surveys.keeps_visit keeps isBlock success
  have perm := keeps.arranges.perm.trans kept.arranges.perm.symm
  refine (Distinct.eq_of_idxOf_lt_iff (keeps.arranges.perm.nodup_iff.2 surveys.distinct) perm
    fun s isS t isT less => ?_).symm
  have differ : s ≠ t := fun same => Nat.lt_irrefl _ (same ▸ less)
  by_cases same : analysis.membership s = analysis.membership t
  case pos =>
    exact (surveys.visit_keeps keeps isBlock success same differ
      (surveys.not_exchanges single isBlock s t)).2 less
  case neg =>
    exact (surveys.idxOf_lt_iff keeps.arranges kept.arranges (keeps.arranges.perm.mem_iff.1 isS)
      (keeps.arranges.perm.mem_iff.1 isT) same).2 less

/-- Visits sort the groups of their blocks. -/
theorem visits_eq {blocks : List ReadBlock} (areBlocks : ∀ block ∈ blocks, block ∈ analysis.sortedReads)
    {a : Arrangement} {groups : List (List Operator)}
    (keeps : Refine.Keeps analysis plan analysis.hammingOrder (a, groups)) :
    ∃ a' groups', blocks.foldlM (visit analysis) (a, groups) = .ok (a', groups') ∧
      a'.order = a.order ∧ ∀ i : Nat, groups'[i]? = groups[i]?.map fun ops =>
        if i ∈ blocks.map (·.group) then sortedBy a.order 0 ops else ops := by
  induction blocks generalizing a groups with
  | nil => exact ⟨a, groups, rfl, rfl, fun i => by simp⟩
  | cons block blocks ih =>
    obtain ⟨isBlock, areBlocks⟩ := List.forall_mem_cons.1 areBlocks
    obtain ⟨-, ops, next, -, isHeld, -, -, visited⟩ := surveys.visit_eq keeps isBlock
    have order := surveys.order_visit single keeps isBlock visited
    obtain ⟨a', groups', rest, order', sorted⟩ :=
      ih areBlocks (surveys.keeps_visit keeps isBlock visited)
    refine ⟨a', groups', by rw [List.foldlM_cons, visited, Except.ok_bind, rest],
      order'.trans order, fun i => ?_⟩
    dsimp only at order
    rw [sorted i, order, surveys.slot_eq_zero single isBlock, List.getElem?_set]
    by_cases here : block.group = i
    case pos =>
      subst here
      have inside := (List.getElem?_eq_some_iff.1 isHeld).1
      simp only [if_true, inside, isHeld, Option.map_some, List.map_cons, List.mem_cons, true_or,
        sortedBy_sortedBy, ite_self]
    case neg =>
      have here' : ¬ i = block.group := fun same => here same.symm
      simp only [here, here', if_false, List.map_cons, List.mem_cons, false_or]

/-- A pass keeps the order and sorts the groups. -/
theorem pass_eq {groups : List (List Operator)} (same : SameGroups plan groups) :
    pass analysis ⟨analysis.hammingOrder, groups⟩ =
      .ok ⟨analysis.hammingOrder, groups.map (sortedReaders analysis.hammingOrder)⟩ := by
  have keeps : Refine.Keeps analysis plan analysis.hammingOrder
      (.ofOrder analysis.hammingOrder, groups) :=
    ⟨.ofOrder surveys.distinct (.refl _) rfl, same⟩
  obtain ⟨a, groups', visited, order, sorted⟩ :=
    surveys.visits_eq single (fun block isBlock => isBlock) keeps
  have isSorted : groups' = groups.map (sortedReaders analysis.hammingOrder) := by
    refine List.ext_getElem? fun i => ?_
    rw [sorted i, List.getElem?_map]
    refine Option.map_congr fun ops isHeld => ?_
    obtain ⟨group, isGroup, perm⟩ := same.symm.exists_group isHeld
    simp only [surveys.mem_groups_iff isGroup perm.symm]
    rfl
  rw [Refine.pass, visited, Except.ok_bind]
  dsimp only
  rw [order, isSorted]
  rfl

/-- Refinement has converged after the second pass. -/
theorem settle_eq {limit : Nat} (enough : 2 ≤ limit) :
    ∃ passes ≤ 2, analysis.settle limit ⟨analysis.hammingOrder, plan⟩ =
      .ok (⟨analysis.hammingOrder, plan.map (sortedReaders analysis.hammingOrder)⟩, passes, true) := by
  have first := surveys.pass_eq single (.refl plan)
  have second := surveys.pass_eq single (sameGroups_sortedReaders analysis.hammingOrder plan)
  rw [List.map_map] at second
  simp only [Function.comp_def, sortedReaders_sortedReaders] at second
  obtain ⟨limit, rfl⟩ := Nat.exists_eq_add_of_le' enough
  by_cases settled : plan.map (sortedReaders analysis.hammingOrder) = plan
  case pos =>
    refine ⟨1, by omega, ?_⟩
    rw [settle, first, Except.ok_bind, if_pos (by rw [settled])]
    rfl
  case neg =>
    refine ⟨2, Nat.le_refl 2, ?_⟩
    rw [settle, first, Except.ok_bind, if_neg fun same => settled (congrArg OrderState.groups same),
      settle, second, Except.ok_bind, if_pos rfl]
    rfl

end Surveys

/-- Without read blocks the chain of memberships is that of discovery. -/
theorem hammingOrder_eq_signals {analysis : ReadAnalysis} {plan : Plan}
    (surveys : analysis.Surveys plan) (none_ : analysis.blocks = []) :
    analysis.hammingOrder = analysis.signals := by
  have place (s : Signal) : analysis.chainPlace s = -1 := by
    have empty := surveys.describes.membership_eq_nil none_ s
    rcases analysis.chainPlace_cases s with ⟨isPlace, -⟩ | ⟨i, -, -, listed, -⟩
    · exact isPlace
    · exact absurd empty (surveys.found.ne_nil_of_lookup listed)
  rw [hammingOrder_eq]
  simp only [place]
  exact List.mergeSort_of_pairwise (List.pairwise_of_forall fun _ _ => rfl)

end ReadAnalysis

open ReadAnalysis

/-- The order is that of the chain of memberships, and the groups that take an input are sorted by
it: neighbours do not fall, and neither do any two operators if all offsets are numbers. -/
theorem single_slot_settles {plan : Plan}
    (slots : ∀ group ∈ plan, ∀ a ∈ group, ∀ b ∈ group, a.inputReads.length = b.inputReads.length)
    (single : ∀ op ∈ plan.flatten, op.inputReads.length ≤ 1)
    (states : ∀ op ∈ plan.flatten, op.StatesSet) {limit : Nat} (enough : 2 ≤ limit) :
    ∃ analysis ordered, ofPlan plan = .ok analysis ∧ orderSignals plan limit = .ok ordered ∧
      ordered.converged = true ∧ ordered.passes ≤ 2 ∧ ordered.signals = analysis.hammingOrder ∧
      ordered.plan = plan.map (sortedReaders analysis.hammingOrder) ∧
      (∀ group ∈ ordered.plan, group.IsChain fun a b =>
        ReadKey.before (keyAt ordered.signals 0 b) (keyAt ordered.signals 0 a) = false) ∧
      ∀ group ∈ ordered.plan, (∀ op ∈ group, (keyAt ordered.signals 0 op).compares = true) →
        group.Pairwise fun a b =>
          ReadKey.before (keyAt ordered.signals 0 b) (keyAt ordered.signals 0 a) = false := by
  have alike : plan.Alike := ⟨slots, fun op isOp => (states op isOp).inputs⟩
  obtain ⟨analysis, isAnalysis, surveys⟩ := exists_surveys alike
  suffices ordered : ∃ passes ≤ 2, orderSignals plan limit = .ok ⟨analysis.hammingOrder,
      plan.map (sortedReaders analysis.hammingOrder), passes, true⟩ by
    obtain ⟨passes, few, success⟩ := ordered
    refine ⟨analysis, _, isAnalysis, success, rfl, few, rfl, rfl, ?_, ?_⟩
    · exact List.forall_mem_map.2 fun group _ => sortedReaders_ascending _ group
    · refine List.forall_mem_map.2 fun group _ numbers => sortedReaders_pairwise fun op isOp => ?_
      exact numbers op ((sortedReaders_perm _ group).mem_iff.2 isOp)
  cases none_ : analysis.blocks.isEmpty with
  | true =>
    have unread := List.isEmpty_iff.1 none_
    have unchanged : plan.map (sortedReaders analysis.hammingOrder) = plan := by
      refine (List.map_congr_left fun group isGroup => ?_).trans (List.map_id plan)
      refine if_neg fun some_ => ?_
      obtain ⟨i, isAt⟩ := List.mem_iff_getElem?.1 isGroup
      obtain ⟨block, isBlock, -⟩ := List.mem_map.1 ((surveys.mem_groups_iff isAt (.refl group)).2 some_)
      rw [surveys.sorted.mem_iff, unread] at isBlock
      cases isBlock
    refine ⟨0, Nat.zero_le 2, ?_⟩
    rw [unchanged, hammingOrder_eq_signals surveys unread]
    exact orderSignals_of_isEmpty isAnalysis none_ limit
  | false =>
    obtain ⟨passes, few, settled⟩ := surveys.settle_eq single enough
    have kept : analysis.Keeps plan analysis.hammingOrder
        ⟨analysis.hammingOrder, plan.map (sortedReaders analysis.hammingOrder)⟩ :=
      ⟨.refl _, rfl, sameGroups_sortedReaders _ plan⟩
    exact ⟨passes, few, orderSignals_eq_ok isAnalysis none_ settled kept⟩

/-- A function of one number in memory. -/
def reader (id base : Nat) : Operator := .func id false [] [] [place base] [] none

/-- Two groups that share a base, listed against the order of what they read. -/
def readers : Plan := [[reader 0 1, reader 1 0], [reader 2 2, reader 3 0]]

theorem single_slot_settles_readers :
    (∀ group ∈ readers, ∀ a ∈ group, ∀ b ∈ group, a.inputReads.length = b.inputReads.length) ∧
    (∀ op ∈ readers.flatten, op.inputReads.length ≤ 1) ∧
    (∀ op ∈ readers.flatten, op.StatesSet) ∧
    ∃ analysis ordered, ofPlan readers = .ok analysis ∧ orderSignals readers 2 = .ok ordered ∧
      ordered.converged = true ∧ ordered.passes ≤ 2 ∧ ordered.signals = analysis.hammingOrder ∧
      ordered.plan = readers.map (sortedReaders analysis.hammingOrder) := by
  have slots : ∀ group ∈ readers, ∀ a ∈ group, ∀ b ∈ group,
      a.inputReads.length = b.inputReads.length := by decide
  have single : ∀ op ∈ readers.flatten, op.inputReads.length ≤ 1 := by decide
  have states : ∀ op ∈ readers.flatten, op.StatesSet := by
    have built (id base : Nat) : (reader id base).StatesSet := (Operator.Built.func ..).statesSet
    simp only [readers, List.flatten_cons, List.flatten_nil, List.append_nil,
      List.forall_mem_append, List.forall_mem_cons]
    exact ⟨⟨built _ _, built _ _, by simp⟩, built _ _, built _ _, by simp⟩
  obtain ⟨analysis, ordered, isAnalysis, success, converged, few, order, groups, -⟩ :=
    single_slot_settles slots single states (Nat.le_refl 2)
  exact ⟨slots, single, states, analysis, ordered, isAnalysis, success, converged, few, order,
    groups⟩

/-- Neurons that read back a state they do not set. -/
def detached (id : Nat) : Operator := { id, action := .neurons "lif" [place 0] }

/-- Five numbers in memory. -/
def dial : Base := ⟨0, "dial", .float32, [5], [0], false, false, by decide +kernel, .inl rfl⟩

def atOne : Signal := ⟨dial, some ⟨1, "atOne", ⟨[1], 1, [1]⟩, rfl⟩, by decide +kernel⟩

def atTwo : Signal := ⟨dial, some ⟨2, "atTwo", ⟨[1], 2, [1]⟩, rfl⟩, by decide +kernel⟩

/-- A view at an offset that is no number. -/
def astray : Signal := ⟨dial, some ⟨3, "astray", ⟨[1], .nan, [1]⟩, rfl⟩, by decide +kernel⟩

/-- A function of one number of the dial. -/
def turning (id : Nat) (s : Signal) : Operator := .func id false [] [] [s] [] none

/-- The greater offset comes first, but both are only compared with the one that is no number. -/
def turns : List Operator := [turning 0 atTwo, turning 1 astray, turning 2 atOne]

/-- States that are not set have no place in the order, and an offset that is no number keeps those
around it from being sorted. -/
theorem single_slot_unsettled :
    ((∀ a ∈ [detached 0, detached 1], ∀ b ∈ [detached 0, detached 1],
        a.inputReads.length = b.inputReads.length) ∧
      (∀ op ∈ [[detached 0, detached 1]].flatten, op.inputReads.length ≤ 1) ∧
      orderSignals [[detached 0, detached 1]] 2 = .error (.orderLacks "place")) ∧
    (Signal.ofBase dial).view 3 [1] .nan none (some "astray") = .ok astray ∧
    (∀ a ∈ turns, ∀ b ∈ turns, a.inputReads.length = b.inputReads.length) ∧
    (∀ op ∈ [turns].flatten, op.inputReads.length ≤ 1) ∧
    (∀ op ∈ [turns].flatten, op.StatesSet) ∧
    orderSignals [turns] 2 = .ok ⟨[.ofBase dial], [turns], 1, true⟩ ∧
    ¬ turns.Pairwise fun a b =>
      ReadKey.before (keyAt [.ofBase dial] 0 b) (keyAt [.ofBase dial] 0 a) = false := by
  refine ⟨⟨by decide, by decide, by cbv⟩, by decide +kernel, by decide, by decide, ?states, by cbv,
    by decide⟩
  case states =>
    have built (id : Nat) (s : Signal) : (turning id s).StatesSet :=
      (Operator.Built.func ..).statesSet
    simp only [turns, List.flatten_cons, List.flatten_nil, List.append_nil, List.forall_mem_cons]
    exact ⟨built _ _, built _ _, built _ _, by simp⟩

end BatchGraph
