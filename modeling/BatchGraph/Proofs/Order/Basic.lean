import BatchGraph.Order.Basic
import BatchGraph.Proofs.Order.ReadBlock

/-!
Ordering the bases of a plan never fails.

The chain of memberships only sorts the bases, every refinement pass keeps the memberships of the
places, and so both checks behind the refinement pass (`exists_orderSignals`).
-/

namespace BatchGraph

open Refine (SameGroups Readable)

theorem Refine.SameGroups.refl (plan : Plan) : SameGroups plan plan :=
  List.forall₂_same.2 fun group _ => .refl group

namespace ReadAnalysis

theorem hammingOrder_perm (analysis : ReadAnalysis) :
    analysis.hammingOrder.Perm analysis.signals := List.mergeSort_perm _ _

variable {analysis : ReadAnalysis} {plan : Plan} {start : List Signal}

/-- The state has the bases in places of their memberships, and the groups of the plan. -/
structure Keeps (analysis : ReadAnalysis) (plan : Plan) (start : List Signal) (state : OrderState) :
    Prop where
  perm : state.order.Perm start
  places : state.order.map analysis.membership = start.map analysis.membership
  groups : SameGroups plan state.groups

/-- Any number of passes keeps what one pass keeps. -/
theorem exists_settle (distinct : start.Nodup) (readable : Readable analysis plan start)
    (limit : Nat) {state : OrderState} (keeps : analysis.Keeps plan start state) :
    ∃ last passes converged, analysis.settle limit state = .ok (last, passes, converged) ∧
      analysis.Keeps plan start last := by
  induction limit generalizing state with
  | zero => exact ⟨state, 0, false, rfl, keeps⟩
  | succ limit ih =>
    obtain ⟨next, passed, perm, places, groups⟩ :=
      Refine.exists_pass distinct readable keeps.perm keeps.places keeps.groups
    have kept : analysis.Keeps plan start next := ⟨perm, places, groups⟩
    unfold settle
    rw [passed, Except.ok_bind]
    split
    case isTrue => exact ⟨next, 1, true, rfl, kept⟩
    case isFalse =>
      obtain ⟨last, passes, converged, settled, result⟩ := ih kept
      refine ⟨last, passes + 1, converged, ?_, result⟩
      rw [settled]
      rfl

/-! ## Checks -/

theorem checkOrder_eq_ok {order : List Signal}
    (places : order.map analysis.membership = start.map analysis.membership) :
    analysis.checkOrder start order = .ok () := by
  have length : order.length = start.length := by
    have lengths := congrArg List.length places
    rwa [List.length_map, List.length_map] at lengths
  unfold checkOrder
  rw [if_neg (not_not.2 length)]
  refine Except.forM_eq_ok fun ((s, t), i) member => ?_
  have isAt := List.mem_zipIdx_iff_getElem?.1 member
  obtain ⟨isFirst, isSecond⟩ := List.getElem?_zip_eq_some.1 isAt
  have same := congrArg (·[i]?) places
  simp only [List.getElem?_map, isFirst, isSecond, Option.map_some, Option.some.injEq] at same
  exact if_pos same.symm

theorem checkGroups_eq_ok {groups : List (List Operator)} (same : SameGroups plan groups) :
    checkGroups plan groups = .ok () := by
  unfold checkGroups
  rw [if_neg (not_not.2 same.length_eq.symm)]
  refine Except.forM_eq_ok fun ((group, reordered), i) member => ?_
  have perm := (List.forall₂_iff_zip.1 same).2 (List.fst_mem_of_mem_zipIdx member)
  refine if_pos ⟨perm.length_eq.symm, List.all_eq_true.2 fun op isOp => ?_⟩
  exact List.contains_iff_mem.2 (perm.mem_iff.2 isOp)

end ReadAnalysis

open ReadAnalysis in
/-- Bases that are never read stay in the order of discovery. -/
theorem orderSignals_of_isEmpty {analysis : ReadAnalysis} {plan : Plan}
    (isAnalysis : ofPlan plan = .ok analysis) (none_ : analysis.blocks.isEmpty = true) (limit : Nat) :
    orderSignals plan limit = .ok ⟨analysis.signals, plan, 0, true⟩ := by
  rw [orderSignals, isAnalysis, Except.ok_bind, none_, if_pos rfl]
  rfl

open ReadAnalysis in
/-- The checks find nothing wrong with what refinement has made of the chain of memberships. -/
theorem orderSignals_eq_ok {analysis : ReadAnalysis} {plan : Plan}
    (isAnalysis : ofPlan plan = .ok analysis) (some_ : analysis.blocks.isEmpty = false)
    {limit passes : Nat} {last : OrderState} {converged : Bool}
    (settled : analysis.settle limit ⟨analysis.hammingOrder, plan⟩ = .ok (last, passes, converged))
    (kept : analysis.Keeps plan analysis.hammingOrder last) :
    orderSignals plan limit = .ok ⟨last.order, last.groups, passes, converged⟩ := by
  unfold orderSignals
  rw [isAnalysis, Except.ok_bind, some_, if_neg Bool.false_ne_true]
  dsimp only
  rw [settled, Except.ok_bind, checkOrder_eq_ok kept.places, Except.ok_bind,
    checkGroups_eq_ok kept.groups]
  rfl

open ReadAnalysis in
/-- Ordering keeps the bases, the memberships of the places and the groups. -/
theorem orderSignals_keeps {analysis : ReadAnalysis} {plan : Plan}
    (isAnalysis : ofPlan plan = .ok analysis) (describes : analysis.Describes plan)
    (served : plan.Served)
    (inputs : ∀ op ∈ plan.flatten, ∀ s ∈ op.inputReads, s ∈ op.allSignals) (limit : Nat) :
    ∃ ordered, orderSignals plan limit = .ok ordered ∧ ordered.signals.Perm plan.bases ∧
      ordered.signals.map analysis.membership = analysis.hammingOrder.map analysis.membership ∧
      SameGroups plan ordered.plan := by
  have perm := analysis.hammingOrder_perm
  rw [describes.signals] at perm
  cases none_ : analysis.blocks.isEmpty with
  | true =>
    have empty := funext (describes.membership_eq_nil (List.isEmpty_iff.1 none_))
    refine ⟨_, orderSignals_of_isEmpty isAnalysis none_ limit, .of_eq describes.signals, ?_,
      .refl plan⟩
    simp only [empty, List.map_const', perm.length_eq, describes.signals]
  | false =>
    have suits := served.suits inputs perm
    have keeps : analysis.Keeps plan analysis.hammingOrder ⟨analysis.hammingOrder, plan⟩ :=
      ⟨.refl _, rfl, .refl plan⟩
    obtain ⟨last, passes, converged, settled, kept⟩ :=
      exists_settle suits.distinct (describes.readable suits) limit keeps
    exact ⟨_, orderSignals_eq_ok isAnalysis none_ settled kept, kept.perm.trans perm, kept.places,
      kept.groups⟩

theorem exists_orderSignals {plan : Plan} (alike : plan.Alike) (limit : Nat) :
    ∃ ordered, orderSignals plan limit = .ok ordered ∧ ordered.signals.Perm plan.bases ∧
      SameGroups plan ordered.plan := by
  obtain ⟨analysis, isAnalysis, describes⟩ := ReadAnalysis.exists_ofPlan alike.served
  obtain ⟨ordered, success, perm, -, same⟩ :=
    orderSignals_keeps isAnalysis describes alike.served alike.inputs limit
  exact ⟨ordered, success, perm, same⟩

end BatchGraph
