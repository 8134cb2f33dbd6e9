import BatchGraph.Order.Basic
import BatchGraph.Proofs.Disguise.ReadBlock
import BatchGraph.Proofs.Order.Refine
import BatchGraph.Proofs.RunSort

/-!
Ordering in disguise.

Refinement compares positions, offsets and memberships, and a disguise changes none of them.  So if
a plan can be ordered, the disguised plan is ordered in the same way, in as many passes
(`orderSignals_carries`).
-/

namespace BatchGraph

namespace Disguise

variable (d : Disguise)

/-! ## The chain of memberships -/

theorem membership_analysis (analysis : ReadAnalysis) (s : Signal) :
    (d.analysis analysis).membership (d.signal s) = analysis.membership s := by
  have found := Assoc.lookup_map_of_injective d.signal_injective id analysis.memberships s
  rw [Option.map_id, id] at found
  exact congrArg (·.getD []) found

theorem places_analysis (analysis : ReadAnalysis) :
    (d.analysis analysis).places = analysis.places.map (Prod.map d.signal id) := by
  simp [ReadAnalysis.places, Disguise.analysis, Hamming.sort, Function.comp_def]

theorem hammingOrder_analysis (analysis : ReadAnalysis) :
    (d.analysis analysis).hammingOrder = analysis.hammingOrder.map d.signal := by
  have found := Assoc.lookup_map_of_injective d.signal_injective id analysis.places
  simp only [Option.map_id, id] at found
  unfold ReadAnalysis.hammingOrder
  rw [d.places_analysis]
  refine (List.map_mergeSort fun s _ t _ => ?_).symm
  simp only [found]

/-! ## Operators by position -/

/-- Positions and ranks of disguised signals. -/
abbrev numbered (numbers : List (Signal × Nat)) : List (Signal × Nat) :=
  numbers.map (Prod.map d.signal id)

theorem lookup_numbered (numbers : List (Signal × Nat)) (s : Signal) :
    (d.numbered numbers).lookup (d.signal s) = numbers.lookup s := by
  rw [Assoc.lookup_map_of_injective d.signal_injective, Option.map_id, id]

theorem position_carries (positions : Refine.Positions) (s : Signal) :
    Except.Carries id (Refine.position positions s)
      (Refine.position (d.numbered positions) (d.signal s)) := by
  unfold Refine.position
  rw [d.lookup_numbered]
  cases positions.lookup s with
  | none => exact .error _ _
  | some i => exact .ok i

variable (analysis : ReadAnalysis)

theorem readKey_carries (positions : Refine.Positions) (slot : Nat) (op : Operator) :
    Except.Carries id (Refine.readKey analysis positions slot op)
      (Refine.readKey (d.analysis analysis) (d.numbered positions) slot (d.operator op)) := by
  refine (d.readAt_carries analysis.reads op slot).bind fun read _ =>
    (d.position_carries positions read.root).bind fun i _ => ?_
  rw [d.offset_signal]
  exact .ok _

theorem sortOperators_carries (positions : Refine.Positions) (slot : Nat) (ops : List Operator) :
    Except.Carries (List.map d.operator) (Refine.sortOperators analysis positions slot ops)
      (Refine.sortOperators (d.analysis analysis) (d.numbered positions) slot
        (ops.map d.operator)) := by
  intro sorted success
  unfold Refine.sortOperators at success ⊢
  obtain ⟨_, -, success⟩ := Except.bind_eq_ok_iff.1 success
  obtain ⟨keys, areKeys, success⟩ := Except.bind_eq_ok_iff.1 success
  cases success
  have areKeys' := Except.Carries.mapM_id
    (fun op _ => d.readKey_carries analysis positions slot op) keys areKeys
  have checked := Refine.checkKeys_eq_ok fun op member =>
    let ⟨key, _, isKey⟩ := Except.exists_result_of_mem areKeys' member
    ⟨key, isKey⟩
  rw [checked, Except.ok_bind, areKeys', Except.ok_bind, id, List.zip_map_left]
  have sorted : RunSort.stableSort (fun a b => Refine.ReadKey.before a.2 b.2)
      (Refine.ReadKey.compares ·.2) ((ops.zip keys).map (Prod.map d.operator id)) =
        (RunSort.stableSort (fun a b => Refine.ReadKey.before a.2 b.2)
          (Refine.ReadKey.compares ·.2) (ops.zip keys)).map (Prod.map d.operator id) :=
    RunSort.stableSort_map (fun _ _ => rfl) (fun _ => rfl) _
  refine congrArg Except.ok ?_
  rw [sorted, List.map_map, List.map_map]
  rfl

/-! ## Signals by operator -/

def scan (s : Refine.Scan) : Refine.Scan :=
  { s with before := s.before.map d.signal, behind := s.behind.map d.signal }

section Scan

variable {membership membership' : Signal → List Nat}
  (same : ∀ s, membership' (d.signal s) = membership s) (ranks : List (Signal × Nat))

include same

theorem step_scan (scan : Refine.Scan) (s : Signal) :
    Refine.Scan.step (d.numbered ranks) membership' (d.scan scan) (d.signal s) =
      (Refine.Scan.step ranks membership scan s).map d.scan := by
  have current : (d.scan scan).membership = scan.membership := rfl
  have behind : (d.scan scan).behind.isEmpty = scan.behind.isEmpty := List.isEmpty_map ..
  unfold Refine.Scan.step
  rw [same, d.lookup_numbered, current, behind]
  dsimp only
  generalize decide (scan.membership ≠ some (membership s)) = entering
  have entered : (if entering then (d.scan scan).enter (membership s) else d.scan scan) =
      d.scan (if entering then scan.enter (membership s) else scan) := by
    split <;> rfl
  rw [entered]
  generalize (if entering then scan.enter (membership s) else scan) = next
  have highest : (d.scan next).highestBefore = next.highestBefore := rfl
  have first : (d.scan next).inFirst = next.inFirst := rfl
  split
  · rfl
  · cases ranks.lookup s with
    | none =>
      dsimp only
      rw [first]
      split <;> simp [Disguise.scan]
    | some rank =>
      dsimp only
      rw [highest]
      split <;> rfl

theorem foldlM_scan (window : List Signal) (scan : Refine.Scan) :
    (window.map d.signal).foldlM (Refine.Scan.step (d.numbered ranks) membership') (d.scan scan) =
      (window.foldlM (Refine.Scan.step ranks membership) scan).map d.scan := by
  induction window generalizing scan with
  | nil => rfl
  | cons s window ih =>
    rw [List.map_cons, List.foldlM_cons, List.foldlM_cons, d.step_scan same]
    cases Refine.Scan.step ranks membership scan s with
    | none => rfl
    | some next => exact ih next

theorem rearrange?_map (window : List Signal) :
    Refine.rearrange? (d.numbered ranks) membership' (window.map d.signal) =
      (Refine.rearrange? ranks membership window).map (List.map d.signal) := by
  have byRank : Refine.byRank (d.numbered ranks) = (Refine.byRank ranks).map d.signal := by
    have sorted := List.map_mergeSort (f := Prod.map d.signal id) (l := ranks)
      (r := fun a b => decide (a.2 ≤ b.2)) (s := fun a b => decide (a.2 ≤ b.2)) fun _ _ _ _ => rfl
    unfold Refine.byRank
    rw [← sorted, List.map_map, List.map_map]
    rfl
  have start : ({} : Refine.Scan) = d.scan {} := rfl
  unfold Refine.rearrange?
  rw [start, d.foldlM_scan same, Option.map_map, Option.map_map, byRank]
  congr 1
  funext scan
  simp [Disguise.scan]

end Scan

def arrangement (a : Refine.Arrangement) : Refine.Arrangement :=
  ⟨a.order.map d.signal, d.numbered a.positions⟩

theorem ofOrder_map (order : List Signal) :
    Refine.Arrangement.ofOrder (order.map d.signal) =
      d.arrangement (Refine.Arrangement.ofOrder order) := by
  rw [Refine.Arrangement.ofOrder, Assoc.lastPositions_map d.signal_injective]
  rfl

theorem put_arrangement (a : Refine.Arrangement) (start : Nat) (segment : List Signal) :
    (d.arrangement a).put start (segment.map d.signal) = d.arrangement (a.put start segment) := by
  unfold Refine.Arrangement.put
  rw [List.zipIdx_map]
  generalize segment.zipIdx start = places
  induction places generalizing a with
  | nil => rfl
  | cons place places ih =>
    obtain ⟨s, i⟩ := place
    rw [List.map_cons, List.foldl_cons, List.foldl_cons, ← ih]
    have entered := Assoc.insert_map d.signal_injective id s i a.positions
    simp only [Prod.map, id, arrangement, ← List.map_set, ← entered]

theorem sortBlock_carries (ops : List Operator) (a : Refine.Arrangement) (slot : Nat) :
    Except.Carries d.arrangement (Refine.Arrangement.sortBlock analysis ops a slot)
      (Refine.Arrangement.sortBlock (d.analysis analysis) (ops.map d.operator)
        (d.arrangement a) slot) := by
  refine (Except.Carries.mapM fun op _ => d.readAt_carries analysis.reads op slot).bind
    fun reads _ => ?_
  have ranks : Assoc.lastPositions ((reads.map d.signal).map Signal.root) =
      d.numbered (Assoc.lastPositions (reads.map Signal.root)) := by
    rw [numbered, ← Assoc.lastPositions_map d.signal_injective, List.map_map, List.map_map]
    rfl
  dsimp only
  rw [ranks, List.length_map]
  generalize Assoc.lastPositions (reads.map Signal.root) = ranks
  split
  · exact .ok a
  · refine (Except.Carries.mapM_id fun rank _ => d.position_carries a.positions rank.1).bind
      fun places _ => ?_
    dsimp only [id]
    split
    case h_1 first last _ _ =>
      have window (count : Nat) : ((d.arrangement a).order.drop first).take count =
          ((a.order.drop first).take count).map d.signal := by
        simp [arrangement]
      rw [window, d.rearrange?_map (d.membership_analysis analysis)]
      cases Refine.rearrange? ranks analysis.membership _ with
      | none => exact .ok a
      | some segment =>
        dsimp only [Option.map_some]
        rw [d.put_arrangement]
        exact .ok _
    case h_2 => exact .ok a

/-! ## Passes -/

theorem visit_carries (block : ReadBlock) (state : Refine.Arrangement × List (List Operator)) :
    Except.Carries (Prod.map d.arrangement d.plan) (Refine.visit analysis state block)
      (Refine.visit (d.analysis analysis) (Prod.map d.arrangement d.plan state)
        (d.block block)) := by
  obtain ⟨a, groups⟩ := state
  have slots : ((d.analysis analysis).sortedReads.filter
      (·.group = (d.block block).group)).map (·.slot) =
        (analysis.sortedReads.filter (·.group = block.group)).map (·.slot) := by
    rw [Disguise.analysis, List.filter_map, List.map_map]
    rfl
  have isGroup : (d.plan groups)[(d.block block).group]? =
      groups[block.group]?.map (List.map d.operator) := List.getElem?_map ..
  unfold Refine.visit
  dsimp only [Prod.map]
  rw [slots, isGroup]
  cases groups[block.group]? with
  | none => exact .error _ _
  | some ops =>
    match ops with
    | [_] => exact .ok (a, groups)
    | [] | _ :: _ :: _ =>
      refine (d.sortOperators_carries analysis a.positions block.slot _).bind fun sorted _ =>
        (Except.Carries.foldlM_same
          (fun a slot _ => d.sortBlock_carries analysis sorted a slot) a).bind fun last _ => ?_
      rw [← List.map_set]
      exact .ok (last, _)

def state (s : OrderState) : OrderState := ⟨s.order.map d.signal, d.plan s.groups⟩

theorem state_injective : Function.Injective d.state := by
  intro s t same
  obtain ⟨order, groups⟩ := s
  obtain ⟨order', groups'⟩ := t
  rw [state, state, OrderState.mk.injEq, (List.map_injective_iff.2 d.signal_injective).eq_iff,
    (List.map_injective_iff.2 (List.map_injective_iff.2 d.operator_injective)).eq_iff] at same
  obtain ⟨rfl, rfl⟩ := same
  rfl

theorem pass_carries (state : OrderState) :
    Except.Carries d.state (Refine.pass analysis state)
      (Refine.pass (d.analysis analysis) (d.state state)) := by
  unfold Refine.pass
  have start : (Refine.Arrangement.ofOrder (d.state state).order, (d.state state).groups) =
      Prod.map d.arrangement d.plan (.ofOrder state.order, state.groups) :=
    Prod.ext (d.ofOrder_map state.order) rfl
  rw [start]
  refine (Except.Carries.foldlM (fun s block _ => d.visit_carries analysis block s) _).bind
    fun last _ => .ok _

theorem settle_carries (limit : Nat) (state : OrderState) :
    Except.Carries (Prod.map d.state id) (analysis.settle limit state)
      ((d.analysis analysis).settle limit (d.state state)) := by
  induction limit generalizing state with
  | zero => exact .ok _
  | succ limit ih =>
    refine (d.pass_carries analysis state).bind fun next _ => ?_
    simp only [d.state_injective.eq_iff]
    split
    · exact .ok _
    · exact (ih next).bind fun last _ => .ok _

/-! ## The order -/

def ordered (o : SignalOrder) : SignalOrder :=
  { o with signals := o.signals.map d.signal, plan := d.plan o.plan }

theorem checkOrder_carries (start order : List Signal) :
    Except.Carries id (analysis.checkOrder start order)
      ((d.analysis analysis).checkOrder (start.map d.signal) (order.map d.signal)) := by
  unfold ReadAnalysis.checkOrder
  rw [List.length_map, List.length_map, List.zip_map, List.zipIdx_map]
  split
  · exact .error _ _
  · refine .forM fun entry _ => ?_
    dsimp only [Prod.map]
    rw [d.membership_analysis, d.membership_analysis]
    split
    · exact .ok ()
    · exact .error _ _

theorem checkGroups_carries (plan groups : Plan) :
    Except.Carries id (ReadAnalysis.checkGroups plan groups)
      (ReadAnalysis.checkGroups (d.plan plan) (d.plan groups)) := by
  unfold ReadAnalysis.checkGroups
  rw [Disguise.plan, Disguise.plan, List.length_map, List.length_map, List.zip_map, List.zipIdx_map]
  split
  · exact .error _ _
  · refine .forM fun entry _ => ?_
    dsimp only [Prod.map]
    have members : (entry.1.2.map d.operator).all (entry.1.1.map d.operator).contains =
        entry.1.2.all entry.1.1.contains := by
      rw [List.all_map]
      congr 1
      funext op
      exact Distinct.contains_map d.operator_injective entry.1.1 op
    rw [List.length_map, List.length_map, members]
    split
    · exact .ok ()
    · exact .error _ _

/-- A plan that can be ordered is ordered in the same way in disguise. -/
theorem orderSignals_carries (plan : Plan) (limit : Nat) :
    Except.Carries d.ordered (orderSignals plan limit) (orderSignals (d.plan plan) limit) := by
  refine (d.ofPlan_carries plan).bind fun analysis _ => ?_
  have blocks : (d.analysis analysis).blocks.isEmpty = analysis.blocks.isEmpty :=
    List.isEmpty_map ..
  rw [blocks]
  split
  · exact .ok _
  · dsimp only
    rw [d.hammingOrder_analysis]
    refine (d.settle_carries analysis limit ⟨analysis.hammingOrder, plan⟩).bind fun last _ => ?_
    exact (d.checkOrder_carries analysis _ _).bind fun _ _ =>
      (d.checkGroups_carries plan _).bind fun _ _ => .ok _

end Disguise

end BatchGraph
