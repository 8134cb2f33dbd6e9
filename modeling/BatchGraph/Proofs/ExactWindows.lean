import Mathlib
import BatchGraph.Proofs.Refinement
import BatchGraph.Proofs.Order.Places
import BatchGraph.Proofs.Order.Window

/-!
Ordering the bases of a plan only writes to windows that hold the bases of one block.

Moving the bases of a block writes to the window that they span, and there may be others in it: such
as stand in front of the bases of the first membership or behind those of the last
(`Arrangement.Writes`).  Bases of one membership are in the same blocks though, so a window that
begins and ends with bases of the block has no others of these memberships (`Writes.exact`).

This takes no more than that the order has every base once and that the positions are those of the
order (`Arrangement.Locates`), which every move keeps.  A plan whose operators read bases that they
do not access otherwise is covered as well: those bases are not in the order, so passes over it may
fail, but what they write until then is written to such windows (`writes_exact`).
-/

namespace BatchGraph

namespace Refine

open ReadAnalysis

/-- The signals at the positions from `first` to `last`. -/
def between (order : List Signal) (first last : Nat) : List Signal :=
  (order.drop first).take (last + 1 - first)

variable {analysis : ReadAnalysis} {plan : Plan} {start : List Signal} {ops : List Operator}
  {slot : Nat}

namespace Arrangement

variable {membership : Signal → List Nat} {a a' : Arrangement} {ranks : List (Signal × Nat)}
  {first last : Nat} {scan : Scan}

/-! ## What a move writes -/

/-- The bases that operators read at a slot have these ranks, they span the positions from `first`
to `last`, and the scan of this window comes to its end.  Then the window is written. -/
structure Writes (analysis : ReadAnalysis) (ops : List Operator) (a : Arrangement) (slot : Nat)
    (ranks : List (Signal × Nat)) (first last : Nat) (scan : Scan) : Prop where
  ranked : ∃ read, ops.mapM (fun op => readAt analysis.reads op slot) = .ok read ∧
    Assoc.lastPositions (read.map Signal.root) = ranks
  several : ranks.length ≠ 1
  spanned : ∃ places, ranks.mapM (fun (s, _) => position a.positions s) = .ok places ∧
    places.min? = some first ∧ places.max? = some last
  scanned : (between a.order first last).foldlM (Scan.step ranks analysis.membership) {} = some scan

/-- A move writes the window, or leaves everything as it is. -/
theorem eq_or_writes (success : Arrangement.sortBlock analysis ops a slot = .ok a') :
    a' = a ∨ ∃ ranks first last scan, Writes analysis ops a slot ranks first last scan ∧
      a' = a.put first (scan.before ++ byRank ranks ++ scan.behind) := by
  obtain ⟨read, isRead, success⟩ := Except.bind_eq_ok_iff.1 success
  dsimp only at success
  split at success
  case isTrue =>
    cases success
    exact .inl rfl
  case isFalse several =>
    obtain ⟨places, arePlaces, success⟩ := Except.bind_eq_ok_iff.1 success
    split at success
    case h_1 first last least greatest =>
      split at success
      case h_1 segment possible =>
        cases success
        obtain ⟨scan, scanned, rfl⟩ := Option.map_eq_some_iff.1 possible
        exact .inr ⟨_, first, last, scan,
          ⟨⟨read, isRead, rfl⟩, several, ⟨places, arePlaces, least, greatest⟩, scanned⟩, rfl⟩
      case h_2 =>
        cases success
        exact .inl rfl
    case h_2 =>
      cases success
      exact .inl rfl

/-- What is put into the window. -/
theorem Writes.sortBlock_eq (writes : Writes analysis ops a slot ranks first last scan) :
    Arrangement.sortBlock analysis ops a slot =
      .ok (a.put first (scan.before ++ byRank ranks ++ scan.behind)) := by
  obtain ⟨read, isRead, rfl⟩ := writes.ranked
  obtain ⟨places, arePlaces, least, greatest⟩ := writes.spanned
  have possible : rearrange? (Assoc.lastPositions (read.map Signal.root)) analysis.membership
      ((a.order.drop first).take (last + 1 - first)) =
        some (scan.before ++ byRank (Assoc.lastPositions (read.map Signal.root)) ++ scan.behind) :=
    Option.map_eq_some_iff.2 ⟨scan, writes.scanned, rfl⟩
  rw [Arrangement.sortBlock, isRead, Except.ok_bind]
  dsimp only
  rw [if_neg writes.several, arePlaces, Except.ok_bind, least, greatest]
  dsimp only
  rw [possible]
  rfl

/-! ## Positions -/

/-- The positions of the arrangement are those of its order. -/
structure Locates (membership : Signal → List Nat) (start : List Signal) (a : Arrangement) : Prop
    extends Arranges membership start a where
  known : ∀ s i, a.positions.lookup s = some i → s ∈ start

theorem Locates.ofOrder {order : List Signal} (distinct : start.Nodup) (perm : order.Perm start)
    (places : order.map membership = start.map membership) :
    Locates membership start (.ofOrder order) where
  toArranges := .ofOrder distinct perm places
  known _ _ found := perm.mem_iff.1 (List.mem_of_getElem?
    ((Assoc.lookup_lastPositions_iff (perm.nodup_iff.2 distinct)).1 found))

theorem Locates.mem_of_position (locates : a.Locates membership start) {s : Signal} {i : Nat}
    (success : position a.positions s = .ok i) : s ∈ start := by
  rw [position] at success
  split at success
  case h_1 i found => exact locates.known s i found
  case h_2 => cases success

theorem Locates.put (locates : a.Locates membership start) (distinct : start.Nodup)
    {pre window post segment : List Signal} (split : a.order = pre ++ window ++ post)
    (perm : segment.Perm window) (places : segment.map membership = window.map membership) :
    (a.put pre.length segment).Locates membership start where
  toArranges := locates.toArranges.put distinct split perm places
  known s i found := by
    by_cases moved : s ∈ segment
    case pos =>
      refine locates.perm.mem_iff.1 ?_
      rw [split]
      exact List.mem_append_left _ (List.mem_append_right _ (perm.mem_iff.1 moved))
    case neg =>
      rw [lookup_put_of_not_mem moved] at found
      exact locates.known s i found

section Writes

variable (writes : Writes analysis ops a slot ranks first last scan)
  (locates : a.Locates membership start)

include writes locates

/-- All bases of a block that is moved are in the order. -/
theorem Writes.inside : ∀ s ∈ ranks.map (·.1), s ∈ start := by
  obtain ⟨places, arePlaces, -⟩ := writes.spanned
  refine List.forall_mem_map.2 fun entry member => ?_
  obtain ⟨i, -, isAt⟩ := Except.exists_result_of_mem arePlaces member
  exact locates.mem_of_position isAt

theorem Writes.exists_spans :
    ∃ pre post, pre.length = first ∧ Spans ranks a.order pre (between a.order first last) post := by
  obtain ⟨read, -, areRanks⟩ := writes.ranked
  obtain ⟨places, arePlaces, least, greatest⟩ := writes.spanned
  exact locates.toArranges.exists_spans areRanks (writes.inside locates) arePlaces least greatest

/-- Others than the bases of the block are not in its window, if those of one membership are all in
the block or none of them. -/
theorem Writes.exact (distinct : start.Nodup) (closed : Closed ranks analysis.membership) :
    scan.before = [] ∧ scan.behind = [] ∧
      (between a.order first last).Perm (ranks.map (·.1)) := by
  obtain ⟨pre, post, -, spans⟩ := writes.exists_spans locates
  have inWindow := (locates.perm.nodup_iff.2 distinct).sublist spans.sublist
  have possible : rearrange? ranks analysis.membership (between a.order first last) =
      some (scan.before ++ byRank ranks ++ scan.behind) :=
    Option.map_eq_some_iff.2 ⟨scan, writes.scanned, rfl⟩
  obtain ⟨onlyRanked, isRead⟩ :=
    rearrange?_exact inWindow closed spans.head spans.last possible
  have lengths := congrArg List.length onlyRanked
  simp only [List.length_append] at lengths
  refine ⟨List.length_eq_zero_iff.1 (by omega), List.length_eq_zero_iff.1 (by omega), ?_⟩
  exact (List.perm_ext_iff_of_nodup inWindow spans.ranksIn.keys).2 fun s =>
    ⟨fun member => isRanked_iff.1 (isRead s member), spans.ranksIn.inside s⟩

end Writes

theorem Locates.sortBlock (locates : a.Locates analysis.membership start) (distinct : start.Nodup)
    (success : Arrangement.sortBlock analysis ops a slot = .ok a') :
    a'.Locates analysis.membership start := by
  rcases eq_or_writes success with rfl | ⟨ranks, first, last, scan, writes, rfl⟩
  · exact locates
  obtain ⟨pre, post, rfl, spans⟩ := writes.exists_spans locates
  have inWindow := (locates.perm.nodup_iff.2 distinct).sublist spans.sublist
  obtain ⟨perm, kept⟩ := rearrange?_eq_some inWindow spans.ranksIn
    (Option.map_eq_some_iff.2 ⟨scan, writes.scanned, rfl⟩)
  exact locates.put distinct spans.split perm kept

end Arrangement

/-! ## What passes keep -/

/-- What every visit keeps, as far as a pass succeeds. -/
structure Holds (analysis : ReadAnalysis) (plan : Plan) (start : List Signal)
    (state : Arrangement × List (List Operator)) : Prop where
  locates : state.1.Locates analysis.membership start
  groups : SameGroups plan state.2

theorem Holds.visit {state next : Arrangement × List (List Operator)}
    (holds : Holds analysis plan start state) (distinct : start.Nodup) {block : ReadBlock}
    (success : visit analysis state block = .ok next) : Holds analysis plan start next := by
  obtain ⟨a, groups⟩ := state
  obtain ⟨locates, same⟩ := holds
  dsimp only at locates same
  unfold Refine.visit at success
  dsimp only at success
  split at success
  case h_1 => cases success
  case h_2 =>
    cases success
    exact ⟨locates, same⟩
  case h_3 held _ isHeld =>
    obtain ⟨sorted, isSorted, success⟩ := Except.bind_eq_ok_iff.1 success
    obtain ⟨a', moved, success⟩ := Except.bind_eq_ok_iff.1 success
    cases success
    obtain ⟨group, isGroup, perm⟩ := same.symm.exists_group isHeld
    refine ⟨?_, same.set isGroup (perm.symm.trans (sortOperators_perm isSorted).symm)⟩
    exact Except.invariant_of_foldlM_eq_ok (·.Locates analysis.membership start) locates
      (fun b locates slot _ b' success => locates.sortBlock distinct success) moved

theorem Holds.visits {state next : Arrangement × List (List Operator)}
    (holds : Holds analysis plan start state) (distinct : start.Nodup) {blocks : List ReadBlock}
    (success : blocks.foldlM (Refine.visit analysis) state = .ok next) :
    Holds analysis plan start next :=
  Except.invariant_of_foldlM_eq_ok (Holds analysis plan start) holds
    (fun _ holds _ _ _ success => holds.visit distinct success) success

theorem Holds.ofState {state : OrderState} (keeps : analysis.Keeps plan start state)
    (distinct : start.Nodup) :
    Holds analysis plan start (.ofOrder state.order, state.groups) :=
  ⟨.ofOrder distinct keeps.perm keeps.places, keeps.groups⟩

end Refine

open Refine Refine.Arrangement

namespace ReadAnalysis

variable {analysis : ReadAnalysis} {plan : Plan} {start : List Signal}

theorem Keeps.pass {state next : OrderState} (keeps : analysis.Keeps plan start state)
    (distinct : start.Nodup) (success : Refine.pass analysis state = .ok next) :
    analysis.Keeps plan start next := by
  obtain ⟨⟨a, groups⟩, visited, success⟩ := Except.bind_eq_ok_iff.1 success
  cases success
  obtain ⟨locates, same⟩ := (Holds.ofState keeps distinct).visits distinct visited
  exact ⟨locates.perm, locates.places, same⟩

/-! ## The moves of an order -/

/-- The states from which `settle` runs a pass. -/
inductive Runs (analysis : ReadAnalysis) : (limit : Nat) → (start state : OrderState) → Prop
  | first {limit : Nat} {state : OrderState} : Runs analysis (limit + 1) state state
  | later {limit : Nat} {start next state : OrderState} : pass analysis start = .ok next →
      next ≠ start → Runs analysis limit next state → Runs analysis (limit + 1) start state

theorem Keeps.runs {limit : Nat} {state state' : OrderState} (runs : analysis.Runs limit state state')
    (keeps : analysis.Keeps plan start state) (distinct : start.Nodup) :
    analysis.Keeps plan start state' := by
  induction runs with
  | first => exact keeps
  | later passed _ _ ih => exact ih (keeps.pass distinct passed)

/-- The visits of a pass: after those of other blocks it has come to an arrangement, and has sorted
the operators of the block's group. -/
inductive Visits (analysis : ReadAnalysis) (state : OrderState) :
    ReadBlock → List Operator → Arrangement → Prop
  | intro {visited rest : List ReadBlock} {block : ReadBlock} {a : Arrangement}
      {groups : List (List Operator)} {held ops : List Operator}
      (split : analysis.sortedReads = visited ++ block :: rest)
      (reached : visited.foldlM (visit analysis) (.ofOrder state.order, state.groups) =
        .ok (a, groups))
      (isHeld : groups[block.group]? = some held) (several : ∀ op, held ≠ [op])
      (sorted : sortOperators analysis a.positions block.slot held = .ok ops) :
      Visits analysis state block ops a

/-- The moves of a pass: after those of other blocks of the group that it visits it has come to an
arrangement, and moves the bases of this one. -/
inductive Enters (analysis : ReadAnalysis) (state : OrderState) :
    ReadBlock → List Operator → Arrangement → Prop
  | intro {visited entry : ReadBlock} {ops : List Operator} {a a' : Arrangement}
      {moved rest : List ReadBlock} (visits : analysis.Visits state visited ops a)
      (split : analysis.sortedReads.filter (·.group = visited.group) = moved ++ entry :: rest)
      (reached : (moved.map (·.slot)).foldlM (Arrangement.sortBlock analysis ops) a = .ok a') :
      Enters analysis state entry ops a'

section Enters

variable {state : OrderState} {entry : ReadBlock} {ops : List Operator} {a : Arrangement}

theorem Visits.holds (visits : analysis.Visits state entry ops a)
    (keeps : analysis.Keeps plan start state) (distinct : start.Nodup) :
    a.Locates analysis.membership start ∧
      ∃ group, plan[entry.group]? = some group ∧ group.Perm ops := by
  cases visits with
  | intro split reached isHeld several sorted =>
    obtain ⟨locates, same⟩ := (Holds.ofState keeps distinct).visits distinct reached
    obtain ⟨group, isGroup, perm⟩ := same.symm.exists_group isHeld
    exact ⟨locates, group, isGroup, perm.symm.trans (sortOperators_perm sorted).symm⟩

/-- The operators by which a block is moved are those of its group. -/
theorem Enters.holds (enters : analysis.Enters state entry ops a)
    (keeps : analysis.Keeps plan start state) (distinct : start.Nodup) :
    entry ∈ analysis.sortedReads ∧ a.Locates analysis.membership start ∧
      ∃ group, plan[entry.group]? = some group ∧ group.Perm ops := by
  cases enters with
  | intro visits split reached =>
    obtain ⟨locates, group, isGroup, perm⟩ := visits.holds keeps distinct
    obtain ⟨isEntry, sameGroup⟩ := List.mem_filter.1
      (split ▸ List.mem_append_right _ List.mem_cons_self)
    rw [← of_decide_eq_true sameGroup] at isGroup
    refine ⟨isEntry, ?_, group, isGroup, perm⟩
    exact Except.invariant_of_foldlM_eq_ok (·.Locates analysis.membership start) locates
      (fun b locates slot _ b' success => locates.sortBlock distinct success) reached

end Enters

/-- What the operators of a group read at the slot of a block are its bases. -/
theorem BlockOf.mem_read_iff {block : ReadBlock} {group ops : List Operator} {read : List Signal}
    (blockOf : BlockOf plan block group) (perm : group.Perm ops)
    (isRead : ops.mapM (fun op => readAt (readsOf plan) op block.slot) = .ok read) (s : Signal) :
    s ∈ read.map Signal.root ↔ s ∈ block.bases := by
  have inPlan : ∀ op ∈ ops, op ∈ plan.flatten := fun op isOp =>
    List.mem_flatten.2 ⟨group, List.mem_of_getElem? blockOf.isGroup, perm.mem_iff.2 isOp⟩
  rw [mem_roots_iff inPlan isRead, blockOf.bases]
  exact exists_congr fun op => and_congr_left fun _ => perm.mem_iff.symm

end ReadAnalysis

open ReadAnalysis in
/-- In all passes of ordering, a move that writes finds just the bases of its block in the window,
and puts them back by their ranks. -/
theorem writes_exact {plan : Plan} (served : plan.Served) :
    ∃ analysis, ofPlan plan = .ok analysis ∧ ∀ limit state,
      analysis.Runs limit ⟨analysis.hammingOrder, plan⟩ state →
      ∀ entry ops a, analysis.Enters state entry ops a → ∀ ranks first last scan,
        Writes analysis ops a entry.slot ranks first last scan →
          scan.before = [] ∧ scan.behind = [] ∧ (between a.order first last).Perm entry.bases ∧
            Arrangement.sortBlock analysis ops a entry.slot =
              .ok (a.put first (byRank ranks)) := by
  obtain ⟨analysis, isAnalysis, describes⟩ := exists_ofPlan served
  refine ⟨analysis, isAnalysis, fun limit state runs entry ops a enters ranks first last scan writes =>
    ?_⟩
  have found := found_of_ofPlan_eq_ok isAnalysis
  have perm : analysis.hammingOrder.Perm plan.bases :=
    describes.signals ▸ analysis.hammingOrder_perm
  have distinct : analysis.hammingOrder.Nodup := perm.nodup_iff.2 (Distinct.nodup_eraseDups _)
  have keeps : analysis.Keeps plan analysis.hammingOrder state :=
    .runs runs ⟨.refl _, rfl, .refl plan⟩ distinct
  obtain ⟨isEntry, locates, group, isGroup, permuted⟩ := enters.holds keeps distinct
  have isBlock := (sortedReads_perm isAnalysis).mem_iff.1 isEntry
  obtain ⟨group', blockOf⟩ := found.blocks entry isBlock
  cases isGroup.symm.trans blockOf.isGroup
  obtain ⟨read, isRead, areRanks⟩ := writes.ranked
  rw [describes.reads] at isRead
  have areBases (s : Signal) : s ∈ ranks.map (·.1) ↔ s ∈ entry.bases := by
    rw [← areRanks, Assoc.mem_keys_lastPositions, blockOf.mem_read_iff permuted isRead]
  -- The positions of all bases are known, so the block has a number.
  have known : entry.bases ⊆ plan.bases := fun s member =>
    perm.mem_iff.1 (writes.inside locates s ((areBases s).2 member))
  obtain ⟨i, isNumber⟩ := found.exists_number isBlock known
  have closed : Refine.Closed ranks analysis.membership := by
    intro s t same isRead
    rw [isRanked_iff, areBases, ← isNumber] at isRead ⊢
    rwa [← same]
  obtain ⟨before, behind, exactly⟩ := writes.exact locates distinct closed
  refine ⟨before, behind, exactly.trans ?_, ?_⟩
  · have keys : (ranks.map (·.1)).Nodup := areRanks ▸ Assoc.nodup_keys_lastPositions _
    exact (List.perm_ext_iff_of_nodup keys blockOf.distinct).2 areBases
  · rw [writes.sortBlock_eq, before, behind, List.nil_append, List.append_nil]

namespace Refine

/-- Two populations, each of which takes the state of the other one as its input. -/
def coupled : Plan := [[population 0 0 2 1, population 1 1 3 0]]

theorem coupled_served : coupled.Served := by
  intro group isGroup first isFirst op isOp
  cases List.mem_singleton.1 isGroup
  cases isFirst
  rcases List.mem_pair.1 isOp with rfl | rfl <;> exact Nat.le_refl 2

def coupledInputs : ReadBlock := ⟨0, 0, [place 0, place 1], [1, 2]⟩

def coupledStates : ReadBlock := ⟨0, 1, [place 1, place 0], [1, 2]⟩

def coupledAnalysis : ReadAnalysis where
  signals := [place 2, place 1, place 0, place 3]
  reads := [(population 0 0 2 1, [place 0, place 1]), (population 1 1 3 0, [place 1, place 0])]
  blocks := [coupledInputs, coupledStates]
  uniqueBlocks := [⟨[1, 2], [place 0, place 1], 2⟩]
  memberships := [(place 0, [0]), (place 1, [0])]
  sortedReads := [coupledInputs, coupledStates]

theorem ofPlan_coupled : ReadAnalysis.ofPlan coupled = .ok coupledAnalysis := by cbv

def coupledOrder : List Signal := [place 2, place 3, place 1, place 0]

theorem hammingOrder_coupled : coupledAnalysis.hammingOrder = coupledOrder := by cbv

/-- The operators are sorted by their inputs, and the inputs stay where they are. -/
theorem enters_coupled : coupledAnalysis.Enters ⟨coupledOrder, coupled⟩ coupledStates
    [population 1 1 3 0, population 0 0 2 1] (.ofOrder coupledOrder) := by
  have visits : coupledAnalysis.Visits ⟨coupledOrder, coupled⟩ coupledInputs
      [population 1 1 3 0, population 0 0 2 1] (.ofOrder coupledOrder) := by
    have split : coupledAnalysis.sortedReads = [] ++ coupledInputs :: [coupledStates] := rfl
    exact .intro split rfl rfl (by simp) (by cbv)
  have split : coupledAnalysis.sortedReads.filter (·.group = coupledInputs.group) =
      [coupledInputs] ++ coupledStates :: [] := rfl
  exact .intro visits split (by cbv)

/-- The states are then exchanged. -/
theorem writes_coupled : Writes coupledAnalysis [population 1 1 3 0, population 0 0 2 1]
    (.ofOrder coupledOrder) coupledStates.slot [(place 0, 0), (place 1, 1)] 2 3
    { membership := some [0], inFirst := true, highest := 1 } where
  ranked := ⟨[place 0, place 1], by cbv, by cbv⟩
  several := by decide
  spanned := ⟨[3, 2], by cbv, by cbv, by cbv⟩
  scanned := by cbv

end Refine

open ReadAnalysis in
/-- The first pass over coupled populations exchanges the two numbers that they share. -/
theorem writes_exact_coupled :
    coupled.Served ∧ ∃ analysis, ofPlan coupled = .ok analysis ∧
      ∃ state entry ops a a' ranks first last scan,
        analysis.Runs 1 ⟨analysis.hammingOrder, coupled⟩ state ∧
        analysis.Enters state entry ops a ∧ Writes analysis ops a entry.slot ranks first last scan ∧
        scan.before = [] ∧ scan.behind = [] ∧ (between a.order first last).Perm entry.bases ∧
        Arrangement.sortBlock analysis ops a entry.slot = .ok a' ∧ a'.order ≠ a.order := by
  obtain ⟨analysis, isAnalysis, exactly⟩ := writes_exact coupled_served
  cases isAnalysis.symm.trans ofPlan_coupled
  have runs : coupledAnalysis.Runs 1 ⟨coupledAnalysis.hammingOrder, coupled⟩
      ⟨coupledOrder, coupled⟩ := by
    rw [hammingOrder_coupled]
    exact .first
  obtain ⟨before, behind, perm, moved⟩ :=
    exactly _ _ runs _ _ _ enters_coupled _ _ _ _ writes_coupled
  have exchanged : (Arrangement.put (.ofOrder coupledOrder) 2
      (byRank [(place 0, 0), (place 1, 1)])).order = [place 2, place 3, place 0, place 1] := by cbv
  refine ⟨coupled_served, _, isAnalysis, _, _, _, _, _, _, _, _, _, runs, enters_coupled,
    writes_coupled, before, behind, perm, moved, ?_⟩
  rw [exchanged]
  decide

end BatchGraph
