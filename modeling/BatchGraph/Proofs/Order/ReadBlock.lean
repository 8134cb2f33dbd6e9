import BatchGraph.Proofs.Order.Refine

/-!
The analysis of a plan in which no operator takes fewer inputs than the first of its group.

Then no slot lacks an input, so the analysis succeeds (`ReadAnalysis.exists_ofPlan`), and what it
describes can be read by the operators of any state that suits the plan (`Describes.readable`): the
groups of such a state may hold other operators of the plan, as long as they have an input for every
slot and the order has their bases.
-/

namespace BatchGraph

/-- The operators of each group take equally many inputs, which are among their signals. -/
structure Plan.Alike (plan : Plan) : Prop where
  slots : ∀ group ∈ plan, ∀ a ∈ group, ∀ b ∈ group, a.inputReads.length = b.inputReads.length
  inputs : ∀ op ∈ plan.flatten, ∀ s ∈ op.inputReads, s ∈ op.allSignals

/-- Every operator takes at least as many inputs as the first of its group. -/
def Plan.Served (plan : Plan) : Prop :=
  ∀ group ∈ plan, ∀ first ∈ group.head?, ∀ op ∈ group,
    first.inputReads.length ≤ op.inputReads.length

theorem Plan.Alike.served {plan : Plan} (alike : plan.Alike) : plan.Served :=
  fun group isGroup first isFirst op isOp =>
    Nat.le_of_eq (alike.slots group isGroup first (List.mem_of_mem_head? isFirst) op isOp)

theorem Plan.mem_bases {plan : Plan} {s : Signal} :
    s ∈ plan.bases ↔ ∃ op ∈ plan.flatten, ∃ t ∈ op.allSignals, t.root = s := by
  rw [bases, List.mem_eraseDups, List.mem_flatMap]
  exact exists_congr fun op => and_congr_right fun _ => List.mem_map

namespace ReadAnalysis

/-- The inputs of the operators of a plan. -/
def readsOf (plan : Plan) : List (Operator × List Signal) :=
  plan.flatten.eraseDups.map fun op => (op, op.inputReads)

theorem lookup_readsOf {plan : Plan} {op : Operator} (member : op ∈ plan.flatten) :
    (readsOf plan).lookup op = some op.inputReads := by
  have keys : ((readsOf plan).map (·.1)).Nodup := by
    rw [readsOf, List.map_map]
    exact (List.map_id _).symm ▸ Distinct.nodup_eraseDups _
  exact (Assoc.lookup_eq_some_iff_mem keys).2
    (List.mem_map.2 ⟨op, List.mem_eraseDups.2 member, rfl⟩)

theorem readAt_eq_ok {plan : Plan} {op : Operator} (member : op ∈ plan.flatten) {slot : Nat}
    {s : Signal} : readAt (readsOf plan) op slot = .ok s ↔ op.inputReads[slot]? = some s := by
  rw [readAt, lookup_readsOf member, Option.bind_some]
  split
  case h_1 t found => rw [found, Except.ok.injEq, Option.some.injEq]
  case h_2 missing => simp [missing]

variable {plan : Plan}

/-- A group has the slots of its first operator. -/
theorem mem_slots {ops : List Operator} (isGroup : ops ∈ plan) {slot : Nat} :
    slot ∈ List.range ((ops.head?.bind fun op => (readsOf plan).lookup op).elim 0 List.length) ↔
      ∃ first ∈ ops.head?, slot < first.inputReads.length := by
  cases ops with
  | nil => simp
  | cons first rest =>
    have inPlan : first ∈ plan.flatten := List.mem_flatten.2 ⟨_, isGroup, List.mem_cons_self⟩
    simp [lookup_readsOf inPlan]

theorem exists_groupBlocks (served : plan.Served) {ops : List Operator} (isGroup : ops ∈ plan)
    (signals : List Signal) (group : Nat) :
    ∃ blocks, groupBlocks signals (readsOf plan) group ops = .ok blocks := by
  apply Except.exists_mapM_eq_ok
  intro slot inside
  obtain ⟨first, isFirst, bound⟩ := (mem_slots isGroup).1 inside
  have step : ∀ op ∈ ops, ∃ s, readAt (readsOf plan) op slot = .ok s := by
    intro op member
    have most := served ops isGroup first isFirst op member
    exact ⟨_, (readAt_eq_ok (List.mem_flatten.2 ⟨ops, isGroup, member⟩)).2
      (List.getElem?_eq_getElem (Nat.lt_of_lt_of_le bound most))⟩
  obtain ⟨read, isRead⟩ := Except.exists_mapM_eq_ok step
  rw [isRead]
  exact ⟨_, rfl⟩

/-- Every block has one of the slots of its group. -/
theorem slot_of_mem_groupBlocks {signals : List Signal} {group : Nat} {ops : List Operator}
    (isGroup : ops ∈ plan) {blocks : List ReadBlock}
    (success : groupBlocks signals (readsOf plan) group ops = .ok blocks) {block : ReadBlock}
    (member : block ∈ blocks) :
    block.group = group ∧ ∃ first ∈ ops.head?, block.slot < first.inputReads.length := by
  obtain ⟨slot, inside, result⟩ := Except.exists_of_mem_result success member
  obtain ⟨read, -, result⟩ := Except.bind_eq_ok_iff.1 result
  cases result
  exact ⟨rfl, (mem_slots isGroup).1 inside⟩

/-! ## What an analysis says of its plan -/

/-- The analysis has the bases and the inputs of the plan, its memberships are in its blocks, and
its read blocks are slots of the groups. -/
structure Describes (analysis : ReadAnalysis) (plan : Plan) : Prop where
  signals : analysis.signals = plan.bases
  reads : analysis.reads = readsOf plan
  memberships : analysis.memberships = membershipsOf (unique analysis.blocks)
  blocks : ∀ block ∈ analysis.sortedReads, ∃ group, plan[block.group]? = some group ∧
    ∃ first ∈ group.head?, block.slot < first.inputReads.length

theorem exists_ofPlan (served : plan.Served) :
    ∃ analysis, ofPlan plan = .ok analysis ∧ analysis.Describes plan := by
  have step : ∀ entry ∈ plan.zipIdx, ∃ blocks,
      groupBlocks plan.bases (readsOf plan) entry.2 entry.1 = .ok blocks := fun entry member =>
    exists_groupBlocks served (List.fst_mem_of_mem_zipIdx member) _ _
  obtain ⟨blocks, areBlocks⟩ := Except.exists_mapM_eq_ok step
  refine ⟨_, by unfold ofPlan; exact Except.bind_eq_ok_iff.2 ⟨blocks, areBlocks, rfl⟩,
    rfl, rfl, rfl, ?_⟩
  intro block member
  dsimp only [sortReads] at member
  obtain ⟨some_, isSome, inside⟩ := List.mem_flatten.1 (List.mem_mergeSort.1 member)
  obtain ⟨⟨ops, group⟩, isGroup, result⟩ := Except.exists_of_mem_result areBlocks isSome
  have isAt := List.mem_zipIdx_iff_getElem?.1 isGroup
  obtain ⟨sameGroup, isSlot⟩ :=
    slot_of_mem_groupBlocks (List.mem_of_getElem? isAt) result inside
  exact ⟨ops, by rw [sameGroup]; exact isAt, isSlot⟩

/-- Without blocks no base is in any. -/
theorem Describes.membership_eq_nil {analysis : ReadAnalysis} (describes : analysis.Describes plan)
    (none : analysis.blocks = []) (s : Signal) : analysis.membership s = [] := by
  have sorted : unique [] = [] := (RunSort.stableSort_perm _ _ _).eq_nil
  rw [membership, describes.memberships, none, sorted]
  rfl

end ReadAnalysis

/-! ## States that can be refined -/

/-- The state has as many groups as the plan, all with operators of the plan that have an input for
every slot of the group, and its order has every base that they read once. -/
structure OrderState.Suits (state : OrderState) (plan : Plan) : Prop where
  count : state.groups.length = plan.length
  members : ∀ ops ∈ state.groups, ∀ op ∈ ops, op ∈ plan.flatten
  served : ∀ (i : Nat) (group ops : List Operator), plan[i]? = some group →
    state.groups[i]? = some ops → ∀ first ∈ group.head?, ∀ op ∈ ops,
      first.inputReads.length ≤ op.inputReads.length
  distinct : state.order.Nodup
  covered : ∀ ops ∈ state.groups, ∀ op ∈ ops, ∀ s ∈ op.inputReads, s.root ∈ state.order

theorem Plan.Served.suits {plan : Plan} (served : plan.Served)
    (inputs : ∀ op ∈ plan.flatten, ∀ s ∈ op.inputReads, s ∈ op.allSignals)
    {start : List Signal} (perm : start.Perm plan.bases) :
    (⟨start, plan⟩ : OrderState).Suits plan where
  count := rfl
  members ops isGroup op member := List.mem_flatten.2 ⟨ops, isGroup, member⟩
  served i group ops isAt isAt' first isFirst op member := by
    cases isAt.symm.trans isAt'
    exact served group (List.mem_of_getElem? isAt) first isFirst op member
  distinct := perm.nodup_iff.2 (Distinct.nodup_eraseDups _)
  covered ops isGroup op member s isInput := by
    have inPlan : op ∈ plan.flatten := List.mem_flatten.2 ⟨ops, isGroup, member⟩
    exact perm.mem_iff.2 (Plan.mem_bases.2 ⟨op, inPlan, s, inputs op inPlan s isInput, rfl⟩)

namespace OrderState.Suits

variable {plan : Plan} {state next : OrderState}

/-- Moving signals in the order and operators in their groups leaves a state that suits the
plan. -/
theorem rearrange (suits : state.Suits plan) (perm : next.order.Perm state.order)
    (same : Refine.SameGroups state.groups next.groups) : next.Suits plan where
  count := same.length_eq.symm.trans suits.count
  members ops isGroup op member := by
    obtain ⟨i, isAt⟩ := List.mem_iff_getElem?.1 isGroup
    obtain ⟨ops', isAt', perm'⟩ := same.symm.exists_group isAt
    exact suits.members ops' (List.mem_of_getElem? isAt') op (perm'.mem_iff.1 member)
  served i group ops isGroup isAt first isFirst op member := by
    obtain ⟨ops', isAt', perm'⟩ := same.symm.exists_group isAt
    exact suits.served i group ops' isGroup isAt' first isFirst op (perm'.mem_iff.1 member)
  distinct := perm.nodup_iff.2 suits.distinct
  covered ops isGroup op member s isInput := by
    obtain ⟨i, isAt⟩ := List.mem_iff_getElem?.1 isGroup
    obtain ⟨ops', isAt', perm'⟩ := same.symm.exists_group isAt
    exact perm.mem_iff.2
      (suits.covered ops' (List.mem_of_getElem? isAt') op (perm'.mem_iff.1 member) s isInput)

end OrderState.Suits

theorem ReadAnalysis.Describes.readable {analysis : ReadAnalysis} {plan : Plan}
    (describes : analysis.Describes plan) {state : OrderState} (suits : state.Suits plan) :
    Refine.Readable analysis state.groups state.order := by
  intro block member
  obtain ⟨group, isGroup, first, isFirst, bound⟩ := describes.blocks block member
  have inside : block.group < state.groups.length := by
    rw [suits.count]
    exact (List.getElem?_eq_some_iff.1 isGroup).1
  have isAt := List.getElem?_eq_getElem inside
  refine ⟨_, isAt, fun op isOp => ?_⟩
  have most := suits.served _ _ _ isGroup isAt first isFirst op isOp
  have found := List.getElem?_eq_getElem (Nat.lt_of_lt_of_le bound most)
  have isMember := List.getElem_mem inside
  refine ⟨_, ?_, suits.covered _ isMember op isOp _ (List.mem_of_getElem? found)⟩
  rw [describes.reads]
  exact (readAt_eq_ok (suits.members _ isMember op isOp)).2 found

end BatchGraph
