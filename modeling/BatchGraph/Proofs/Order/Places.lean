import BatchGraph.Proofs.Order.Membership

/-!
Which bases can change their relative order.

The chain gives bases of different membership different places (`Found.chainPlace_eq_iff`), and every
order with the memberships of the chain lists the bases by these places (`Found.pairwise_chainPlace`).
So two bases of different membership stand in the same order in all such orders
(`Found.idxOf_lt_iff`).  Bases of equal membership are in the same read blocks
(`Surveys.mem_bases_iff`).
-/

namespace BatchGraph

namespace ReadAnalysis

variable {analysis : ReadAnalysis} {plan : Plan}

/-! ## Places in the chain -/

theorem Found.chainPlace_eq_iff (found : analysis.Found plan) {s t : Signal} :
    analysis.chainPlace s = analysis.chainPlace t ↔ analysis.membership s = analysis.membership t := by
  have distinct : (Hamming.chained analysis.memberships).Nodup :=
    (Hamming.chained_perm _).nodup_iff.2 (Distinct.nodup_eraseDups _)
  rcases analysis.chainPlace_cases s with ⟨place, none_⟩ | ⟨i, place, -, listed, isAt⟩ <;>
    rcases analysis.chainPlace_cases t with ⟨place', none'⟩ | ⟨j, place', -, listed', isAt'⟩ <;>
    rw [place, place']
  · simp [none_, none']
  · have differ : analysis.membership s ≠ analysis.membership t := by
      rw [none_]
      exact (found.ne_nil_of_lookup listed').symm
    exact ⟨fun same => by omega, fun same => absurd same differ⟩
  · have differ : analysis.membership s ≠ analysis.membership t := by
      rw [none']
      exact found.ne_nil_of_lookup listed
    exact ⟨fun same => by omega, fun same => absurd same differ⟩
  · constructor
    · intro same
      rw [Int.ofNat_inj] at same
      subst same
      exact Option.some.inj (isAt.symm.trans isAt')
    · intro same
      rw [same] at isAt
      rw [Distinct.eq_of_getElem? distinct isAt isAt']

/-! ## Orders with the memberships of the chain -/

theorem map_eq_map_of_imp {α β γ : Type} {f : α → β} {g : α → γ} (imp : ∀ x y, f x = f y → g x = g y)
    {xs ys : List α} (same : xs.map f = ys.map f) : xs.map g = ys.map g := by
  induction xs generalizing ys with
  | nil =>
    cases ys with
    | nil => rfl
    | cons => cases same
  | cons x xs ih =>
    cases ys with
    | nil => cases same
    | cons y ys =>
      rw [List.map_cons, List.map_cons, List.cons.injEq] at same
      rw [List.map_cons, List.map_cons, imp x y same.1, ih same.2]

section Order

variable {order : List Signal}
  (places : order.map analysis.membership = analysis.hammingOrder.map analysis.membership)

include places

theorem Found.pairwise_chainPlace (found : analysis.Found plan) :
    order.Pairwise fun a b => analysis.chainPlace a ≤ analysis.chainPlace b := by
  have same := map_eq_map_of_imp (fun _ _ => found.chainPlace_eq_iff.2) places
  have sorted := List.pairwise_map.2 analysis.pairwise_hammingOrder
  rw [← same] at sorted
  exact List.pairwise_map.1 sorted

/-- Bases of different membership stand in the order of their places in the chain. -/
theorem Found.idxOf_lt_iff (found : analysis.Found plan) {s t : Signal} (isS : s ∈ order)
    (isT : t ∈ order) (differ : analysis.membership s ≠ analysis.membership t) :
    order.idxOf s < order.idxOf t ↔ analysis.chainPlace s < analysis.chainPlace t := by
  have sorted := found.pairwise_chainPlace places
  have apart : analysis.chainPlace s ≠ analysis.chainPlace t := mt found.chainPlace_eq_iff.1 differ
  constructor
  · intro less
    exact lt_of_le_of_ne (Distinct.rel_of_idxOf_lt sorted isT less) apart
  · intro less
    rcases Nat.lt_trichotomy (order.idxOf s) (order.idxOf t) with before | same | behind
    · exact before
    · exact absurd (congrArg _ (Distinct.idxOf_inj isS same)) apart
    · have le := Distinct.rel_of_idxOf_lt sorted isS behind
      omega

end Order

/-! ## The analysis of a plan -/

/-- What is known of the analysis of a plan whose operators take equally many inputs in each
group: in addition to what it describes and has found, that its read blocks are those of all slots
of the groups. -/
structure Surveys (analysis : ReadAnalysis) (plan : Plan) : Prop where
  alike : plan.Alike
  describes : analysis.Describes plan
  found : analysis.Found plan
  sorted : analysis.sortedReads.Perm analysis.blocks
  complete : ∀ (i : Nat) (group : List Operator), plan[i]? = some group → ∀ op ∈ group,
    ∀ slot < op.inputReads.length, ∃ block ∈ analysis.sortedReads, block.group = i ∧
      block.slot = slot

/-- Every slot of a group has a read block. -/
theorem exists_block_of_slot (success : ofPlan plan = .ok analysis) {i slot : Nat}
    {group : List Operator} (isGroup : plan[i]? = some group) {first : Operator}
    (isFirst : first ∈ group.head?) (inside : slot < first.inputReads.length) :
    ∃ block ∈ analysis.blocks, block.group = i ∧ block.slot = slot := by
  obtain ⟨found, areFound, success⟩ := Except.bind_eq_ok_iff.1 success
  cases success
  have isEntry : (group, i) ∈ plan.zipIdx := List.mem_zipIdx_iff_getElem?.2 isGroup
  obtain ⟨blocks, areBlocks, result⟩ := Except.exists_result_of_mem areFound isEntry
  have isSlot := (mem_slots (List.mem_of_getElem? isGroup)).2 ⟨first, isFirst, inside⟩
  obtain ⟨block, member, result⟩ := Except.exists_result_of_mem result isSlot
  obtain ⟨read, -, result⟩ := Except.bind_eq_ok_iff.1 result
  cases result
  exact ⟨_, List.mem_flatten.2 ⟨blocks, areBlocks, member⟩, rfl, rfl⟩

theorem sortedReads_perm (success : ofPlan plan = .ok analysis) :
    analysis.sortedReads.Perm analysis.blocks := by
  obtain ⟨found, -, success⟩ := Except.bind_eq_ok_iff.1 success
  cases success
  exact List.mergeSort_perm _ _

theorem exists_surveys (alike : plan.Alike) :
    ∃ analysis, ofPlan plan = .ok analysis ∧ analysis.Surveys plan := by
  obtain ⟨analysis, success, describes⟩ := exists_ofPlan alike.served
  have sorted := sortedReads_perm success
  refine ⟨analysis, success, alike, describes, found_of_ofPlan_eq_ok success, sorted, ?_⟩
  intro i group isGroup op isOp slot inside
  obtain ⟨first, isFirst⟩ := Option.isSome_iff_exists.1
    (List.isSome_head?.2 (List.ne_nil_of_mem isOp))
  rw [alike.slots group (List.mem_of_getElem? isGroup) op isOp first
    (List.mem_of_mem_head? isFirst)] at inside
  obtain ⟨block, isBlock, isPlace⟩ := exists_block_of_slot success isGroup isFirst inside
  exact ⟨block, sorted.mem_iff.2 isBlock, isPlace⟩

namespace Surveys

variable {block : ReadBlock}

theorem distinct (surveys : analysis.Surveys plan) : analysis.hammingOrder.Nodup := by
  rw [analysis.hammingOrder_perm.nodup_iff, surveys.describes.signals]
  exact Distinct.nodup_eraseDups _

theorem suits (surveys : analysis.Surveys plan) :
    OrderState.Suits ⟨analysis.hammingOrder, plan⟩ plan :=
  surveys.alike.served.suits surveys.alike.inputs
    (surveys.describes.signals ▸ analysis.hammingOrder_perm)

theorem blockOf (surveys : analysis.Surveys plan) (isBlock : block ∈ analysis.sortedReads) :
    ∃ group, BlockOf plan block group :=
  surveys.found.blocks block (surveys.sorted.mem_iff.1 isBlock)

theorem exists_number (surveys : analysis.Surveys plan) (isBlock : block ∈ analysis.sortedReads) :
    ∃ i, ∀ s, i ∈ analysis.membership s ↔ s ∈ block.bases := by
  obtain ⟨group, blockOf⟩ := surveys.blockOf isBlock
  exact surveys.found.exists_number (surveys.sorted.mem_iff.1 isBlock)
    (blockOf.subset_bases surveys.alike.inputs)

theorem mem_hammingOrder (surveys : analysis.Surveys plan) (isBlock : block ∈ analysis.sortedReads)
    {s : Signal} (isS : s ∈ block.bases) : s ∈ analysis.hammingOrder := by
  obtain ⟨group, blockOf⟩ := surveys.blockOf isBlock
  rw [analysis.hammingOrder_perm.mem_iff, surveys.describes.signals]
  exact blockOf.subset_bases surveys.alike.inputs isS

/-- Bases of one membership are in the same read blocks. -/
theorem mem_bases_iff (surveys : analysis.Surveys plan) (isBlock : block ∈ analysis.sortedReads)
    {s t : Signal} (same : analysis.membership s = analysis.membership t) :
    s ∈ block.bases ↔ t ∈ block.bases := by
  obtain ⟨i, isNumber⟩ := surveys.exists_number isBlock
  rw [← isNumber, ← isNumber, same]

/-- The groups with a read block are those whose operators take an input. -/
theorem mem_groups_iff (surveys : analysis.Surveys plan) {i : Nat} {group ops : List Operator}
    (isGroup : plan[i]? = some group) (perm : group.Perm ops) :
    i ∈ analysis.sortedReads.map (·.group) ↔ ops.any (·.inputReads ≠ []) = true := by
  rw [← perm.any_eq, List.any_eq_true, List.mem_map]
  constructor
  · rintro ⟨block, isBlock, rfl⟩
    obtain ⟨group', blockOf⟩ := surveys.blockOf isBlock
    cases isGroup.symm.trans blockOf.isGroup
    obtain ⟨first, isFirst, inside⟩ := blockOf.slot
    refine ⟨first, List.mem_of_mem_head? isFirst, decide_eq_true ?_⟩
    exact List.ne_nil_of_length_pos (Nat.lt_of_le_of_lt (Nat.zero_le _) inside)
  · rintro ⟨op, isOp, some_⟩
    have inside := List.length_pos_iff.2 (of_decide_eq_true some_)
    obtain ⟨block, isBlock, sameGroup, -⟩ := surveys.complete i group isGroup op isOp 0 inside
    exact ⟨block, isBlock, sameGroup⟩

end Surveys

end ReadAnalysis

end BatchGraph
