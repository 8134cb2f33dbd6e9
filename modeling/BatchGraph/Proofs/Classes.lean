import Mathlib
import BatchGraph.Proofs.KeyText
import BatchGraph.Proofs.Order.Places
import BatchGraph.Proofs.Order.ReadKeys
import BatchGraph.Proofs.Refinement

/-!
Bases are classified by what reads them together.

Keys stand for sets of bases (`ReadAnalysis.keyOf_eq_iff`), so counting blocks by their keys counts
sets: it keeps one block of each, and counts every block once (`ReadAnalysis.Tallies`).  The blocks
are then numbered from the heaviest, and the membership of a base has the numbers of the blocks with
it.  Bases of one membership are in the same read blocks, and only these (`classifies_plan`).

The weight of a block is `nan` if the extents of a base multiply to infinity and then with zero.  It
compares with no other weight, and such a block can keep a heavier one behind a lighter one
(`classifies_unsorted`).
-/

namespace BatchGraph

/-- Numbers are told apart by their order, the greatest first. -/
theorem Number.ranks_descending :
    RunSort.Ranks (fun x y : Number => y.lt x) fun x => x != .nan where
  asymmetric _ _ isBefore := lt_asymm isBefore
  trans x y z isX isY isZ first second := by
    have isX' : x ≠ .nan := bne_iff_ne.1 isX
    have isY' : y ≠ .nan := bne_iff_ne.1 isY
    have isZ' : z ≠ .nan := bne_iff_ne.1 isZ
    rw [lt_eq_false_iff isZ' isX']
    exact le_trans ((lt_eq_false_iff isZ' isY').1 second) ((lt_eq_false_iff isY' isX').1 first)

/-! ## Slots -/

namespace Plan

/-- The slots of each group, which are those of its first operator. -/
def slots (plan : Plan) : List (Nat × Nat) :=
  plan.zipIdx.flatMap fun (ops, group) =>
    (List.range (ops.head?.elim 0 (·.inputReads.length))).map (group, ·)

/-- An operator of the group reads the base at the slot. -/
def ReadsAt (plan : Plan) (group slot : Nat) (s : Signal) : Prop :=
  ∃ ops, plan[group]? = some ops ∧ ∃ op ∈ ops, ∃ t, op.inputReads[slot]? = some t ∧ t.root = s

end Plan

namespace ReadAnalysis

variable {plan : Plan} {analysis : ReadAnalysis}

theorem slots_of_groupBlocks {ops : List Operator} (isGroup : ops ∈ plan) {group : Nat}
    {blocks : List ReadBlock}
    (success : groupBlocks plan.bases (readsOf plan) group ops = .ok blocks) :
    blocks.map (fun block => (block.group, block.slot)) =
      (List.range (ops.head?.elim 0 (·.inputReads.length))).map (group, ·) := by
  have count : (ops.head?.bind fun op => (readsOf plan).lookup op).elim 0 List.length =
      ops.head?.elim 0 (·.inputReads.length) := by
    cases ops with
    | nil => rfl
    | cons first rest =>
      have inPlan : first ∈ plan.flatten := List.mem_flatten.2 ⟨_, isGroup, List.mem_cons_self⟩
      simp [lookup_readsOf inPlan]
  rw [groupBlocks, count] at success
  refine Except.map_eq_of_mapM_eq_ok (fun slot _ block result => ?_) success
  obtain ⟨read, -, result⟩ := Except.bind_eq_ok_iff.1 result
  cases result
  rfl

/-- There is one read block for every slot of every group. -/
theorem slots_of_ofPlan_eq_ok (success : ofPlan plan = .ok analysis) :
    analysis.blocks.map (fun block => (block.group, block.slot)) = plan.slots := by
  obtain ⟨found, areFound, success⟩ := Except.bind_eq_ok_iff.1 success
  cases success
  dsimp only
  rw [List.map_flatten, Plan.slots, List.flatMap]
  congr 1
  refine Except.map_eq_of_mapM_eq_ok (fun entry isEntry blocks result => ?_) areFound
  exact slots_of_groupBlocks (List.fst_mem_of_mem_zipIdx isEntry) result

/-! ## Keys -/

theorem pairwise_keyOf (signals bases : List Signal) :
    (keyOf signals bases).Pairwise (· ≤ ·) := by
  have sorted : (keyOf signals bases).Pairwise fun a b => decide (a ≤ b) = true := by
    refine List.pairwise_mergeSort (fun a b c => ?_) (fun a b => ?_) _
    · simp only [decide_eq_true_eq]
      exact le_trans
    · simp only [Bool.or_eq_true, decide_eq_true_eq]
      exact le_total a b
  exact sorted.imp of_decide_eq_true

/-- Keys are the same if and only if the sets of bases are. -/
theorem keyOf_eq_iff {signals bases bases' : List Signal} (known : bases ⊆ signals)
    (distinct : bases.Nodup) (distinct' : bases'.Nodup) :
    keyOf signals bases = keyOf signals bases' ↔ ∀ s, s ∈ bases ↔ s ∈ bases' := by
  refine ⟨mem_iff_of_keyOf_eq known, fun same => ?_⟩
  have perm := ((List.perm_ext_iff_of_nodup distinct distinct').2 same).map (rankIn signals)
  have perm' := ((keyOf_perm signals bases).trans perm).trans (keyOf_perm signals bases').symm
  exact perm'.eq_of_pairwise (fun a b _ _ => le_antisymm) (pairwise_keyOf signals bases)
    (pairwise_keyOf signals bases')

/-! ## Counting -/

theorem nodup_keys_countBlock {known : List UniqueBlock} (distinct : (known.map (·.key)).Nodup)
    (block : ReadBlock) : ((countBlock block known).map (·.key)).Nodup := by
  induction known with
  | nil => simp [countBlock]
  | cons first rest ih =>
    rw [List.map_cons, List.nodup_cons] at distinct
    unfold countBlock
    split
    case isTrue => exact List.nodup_cons.2 distinct
    case isFalse differ =>
      refine List.nodup_cons.2 ⟨fun member => ?_, ih distinct.2⟩
      obtain ⟨u, isCounted, key⟩ := List.mem_map.1 member
      rcases mem_countBlock isCounted with ⟨isBlock, -⟩ | ⟨v, isKnown, same, -⟩
      · exact differ (key.symm.trans isBlock)
      · exact distinct.1 (List.mem_map.2 ⟨v, isKnown, same.trans key⟩)

theorem sum_countBlock (block : ReadBlock) (known : List UniqueBlock) :
    ((countBlock block known).map (·.duplicates)).sum = (known.map (·.duplicates)).sum + 1 := by
  induction known with
  | nil => rfl
  | cons first rest ih =>
    unfold countBlock
    split
    case isTrue => simp only [List.map_cons, List.sum_cons]; omega
    case isFalse => simp only [List.map_cons, List.sum_cons, ih]; omega

/-- No two of the known blocks have one key, and together they have been met `count` times. -/
structure Tallies (known : List UniqueBlock) (count : Nat) : Prop where
  distinct : (known.map (·.key)).Nodup
  total : (known.map (·.duplicates)).sum = count

theorem unique_tallies (blocks : List ReadBlock) : Tallies (unique blocks) blocks.length := by
  have tallies : Tallies (blocks.foldl (fun known block => countBlock block known) [])
      blocks.length := by
    induction blocks using List.reverseRecOn with
    | nil => exact ⟨List.nodup_nil, rfl⟩
    | append_singleton blocks block ih =>
      rw [List.foldl_concat, List.length_append, List.length_singleton]
      exact ⟨nodup_keys_countBlock ih.distinct block, by rw [sum_countBlock, ih.total]⟩
  have perm : (unique blocks).Perm _ := RunSort.stableSort_perm _ _ _
  exact ⟨(perm.map _).nodup_iff.2 tallies.distinct, (perm.map _).sum_eq.trans tallies.total⟩

/-! ## Classes -/

/-- The number of the unique block that has the key of a read block. -/
def numberOf (analysis : ReadAnalysis) (block : ReadBlock) : Nat :=
  analysis.uniqueBlocks.findIdx (·.key = block.key)

/-- The read blocks of the analysis are those of the plan, the unique blocks are the sets among
them, and the memberships are the classes of the bases under being read together. -/
structure Classifies (analysis : ReadAnalysis) (plan : Plan) : Prop where
  /-- There is one read block for each slot of each group, -/
  slots : analysis.blocks.map (fun block => (block.group, block.slot)) = plan.slots
  /-- which has the bases that the group reads there. -/
  reads : ∀ block ∈ analysis.blocks, ∀ s,
    s ∈ block.bases ↔ plan.ReadsAt block.group block.slot s
  /-- The text of a key stands for a set. -/
  keys : ∀ block ∈ analysis.blocks, ∀ block' ∈ analysis.blocks,
    keyText block.key = keyText block'.key ↔ ∀ s, s ∈ block.bases ↔ s ∈ block'.bases
  /-- The unique blocks are different sets, -/
  apart : analysis.uniqueBlocks.Pairwise fun u v => ¬ ∀ s, s ∈ u.bases ↔ s ∈ v.bases
  /-- none of them empty, -/
  nonempty : ∀ u ∈ analysis.uniqueBlocks, u.bases ≠ [] ∧ u.bases.Nodup
  /-- and all read blocks are counted. -/
  total : (analysis.uniqueBlocks.map (·.duplicates)).sum = analysis.blocks.length
  /-- No unique block is heavier than the one in front of it, -/
  chain : analysis.uniqueBlocks.IsChain fun u v => u.weight.lt v.weight = false
  /-- nor than any before it, if all of them have a weight. -/
  heaviest : (∀ u ∈ analysis.uniqueBlocks, u.weight ≠ .nan) →
    analysis.uniqueBlocks.Pairwise fun u v => v.weight.le u.weight = true
  /-- The bases in some block are the ones with a membership, -/
  listed : ∀ s, s ∈ analysis.memberships.map (·.1) ↔ ∃ u ∈ analysis.uniqueBlocks, s ∈ u.bases
  /-- which has the numbers of the unique blocks with the base -/
  members : ∀ s i, i ∈ analysis.membership s ↔ ∃ u, analysis.uniqueBlocks[i]? = some u ∧ s ∈ u.bases
  /-- in their order. -/
  ascending : ∀ s, (analysis.membership s).Pairwise (· < ·)
  /-- Each read block has the number of a unique block, -/
  numbers : ∀ block ∈ analysis.blocks, ∃ u,
    analysis.uniqueBlocks[analysis.numberOf block]? = some u ∧ ∀ s, s ∈ u.bases ↔ s ∈ block.bases
  /-- and the blocks are sorted by their numbers, -/
  sorted : analysis.sortedReads.Perm analysis.blocks
  /-- the last one first. -/
  descending : analysis.sortedReads.Pairwise fun block block' =>
    analysis.numberOf block' ≤ analysis.numberOf block
  /-- Two bases have memberships with the same text if and only if they are read together. -/
  classes : ∀ s t, keyText ((analysis.membership s).map Int.ofNat) =
      keyText ((analysis.membership t).map Int.ofNat) ↔
    ∀ group slot, plan.ReadsAt group slot s ↔ plan.ReadsAt group slot t

theorem BlockOf.mem_bases_iff {block : ReadBlock} {group : List Operator}
    (blockOf : BlockOf plan block group) {s : Signal} :
    s ∈ block.bases ↔ plan.ReadsAt block.group block.slot s := by
  rw [blockOf.bases]
  constructor
  · exact fun reads => ⟨group, blockOf.isGroup, reads⟩
  · rintro ⟨ops, isGroup, reads⟩
    cases isGroup.symm.trans blockOf.isGroup
    exact reads

theorem sortReads_descending (uniqueBlocks : List UniqueBlock) (blocks : List ReadBlock) :
    (sortReads uniqueBlocks blocks).Pairwise fun block block' =>
      uniqueBlocks.findIdx (·.key = block'.key) ≤ uniqueBlocks.findIdx (·.key = block.key) := by
  refine (List.pairwise_mergeSort (fun a b c => ?_) (fun a b => ?_) blocks).imp of_decide_eq_true
  · simp only [decide_eq_true_eq]
    exact fun first second => second.trans first
  · simp only [Bool.or_eq_true, decide_eq_true_eq]
    exact le_total _ _

namespace Found

variable (found : analysis.Found plan)

include found

theorem tallies : Tallies analysis.uniqueBlocks analysis.blocks.length :=
  found.unique ▸ unique_tallies analysis.blocks

/-- A unique block is a set of bases that are read together. -/
theorem exists_blockOf {u : UniqueBlock} (member : u ∈ analysis.uniqueBlocks) :
    ∃ block ∈ analysis.blocks, ∃ group, BlockOf plan block group ∧ block.key = u.key ∧
      block.bases = u.bases := by
  obtain ⟨block, isBlock, same⟩ := found.exists_block member
  obtain ⟨group, blockOf⟩ := found.blocks block isBlock
  exact ⟨block, isBlock, group, blockOf, same⟩

theorem chain : analysis.uniqueBlocks.IsChain fun u v => u.weight.lt v.weight = false := by
  rw [found.unique]
  exact RunSort.stableSort_ascending (Number.ranks_descending.comap UniqueBlock.weight) _

theorem heaviest (numbers : ∀ u ∈ analysis.uniqueBlocks, u.weight ≠ .nan) :
    analysis.uniqueBlocks.Pairwise fun u v => v.weight.le u.weight = true := by
  have sorted : analysis.uniqueBlocks.Pairwise fun u v => u.weight.lt v.weight = false := by
    rw [found.unique] at numbers ⊢
    refine RunSort.stableSort_pairwise (Number.ranks_descending.comap UniqueBlock.weight) ?_
    refine List.all_eq_true.2 fun u member => bne_iff_ne.2 (numbers u ?_)
    exact (RunSort.stableSort_perm _ _ _).mem_iff.2 member
  exact sorted.imp_of_mem fun {u v} isU isV notBefore =>
    (Number.lt_eq_false_iff (numbers v isV) (numbers u isU)).1 notBefore

theorem listed (s : Signal) :
    s ∈ analysis.memberships.map (·.1) ↔ ∃ u ∈ analysis.uniqueBlocks, s ∈ u.bases := by
  rw [found.memberships, keys_membershipsOf, List.mem_eraseDups, List.mem_flatMap]

theorem ascending (s : Signal) : (analysis.membership s).Pairwise (· < ·) := by
  rw [found.membership_eq]
  exact List.pairwise_lt_range.sublist List.filter_sublist

end Found

namespace Surveys

variable (surveys : analysis.Surveys plan)

include surveys

theorem readsAt_iff {group slot : Nat} {s : Signal} : plan.ReadsAt group slot s ↔
    ∃ block ∈ analysis.blocks, block.group = group ∧ block.slot = slot ∧ s ∈ block.bases := by
  constructor
  · intro reads
    obtain ⟨ops, isGroup, op, isOp, t, found, -⟩ := id reads
    obtain ⟨block, isBlock, rfl, rfl⟩ := surveys.complete group ops isGroup op isOp slot
      (List.getElem?_eq_some_iff.1 found).1
    obtain ⟨_, blockOf⟩ := surveys.blockOf isBlock
    exact ⟨block, surveys.sorted.mem_iff.1 isBlock, rfl, rfl, blockOf.mem_bases_iff.2 reads⟩
  · rintro ⟨block, isBlock, rfl, rfl, member⟩
    obtain ⟨_, blockOf⟩ := surveys.found.blocks block isBlock
    exact blockOf.mem_bases_iff.1 member

theorem key_eq_iff {block block' : ReadBlock} (isBlock : block ∈ analysis.blocks)
    (isBlock' : block' ∈ analysis.blocks) :
    block.key = block'.key ↔ ∀ s, s ∈ block.bases ↔ s ∈ block'.bases := by
  obtain ⟨_, blockOf⟩ := surveys.found.blocks block isBlock
  obtain ⟨_, blockOf'⟩ := surveys.found.blocks block' isBlock'
  rw [blockOf.key, blockOf'.key]
  exact keyOf_eq_iff (blockOf.subset_bases surveys.alike.inputs) blockOf.distinct blockOf'.distinct

theorem apart : analysis.uniqueBlocks.Pairwise fun u v => ¬ ∀ s, s ∈ u.bases ↔ s ∈ v.bases := by
  refine (List.pairwise_map.1 surveys.found.tallies.distinct).imp_of_mem ?_
  intro u v isU isV differ same
  obtain ⟨block, isBlock, -, -, key, bases⟩ := surveys.found.exists_blockOf isU
  obtain ⟨block', isBlock', -, -, key', bases'⟩ := surveys.found.exists_blockOf isV
  rw [← bases, ← bases', ← surveys.key_eq_iff isBlock isBlock', key, key'] at same
  exact differ same

theorem exists_unique {block : ReadBlock} (isBlock : block ∈ analysis.blocks) :
    ∃ u, analysis.uniqueBlocks[analysis.numberOf block]? = some u ∧
      ∀ s, s ∈ u.bases ↔ s ∈ block.bases := by
  obtain ⟨known, isKnown, key⟩ := (unique_counts _).complete block isBlock
  rw [← surveys.found.unique] at isKnown
  have inside : analysis.numberOf block < analysis.uniqueBlocks.length :=
    List.findIdx_lt_length_of_exists ⟨known, isKnown, decide_eq_true key⟩
  have isAt := List.getElem?_eq_getElem inside
  refine ⟨_, isAt, ?_⟩
  have same := of_decide_eq_true (List.findIdx_getElem (w := inside))
  obtain ⟨block', isBlock', -, -, key', bases⟩ :=
    surveys.found.exists_blockOf (List.mem_of_getElem? isAt)
  rw [← bases, ← surveys.key_eq_iff isBlock' isBlock, key']
  exact same

/-- Having the same numbers is being read together. -/
theorem numbers_iff (s t : Signal) :
    (∀ i, i ∈ analysis.membership s ↔ i ∈ analysis.membership t) ↔
      ∀ group slot, plan.ReadsAt group slot s ↔ plan.ReadsAt group slot t := by
  constructor
  · intro same group slot
    rw [surveys.readsAt_iff, surveys.readsAt_iff]
    refine exists_congr fun block => and_congr_right fun isBlock => ?_
    obtain ⟨i, isNumber⟩ := surveys.exists_number (surveys.sorted.mem_iff.2 isBlock)
    rw [← isNumber, ← isNumber, same]
  · intro same i
    rw [surveys.found.mem_membership_iff, surveys.found.mem_membership_iff]
    refine exists_congr fun u => and_congr_right fun isAt => ?_
    obtain ⟨block, -, group, blockOf, -, bases⟩ :=
      surveys.found.exists_blockOf (List.mem_of_getElem? isAt)
    rw [← bases, blockOf.mem_bases_iff, blockOf.mem_bases_iff, same]

end Surveys

end ReadAnalysis

open ReadAnalysis

/-- The analysis of a plan whose groups take equally many inputs per operator. -/
theorem classifies_plan {plan : Plan}
    (slots : ∀ group ∈ plan, ∀ a ∈ group, ∀ b ∈ group, a.inputReads.length = b.inputReads.length)
    (states : ∀ op ∈ plan.flatten, op.StatesSet) :
    ∃ analysis, ofPlan plan = .ok analysis ∧ analysis.Classifies plan := by
  have alike : plan.Alike := ⟨slots, fun op isOp => (states op isOp).inputs⟩
  obtain ⟨analysis, success, surveys⟩ := exists_surveys alike
  have found := surveys.found
  refine ⟨analysis, success, {
    slots := slots_of_ofPlan_eq_ok success
    reads := fun block isBlock s => ?_
    keys := fun block isBlock block' isBlock' =>
      keyText_inj.trans (surveys.key_eq_iff isBlock isBlock')
    apart := surveys.apart
    nonempty := fun u member => ?_
    total := found.tallies.total
    chain := found.chain
    heaviest := found.heaviest
    listed := found.listed
    members := fun s i => found.mem_membership_iff
    ascending := found.ascending
    numbers := fun block isBlock => surveys.exists_unique isBlock
    sorted := surveys.sorted
    descending := ?_
    classes := fun s t =>
      (keyText_eq_iff (found.ascending s) (found.ascending t)).trans (surveys.numbers_iff s t) }⟩
  · obtain ⟨group, blockOf⟩ := found.blocks block isBlock
    exact blockOf.mem_bases_iff
  · obtain ⟨block, -, group, blockOf, -, bases⟩ := found.exists_blockOf member
    exact ⟨bases ▸ blockOf.bases_ne_nil, bases ▸ blockOf.distinct⟩
  · obtain ⟨blocks, -, success⟩ := Except.bind_eq_ok_iff.1 success
    cases success
    exact sortReads_descending _ _

namespace Refine

/-- A function of one signal. -/
def reader (id : Nat) (s : Signal) : Operator := .func id false [] [] [s] [] none

theorem reader_statesSet (id : Nat) (s : Signal) : (reader id s).StatesSet :=
  (Operator.Built.func ..).statesSet

/-- Two numbers that are read together twice, and between that a third one alone. -/
def duet : Plan :=
  [[reader 0 (place 0), reader 1 (place 1)], [reader 2 (place 2)],
    [reader 3 (place 1), reader 4 (place 0)]]

theorem ofPlan_duet : (ofPlan duet).map (fun analysis =>
      (analysis.uniqueBlocks, analysis.membership (place 0), analysis.membership (place 1))) =
    .ok ([⟨[0, 1], [place 0, place 1], 2⟩, ⟨[2], [place 2], 1⟩], [0], [0]) := by
  cbv

/-- A base whose extents multiply to infinity and then with zero. -/
def void : Signal :=
  .ofBase ⟨1, "void", .float32, [.ofNat (1 <<< 700), .ofNat (1 <<< 700), 0], [0], false, false,
    by decide +kernel, .inl rfl⟩

theorem natural_extents_two : [(2 : Number)].all Number.isNatural = true := by decide

def double : Signal :=
  .ofBase ⟨2, "double", .float32, [2], [0], false, false, natural_extents_two, .inl rfl⟩

/-- Three bases that are read alone, of which the second one has no size. -/
def solos : Plan := [[reader 0 (place 0)], [reader 1 void], [reader 2 double]]

theorem weights_solos :
    (ofPlan solos).map (·.uniqueBlocks.map (·.weight)) = .ok [1, .nan, 2] := by
  decide +kernel

end Refine

open Refine

theorem classifies_plan_duet :
    (∀ group ∈ duet, ∀ a ∈ group, ∀ b ∈ group, a.inputReads.length = b.inputReads.length) ∧
    (∀ op ∈ duet.flatten, op.StatesSet) ∧
    ∃ analysis, ofPlan duet = .ok analysis ∧ analysis.Classifies duet ∧
      analysis.uniqueBlocks = [⟨[0, 1], [place 0, place 1], 2⟩, ⟨[2], [place 2], 1⟩] ∧
      (∀ u ∈ analysis.uniqueBlocks, u.weight ≠ .nan) ∧
      ∀ group slot, duet.ReadsAt group slot (place 0) ↔ duet.ReadsAt group slot (place 1) := by
  have slots : ∀ group ∈ duet, ∀ a ∈ group, ∀ b ∈ group,
      a.inputReads.length = b.inputReads.length := by decide
  have states : ∀ op ∈ duet.flatten, op.StatesSet := by simp [duet, reader_statesSet]
  obtain ⟨analysis, success, classifies⟩ := classifies_plan slots states
  refine ⟨slots, states, analysis, success, classifies, ?_⟩
  obtain ⟨analysis', success', same⟩ := Except.map_eq_ok_iff.1 ofPlan_duet
  cases success.symm.trans success'
  simp only [Prod.mk.injEq] at same
  obtain ⟨unique, first, second⟩ := same
  refine ⟨unique, ?_, (classifies.classes _ _).1 (by rw [first, second])⟩
  rw [unique]
  decide +kernel

/-- A block that is heavier than the first one comes behind it, because the block between them has
no weight. -/
theorem classifies_unsorted :
    (∀ group ∈ solos, ∀ a ∈ group, ∀ b ∈ group, a.inputReads.length = b.inputReads.length) ∧
    (∀ op ∈ solos.flatten, op.StatesSet) ∧
    ∃ analysis, ofPlan solos = .ok analysis ∧
      analysis.uniqueBlocks.map (·.weight) = [1, .nan, 2] ∧
      ¬ analysis.uniqueBlocks.Pairwise fun u v => u.weight.lt v.weight = false := by
  obtain ⟨analysis, success, weights⟩ := Except.map_eq_ok_iff.1 weights_solos
  have states : ∀ op ∈ solos.flatten, op.StatesSet := by simp [solos, reader_statesSet]
  refine ⟨by decide, states, analysis, success, weights, fun sorted => ?_⟩
  have pairs : (analysis.uniqueBlocks.map (·.weight)).Pairwise fun x y => x.lt y = false :=
    List.pairwise_map.2 sorted
  rw [weights] at pairs
  exact absurd pairs (by decide +kernel)

end BatchGraph
