import BatchGraph.Proofs.Order.Places
import BatchGraph.Proofs.Order.ReadKeys
import BatchGraph.Proofs.Order.Window

/-!
Which bases a visit of a read block can exchange.

A visit sorts the operators of a group by the bases of one block and then moves the bases of all
blocks of the group.  The operators read the bases of that one block in the order in which they
stand, so only another block of the group can change the order of two bases (`Exchanges`,
`visit_keeps`).  The last block of a group is moved last; if its bases follow each other, this puts
them back into the order that they had before the visit (`visit_restores`).
-/

namespace BatchGraph

open Refine Refine.Arrangement

namespace ReadAnalysis

variable {analysis : ReadAnalysis} {plan : Plan}

/-- Operators that are sorted by the bases of a block may exchange two bases which the group reads at
another slot as well. -/
def Exchanges (analysis : ReadAnalysis) (block : ReadBlock) (s t : Signal) : Prop :=
  ∃ other ∈ analysis.sortedReads, other.group = block.group ∧ other.slot ≠ block.slot ∧
    s ∈ other.bases ∧ t ∈ other.bases

/-- The slots of a group, in the order in which their blocks are visited. -/
def slotsOf (analysis : ReadAnalysis) (group : Nat) : List Nat :=
  (analysis.sortedReads.filter (·.group = group)).map (·.slot)

/-! ## Ranks of sorted operators -/

/-- Bases that are read in the order of their positions have ranks in this order. -/
theorem rankOf_lt_iff {order bases : List Signal}
    (sorted : bases.Pairwise fun s t => order.idxOf s ≤ order.idxOf t) {s t : Signal}
    (isS : s ∈ bases) (isT : t ∈ bases) (differ : order.idxOf s ≠ order.idxOf t) :
    rankOf (Assoc.lastPositions bases) s < rankOf (Assoc.lastPositions bases) t ↔
      order.idxOf s < order.idxOf t := by
  obtain ⟨i, found⟩ := Assoc.exists_lookup_lastPositions isS
  obtain ⟨j, found'⟩ := Assoc.exists_lookup_lastPositions isT
  have rises {k l : Nat} {u v : Signal} (isU : (Assoc.lastPositions bases).lookup u = some k)
      (isV : (Assoc.lastPositions bases).lookup v = some l) (less : k < l) :
      order.idxOf u ≤ order.idxOf v := by
    obtain ⟨inside, rfl⟩ :=
      List.getElem?_eq_some_iff.1 (Assoc.getElem?_of_lookup_lastPositions isU)
    obtain ⟨inside', rfl⟩ :=
      List.getElem?_eq_some_iff.1 (Assoc.getElem?_of_lookup_lastPositions isV)
    exact List.pairwise_iff_getElem.1 sorted k l inside inside' less
  rw [rankOf, rankOf, found, found', Option.getD_some, Option.getD_some]
  rcases Nat.lt_trichotomy i j with less | same | more
  · have le := rises found found' less
    omega
  · subst same
    have isAt := Assoc.getElem?_of_lookup_lastPositions found
    cases isAt.symm.trans (Assoc.getElem?_of_lookup_lastPositions found')
    exact absurd rfl differ
  · have le := rises found' found more
    omega

/-! ## Two arrangements -/

section Arrangements

variable (surveys : analysis.Surveys plan) {a a' : Arrangement}
  (arranges : a.Arranges analysis.membership analysis.hammingOrder)
  (arranges' : a'.Arranges analysis.membership analysis.hammingOrder)

include surveys arranges arranges'

/-- Two arrangements have bases of different membership in the same order. -/
theorem Surveys.idxOf_lt_iff {s t : Signal} (isS : s ∈ analysis.hammingOrder)
    (isT : t ∈ analysis.hammingOrder) (differ : analysis.membership s ≠ analysis.membership t) :
    a'.order.idxOf s < a'.order.idxOf t ↔ a.order.idxOf s < a.order.idxOf t := by
  rw [surveys.found.idxOf_lt_iff arranges.places (arranges.perm.mem_iff.2 isS)
      (arranges.perm.mem_iff.2 isT) differ,
    surveys.found.idxOf_lt_iff arranges'.places (arranges'.perm.mem_iff.2 isS)
      (arranges'.perm.mem_iff.2 isT) differ]

/-- The bases of a block follow each other in all arrangements or in none. -/
theorem Surveys.unbroken {block : ReadBlock} (isBlock : block ∈ analysis.sortedReads)
    (unbroken : Unbroken a.order block.bases) : Unbroken a'.order block.bases := by
  -- At the position of a base the other arrangement has one of the same membership.
  have exists_at {t : Signal} (isT : t ∈ a'.order) : ∃ u ∈ a.order,
      a.order.idxOf u = a'.order.idxOf t ∧ analysis.membership u = analysis.membership t := by
    have inside := List.idxOf_lt_length_of_mem isT
    have inside' := inside
    rw [(arranges'.perm.trans arranges.perm.symm).length_eq] at inside'
    have same := congrArg (·[a'.order.idxOf t]?) (arranges'.places.trans arranges.places.symm)
    have isAt := List.getElem?_eq_getElem inside'
    simp only [List.getElem?_map, List.getElem?_eq_getElem inside, isAt, List.getElem_idxOf,
      Option.map_some, Option.some.injEq] at same
    exact ⟨_, List.mem_of_getElem? isAt,
      Distinct.idxOf_eq (arranges.perm.nodup_iff.2 surveys.distinct) isAt, same.symm⟩
  have inside {t : Signal} (isT : t ∈ block.bases) : t ∈ a'.order :=
    arranges'.perm.mem_iff.2 (surveys.mem_hammingOrder isBlock isT)
  intro s isS u isU t isT fromS toU
  obtain ⟨s', -, position, sameS⟩ := exists_at (inside isS)
  obtain ⟨u', -, position', sameU⟩ := exists_at (inside isU)
  obtain ⟨t', isT', position'', sameT⟩ := exists_at isT
  rw [← position, ← position''] at fromS
  rw [← position', ← position''] at toU
  exact (surveys.mem_bases_iff isBlock sameT).1 (unbroken s'
    ((surveys.mem_bases_iff isBlock sameS).2 isS) u' ((surveys.mem_bases_iff isBlock sameU).2 isU)
    t' isT' fromS toU)

end Arrangements

/-! ## Operators that read a block -/

/-- The operators are those of the block's group, in any order. -/
structure ReadBy (analysis : ReadAnalysis) (plan : Plan) (block : ReadBlock)
    (ops : List Operator) : Prop where
  isBlock : block ∈ analysis.sortedReads
  members : ∀ op ∈ ops, op ∈ plan.flatten
  reads : Reads analysis analysis.hammingOrder ops block.slot
  bases : ∀ s, s ∈ (inputsAt block.slot ops).map Signal.root ↔ s ∈ block.bases

theorem Surveys.readBy (surveys : analysis.Surveys plan) {block : ReadBlock}
    (isBlock : block ∈ analysis.sortedReads) {group ops : List Operator}
    (isGroup : plan[block.group]? = some group) (perm : group.Perm ops) :
    ReadBy analysis plan block ops where
  isBlock := isBlock
  members op isOp := List.mem_flatten.2
    ⟨group, List.mem_of_getElem? isGroup, perm.mem_iff.2 isOp⟩
  reads op isOp := by
    obtain ⟨group', isGroup', reads⟩ := surveys.describes.readable surveys.suits block isBlock
    cases isGroup.symm.trans isGroup'
    exact reads op (perm.mem_iff.2 isOp)
  bases s := by
    obtain ⟨group', blockOf⟩ := surveys.blockOf isBlock
    cases isGroup.symm.trans blockOf.isGroup
    rw [blockOf.bases, List.mem_map]
    constructor
    · rintro ⟨t, isInput, root⟩
      obtain ⟨op, isOp, isInput⟩ := mem_inputsAt.1 isInput
      exact ⟨op, perm.mem_iff.2 isOp, t, isInput, root⟩
    · rintro ⟨op, isOp, t, isInput, root⟩
      exact ⟨t, mem_inputsAt.2 ⟨op, perm.mem_iff.1 isOp, isInput⟩, root⟩

namespace ReadBy

variable {block : ReadBlock} {ops : List Operator} {a a' : Arrangement}
  (readBy : ReadBy analysis plan block ops)

include readBy

theorem isRanked_iff {s : Signal} :
    isRanked (Assoc.lastPositions ((inputsAt block.slot ops).map Signal.root)) s = true ↔
      s ∈ block.bases := by
  rw [Arrangement.isRanked_iff, Assoc.mem_keys_lastPositions, readBy.bases]

section Move

variable (surveys : analysis.Surveys plan)
  (arranges : a.Arranges analysis.membership analysis.hammingOrder)

include surveys

theorem roots {s : Signal} (isInput : s ∈ inputsAt block.slot ops) :
    s.root ∈ analysis.hammingOrder :=
  surveys.mem_hammingOrder readBy.isBlock ((readBy.bases _).1 (List.mem_map_of_mem isInput))

theorem closed :
    Refine.Closed (Assoc.lastPositions ((inputsAt block.slot ops).map Signal.root))
      analysis.membership := by
  intro s t same
  rw [readBy.isRanked_iff, readBy.isRanked_iff]
  exact (surveys.mem_bases_iff readBy.isBlock same).1

include arranges

/-- A move puts the bases of the block into the order in which sorted operators read them. -/
theorem idxOf_lt_iff {order : List Signal} (perm : order.Perm analysis.hammingOrder)
    (sorted : (inputsAt block.slot ops).Pairwise fun s t => order.idxOf s.root ≤ order.idxOf t.root)
    (moves : Moves (Assoc.lastPositions ((inputsAt block.slot ops).map Signal.root))
      a.order a'.order)
    {s t : Signal} (isS : s ∈ block.bases) (isT : t ∈ block.bases) (differ : s ≠ t) :
    a'.order.idxOf s < a'.order.idxOf t ↔ order.idxOf s < order.idxOf t := by
  have inOrder := perm.mem_iff.2 (surveys.mem_hammingOrder readBy.isBlock isS)
  rw [moves.idxOf_lt_iff (arranges.perm.nodup_iff.2 surveys.distinct) (readBy.isRanked_iff.2 isS)
    (readBy.isRanked_iff.2 isT)]
  exact rankOf_lt_iff (List.pairwise_map.2 sorted) ((readBy.bases s).2 isS) ((readBy.bases t).2 isT)
    (mt (Distinct.idxOf_inj inOrder) differ)

variable (success : Arrangement.sortBlock analysis ops a block.slot = .ok a')

include success

theorem moves :
    a' = a ∨ Moves (Assoc.lastPositions ((inputsAt block.slot ops).map Signal.root))
      a.order a'.order :=
  arranges.moves_of_sortBlock surveys.distinct
    (mapM_readAt surveys.describes readBy.members readBy.reads) (fun _ => readBy.roots surveys) rfl
    (readBy.closed surveys) success

/-- A block whose bases follow each other is always moved, if its operators have been sorted by an
arrangement. -/
theorem moves_of_unbroken {sorter : Arrangement}
    (arranges' : sorter.Arranges analysis.membership analysis.hammingOrder)
    (sorted : (inputsAt block.slot ops).Pairwise fun s t =>
      sorter.order.idxOf s.root ≤ sorter.order.idxOf t.root)
    (unbroken : Unbroken a.order block.bases) {s t : Signal} (isS : s ∈ block.bases)
    (isT : t ∈ block.bases) (differ : s ≠ t) :
    Moves (Assoc.lastPositions ((inputsAt block.slot ops).map Signal.root)) a.order a'.order := by
  have unbroken' : Unbroken a.order ((inputsAt block.slot ops).map Signal.root) := by
    intro u isU v isV w isW
    rw [readBy.bases] at isU isV ⊢
    exact unbroken u isU v isV w isW
  refine arranges.moves_of_unbroken surveys.distinct
    (mapM_readAt surveys.describes readBy.members readBy.reads) (fun _ => readBy.roots surveys) rfl
    (readBy.closed surveys) success ?several unbroken' ?rises
  case several =>
    intro single
    obtain ⟨entry, single⟩ := List.length_eq_one_iff.1 single
    have isKey {u : Signal} (isU : u ∈ block.bases) : u = entry.1 := by
      have ranked := Arrangement.isRanked_iff.1 (readBy.isRanked_iff.2 isU)
      rw [single] at ranked
      exact List.mem_singleton.1 ranked
    exact differ ((isKey isS).trans (isKey isT).symm)
  case rises =>
    intro u isU v isV apart less
    have inside {w : Signal} (isW : w ∈ (inputsAt block.slot ops).map Signal.root) :=
      surveys.mem_hammingOrder readBy.isBlock ((readBy.bases w).1 isW)
    rw [surveys.idxOf_lt_iff arranges' arranges (inside isU) (inside isV) apart] at less
    exact Nat.le_of_lt ((rankOf_lt_iff (List.pairwise_map.2 sorted) isU isV (Nat.ne_of_lt less)).2
      less)

/-- Moving a block leaves all other bases in their positions. -/
theorem idxOf_eq {s : Signal} (apart : s ∉ block.bases) : a'.order.idxOf s = a.order.idxOf s := by
  rcases readBy.moves surveys arranges success with rfl | moves
  · rfl
  · exact moves.idxOf_eq (Bool.eq_false_iff.2 (mt readBy.isRanked_iff.1 apart))

end Move

end ReadBy

/-! ## Visits -/

section Visit

variable {block : ReadBlock} {a : Arrangement} {groups : List (List Operator)}

theorem mem_slotsOf {group slot : Nat} :
    slot ∈ analysis.slotsOf group ↔
      ∃ block ∈ analysis.sortedReads, block.group = group ∧ block.slot = slot := by
  simp [slotsOf, and_assoc]

/-- A single operator stays where it is, and so do the bases that it reads. -/
theorem sortBlock_singleton {op : Operator} {slot : Nat} {s : Signal}
    (isRead : readAt analysis.reads op slot = .ok s) (a : Arrangement) :
    Arrangement.sortBlock analysis [op] a slot = .ok a := by
  rw [Arrangement.sortBlock, List.mapM_cons, isRead, List.mapM_nil]
  rfl

theorem visit_of_single {op : Operator} (isHeld : groups[block.group]? = some [op]) :
    visit analysis (a, groups) block = .ok (a, groups) := by
  unfold visit
  dsimp only
  rw [isHeld]
  rfl

theorem visit_of_several {ops : List Operator} (isHeld : groups[block.group]? = some ops)
    (several : ∀ op, ops ≠ [op]) :
    visit analysis (a, groups) block = do
      let ops ← sortOperators analysis a.positions block.slot ops
      let a ← (analysis.slotsOf block.group).foldlM (Arrangement.sortBlock analysis ops) a
      return (a, groups.set block.group ops) := by
  unfold visit
  dsimp only
  split
  case h_1 missing =>
    rw [isHeld] at missing
    cases missing
  case h_2 op found =>
    rw [isHeld] at found
    exact absurd (Option.some.inj found) (several op)
  case h_3 ops' _ found =>
    rw [isHeld] at found
    cases found
    rfl

/-- A visit sorts the operators of the group by the block and moves all blocks of the group, also
where the group has a single operator. -/
theorem Surveys.visit_eq (surveys : analysis.Surveys plan)
    (keeps : Refine.Keeps analysis plan analysis.hammingOrder (a, groups))
    (isBlock : block ∈ analysis.sortedReads) :
    ∃ group ops a', plan[block.group]? = some group ∧ groups[block.group]? = some ops ∧
      group.Perm ops ∧
      (analysis.slotsOf block.group).foldlM
        (Arrangement.sortBlock analysis (sortedBy a.order block.slot ops)) a = .ok a' ∧
      visit analysis (a, groups) block =
        .ok (a', groups.set block.group (sortedBy a.order block.slot ops)) := by
  obtain ⟨group, blockOf⟩ := surveys.blockOf isBlock
  have isGroup := blockOf.isGroup
  obtain ⟨ops, isHeld, perm⟩ := keeps.groups.exists_group isGroup
  by_cases single : ∃ op, ops = [op]
  case pos =>
    obtain ⟨op, rfl⟩ := single
    have step : ∀ b, b = a → ∀ slot ∈ analysis.slotsOf block.group,
        ∃ b', Arrangement.sortBlock analysis [op] b slot = .ok b' ∧ b' = a := by
      rintro b rfl slot isSlot
      obtain ⟨other, isOther, sameGroup, rfl⟩ := mem_slotsOf.1 isSlot
      obtain ⟨s, isRead, -⟩ :=
        (surveys.readBy isOther (sameGroup ▸ isGroup) perm).reads op List.mem_cons_self
      exact ⟨b, sortBlock_singleton isRead b, rfl⟩
    obtain ⟨a', moved, rfl⟩ := Except.foldlM_eq_ok (· = a) rfl step
    refine ⟨group, [op], a', isGroup, isHeld, perm, by rwa [sortedBy_singleton], ?_⟩
    obtain ⟨inside, isOp⟩ := List.getElem?_eq_some_iff.1 isHeld
    rw [visit_of_single isHeld, sortedBy_singleton, ← isOp, List.set_getElem_self]
  case neg =>
    have several : ∀ op, ops ≠ [op] := fun op same => single ⟨op, same⟩
    have readBy := surveys.readBy isBlock isGroup perm
    have steps : visit analysis (a, groups) block = do
        let a' ← (analysis.slotsOf block.group).foldlM
          (Arrangement.sortBlock analysis (sortedBy a.order block.slot ops)) a
        return (a', groups.set block.group (sortedBy a.order block.slot ops)) := by
      rw [visit_of_several isHeld several, sortOperators_eq surveys.describes readBy.members
        readBy.reads surveys.distinct keeps.arranges, Except.ok_bind]
    obtain ⟨next, visited, -⟩ := exists_visit surveys.distinct
      (surveys.describes.readable surveys.suits) keeps isBlock
    rw [steps] at visited
    obtain ⟨a', moved, -⟩ := Except.bind_eq_ok_iff.1 visited
    refine ⟨group, ops, a', isGroup, isHeld, perm, moved, ?_⟩
    rw [steps, moved]
    rfl

/-- What every visit keeps, for a visit that is known to succeed. -/
theorem Surveys.keeps_visit (surveys : analysis.Surveys plan)
    {state next : Arrangement × List (List Operator)}
    (keeps : Refine.Keeps analysis plan analysis.hammingOrder state)
    (isBlock : block ∈ analysis.sortedReads) (success : visit analysis state block = .ok next) :
    Refine.Keeps analysis plan analysis.hammingOrder next := by
  obtain ⟨next', visited, kept⟩ := exists_visit surveys.distinct
    (surveys.describes.readable surveys.suits) keeps isBlock
  cases success.symm.trans visited
  exact kept

theorem Surveys.arranges_sortBlock (surveys : analysis.Surveys plan) {ops : List Operator}
    {a' : Arrangement} (readBy : ReadBy analysis plan block ops)
    (arranges : a.Arranges analysis.membership analysis.hammingOrder)
    (success : Arrangement.sortBlock analysis ops a block.slot = .ok a') :
    a'.Arranges analysis.membership analysis.hammingOrder := by
  obtain ⟨next, moved, kept⟩ := arranges.sortBlock surveys.distinct readBy.reads
  cases success.symm.trans moved
  exact kept

/-- A visit keeps the order of two bases that it cannot exchange. -/
theorem Surveys.visit_keeps (surveys : analysis.Surveys plan)
    {state next : Arrangement × List (List Operator)}
    (keeps : Refine.Keeps analysis plan analysis.hammingOrder state)
    (isBlock : block ∈ analysis.sortedReads) (success : visit analysis state block = .ok next)
    {s t : Signal} (same : analysis.membership s = analysis.membership t) (differ : s ≠ t)
    (apart : ¬ analysis.Exchanges block s t) :
    next.1.order.idxOf s < next.1.order.idxOf t ↔
      state.1.order.idxOf s < state.1.order.idxOf t := by
  obtain ⟨a, groups⟩ := state
  obtain ⟨group, ops, a', isGroup, -, perm, moved, visited⟩ := surveys.visit_eq keeps isBlock
  cases success.symm.trans visited
  have perm' := perm.trans (sortedBy_perm a.order block.slot ops).symm
  refine (Except.invariant_of_foldlM_eq_ok
    (fun b : Arrangement => b.Arranges analysis.membership analysis.hammingOrder ∧
      (b.order.idxOf s < b.order.idxOf t ↔ a.order.idxOf s < a.order.idxOf t))
    ⟨keeps.arranges, .rfl⟩ ?_ moved).2
  rintro b ⟨arranges, kept⟩ slot isSlot b' success
  obtain ⟨other, isOther, sameGroup, rfl⟩ := mem_slotsOf.1 isSlot
  have readBy := surveys.readBy isOther (sameGroup ▸ isGroup) perm'
  refine ⟨surveys.arranges_sortBlock readBy arranges success, ?_⟩
  by_cases isS : s ∈ other.bases
  case pos =>
    have isT := (surveys.mem_bases_iff isOther same).1 isS
    have sameSlot : other.slot = block.slot := by
      by_contra apart'
      exact apart ⟨other, isOther, sameGroup, apart', isS, isT⟩
    have sorted : (inputsAt other.slot (sortedBy a.order block.slot ops)).Pairwise fun s t =>
        a.order.idxOf s.root ≤ a.order.idxOf t.root := by
      rw [sameSlot]
      exact pairwise_inputsAt_sortedBy a.order block.slot ops
    rcases readBy.moves surveys arranges success with rfl | moves
    · exact kept
    · exact readBy.idxOf_lt_iff surveys arranges keeps.arranges.perm sorted moves isS isT differ
  case neg =>
    have isT := mt (surveys.mem_bases_iff isOther same).2 isS
    rw [readBy.idxOf_eq surveys arranges success isS, readBy.idxOf_eq surveys arranges success isT]
    exact kept

/-! ## The last block of a group -/

/-- A visit that moves its own block last restores the order of its bases, if these follow each
other. -/
theorem Surveys.visit_restores (surveys : analysis.Surveys plan)
    {state next : Arrangement × List (List Operator)}
    (keeps : Refine.Keeps analysis plan analysis.hammingOrder state)
    (isBlock : block ∈ analysis.sortedReads) (success : visit analysis state block = .ok next)
    {front : List Nat} (isLast : analysis.slotsOf block.group = front ++ [block.slot])
    (unbroken : Unbroken state.1.order block.bases) {s t : Signal} (isS : s ∈ block.bases)
    (isT : t ∈ block.bases) (differ : s ≠ t) :
    next.1.order.idxOf s < next.1.order.idxOf t ↔
      state.1.order.idxOf s < state.1.order.idxOf t := by
  obtain ⟨a, groups⟩ := state
  obtain ⟨group, ops, a', isGroup, -, perm, moved, visited⟩ := surveys.visit_eq keeps isBlock
  cases success.symm.trans visited
  have perm' := perm.trans (sortedBy_perm a.order block.slot ops).symm
  rw [isLast, List.foldlM_append] at moved
  obtain ⟨b, others, moved⟩ := Except.bind_eq_ok_iff.1 moved
  have arranges : b.Arranges analysis.membership analysis.hammingOrder := by
    refine Except.invariant_of_foldlM_eq_ok
      (fun b : Arrangement => b.Arranges analysis.membership analysis.hammingOrder)
      keeps.arranges (fun c arranges slot isSlot c' success => ?_) others
    have isSlot' : slot ∈ analysis.slotsOf block.group := by simp [isLast, isSlot]
    obtain ⟨other, isOther, sameGroup, rfl⟩ := mem_slotsOf.1 isSlot'
    exact surveys.arranges_sortBlock (surveys.readBy isOther (sameGroup ▸ isGroup) perm') arranges
      success
  rw [List.foldlM_cons] at moved
  obtain ⟨c, moved, done⟩ := Except.bind_eq_ok_iff.1 moved
  cases done
  have readBy := surveys.readBy isBlock isGroup perm'
  have sorted := pairwise_inputsAt_sortedBy a.order block.slot ops
  have kept := surveys.unbroken keeps.arranges arranges isBlock unbroken
  have moves := readBy.moves_of_unbroken surveys arranges moved keeps.arranges sorted kept isS isT
    differ
  exact readBy.idxOf_lt_iff surveys arranges keeps.arranges.perm sorted moves isS isT differ

end Visit

end ReadAnalysis

end BatchGraph
