import Mathlib.Data.List.Induction
import BatchGraph.Proofs.Order.Basic
import BatchGraph.Proofs.Order.Hamming

/-!
Where ordering puts the bases of the heaviest block.

Counting keeps one block of every key (`Counts`), and a key determines its set of bases
(`mem_iff_of_keyOf_eq`).  So a base has an empty membership exactly if no read block has it
(`membership_eq_nil_iff`), and block `0` in its membership exactly if it is one of the heaviest
block's (`zero_mem_membership_iff`).  The chain sorts the bases by these classes
(`hammingOrder_sorted`), and since refinement keeps the memberships of the places, every order comes
in three parts: the bases in no block, those of the heaviest, and the others (`exists_parts`).
-/

namespace BatchGraph

namespace ReadAnalysis

/-! ## Keys -/

/-- The rank of a signal in keys. -/
def rankIn (signals : List Signal) (s : Signal) : Int :=
  ((signals.idxOf? s).map Int.ofNat).getD (-1)

theorem keyOf_perm (signals bases : List Signal) :
    (keyOf signals bases).Perm (bases.map (rankIn signals)) := List.mergeSort_perm _ _

/-- No other signal has the rank of a base of the plan. -/
theorem eq_of_rankIn_eq {signals : List Signal} {s t : Signal} (isS : s ∈ signals)
    (ranks : rankIn signals s = rankIn signals t) : s = t := by
  obtain ⟨i, isAt⟩ := Distinct.exists_idxOf?_of_mem isS
  rw [rankIn, rankIn, isAt, Option.map_some, Option.getD_some] at ranks
  cases isAt' : signals.idxOf? t with
  | none => simp [isAt'] at ranks
  | some j =>
    rw [isAt', Option.map_some, Option.getD_some] at ranks
    cases Int.ofNat.inj ranks
    obtain ⟨_, found, -⟩ := List.idxOf?_eq_some_iff.1 isAt
    obtain ⟨_, found', -⟩ := List.idxOf?_eq_some_iff.1 isAt'
    exact found.symm.trans found'

/-- A block has the bases of any block of bases of the plan with the same key. -/
theorem mem_iff_of_keyOf_eq {signals bases bases' : List Signal} (known : bases ⊆ signals)
    (same : keyOf signals bases = keyOf signals bases') (s : Signal) : s ∈ bases ↔ s ∈ bases' := by
  have perm : (bases.map (rankIn signals)).Perm (bases'.map (rankIn signals)) := by
    have sorted := keyOf_perm signals bases
    rw [same] at sorted
    exact sorted.symm.trans (keyOf_perm signals bases')
  constructor
  · intro member
    obtain ⟨t, member', ranks⟩ := List.mem_map.1 (perm.mem_iff.1 (List.mem_map_of_mem member))
    rwa [eq_of_rankIn_eq (known member) ranks.symm]
  · intro member
    obtain ⟨t, member', ranks⟩ := List.mem_map.1 (perm.mem_iff.2 (List.mem_map_of_mem member))
    rwa [← eq_of_rankIn_eq (known member') ranks]

/-! ## Unique blocks -/

/-- The known blocks are the counted ones, each key once or several times. -/
structure Counts (known : List UniqueBlock) (blocks : List ReadBlock) : Prop where
  counted : ∀ unique ∈ known, ∃ block ∈ blocks, block.key = unique.key ∧ block.bases = unique.bases
  complete : ∀ block ∈ blocks, ∃ unique ∈ known, unique.key = block.key

theorem mem_countBlock {block : ReadBlock} {known : List UniqueBlock} {u : UniqueBlock} :
    u ∈ countBlock block known →
      u.key = block.key ∧ u.bases = block.bases ∨
        ∃ v ∈ known, v.key = u.key ∧ v.bases = u.bases := by
  induction known with
  | nil =>
    intro member
    rw [List.mem_singleton.1 member]
    exact .inl ⟨rfl, rfl⟩
  | cons first rest ih =>
    intro member
    unfold countBlock at member
    split at member
    case isTrue =>
      rcases List.mem_cons.1 member with rfl | isLater
      · exact .inr ⟨first, List.mem_cons_self, rfl, rfl⟩
      · exact .inr ⟨u, List.mem_cons_of_mem _ isLater, rfl, rfl⟩
    case isFalse =>
      rcases List.mem_cons.1 member with rfl | isLater
      · exact .inr ⟨u, List.mem_cons_self, rfl, rfl⟩
      · refine (ih isLater).imp_right fun ⟨v, isKnown, same⟩ => ?_
        exact ⟨v, List.mem_cons_of_mem _ isKnown, same⟩

theorem exists_mem_countBlock (block : ReadBlock) (known : List UniqueBlock) {key : List Int}
    (isKey : key = block.key ∨ ∃ u ∈ known, u.key = key) :
    ∃ u ∈ countBlock block known, u.key = key := by
  induction known with
  | nil =>
    rcases isKey with rfl | ⟨u, member, -⟩
    · exact ⟨_, List.mem_cons_self, rfl⟩
    · cases member
  | cons first rest ih =>
    unfold countBlock
    split
    case isTrue same =>
      rcases isKey with rfl | ⟨u, member, rfl⟩
      · exact ⟨_, List.mem_cons_self, same⟩
      · rcases List.mem_cons.1 member with rfl | isLater
        · exact ⟨_, List.mem_cons_self, rfl⟩
        · exact ⟨u, List.mem_cons_of_mem _ isLater, rfl⟩
    case isFalse =>
      by_cases isFirst : first.key = key
      · exact ⟨first, List.mem_cons_self, isFirst⟩
      · obtain ⟨u, member, sameKey⟩ := ih <| isKey.imp_right fun ⟨u, member, sameKey⟩ => by
          rcases List.mem_cons.1 member with rfl | isLater
          · exact absurd sameKey isFirst
          · exact ⟨u, isLater, sameKey⟩
        exact ⟨u, List.mem_cons_of_mem _ member, sameKey⟩

theorem Counts.add {known : List UniqueBlock} {blocks : List ReadBlock}
    (counts : Counts known blocks) (block : ReadBlock) :
    Counts (countBlock block known) (blocks ++ [block]) where
  counted u member := by
    rcases mem_countBlock member with ⟨key, bases⟩ | ⟨v, isKnown, key, bases⟩
    · exact ⟨block, List.mem_append_right _ (List.mem_singleton_self _), key.symm, bases.symm⟩
    · obtain ⟨counted, isCounted, key', bases'⟩ := counts.counted v isKnown
      exact ⟨counted, List.mem_append_left _ isCounted, key'.trans key, bases'.trans bases⟩
  complete counted isCounted := by
    refine exists_mem_countBlock block known ?_
    rcases List.mem_append.1 isCounted with isBefore | isLast
    · exact .inr (counts.complete counted isBefore)
    · exact .inl (congrArg ReadBlock.key (List.mem_singleton.1 isLast))

theorem unique_counts (blocks : List ReadBlock) : Counts (unique blocks) blocks := by
  have counts : Counts (blocks.foldl (fun known block => countBlock block known) []) blocks := by
    induction blocks using List.reverseRecOn with
    | nil => exact ⟨fun _ member => (nomatch member), fun _ member => (nomatch member)⟩
    | append_singleton blocks block ih =>
      rw [List.foldl_concat]
      exact ih.add block
  have perm : (unique blocks).Perm _ := RunSort.stableSort_perm _ _ _
  exact ⟨fun u member => counts.counted u (perm.mem_iff.1 member), fun block isBlock =>
    (counts.complete block isBlock).imp fun u => And.imp_left perm.mem_iff.2⟩

/-! ## The blocks of a plan -/

/-- The block holds the bases that the operators of a group of the plan read at one slot. -/
structure BlockOf (plan : Plan) (block : ReadBlock) (group : List Operator) : Prop where
  isGroup : plan[block.group]? = some group
  slot : ∃ first ∈ group.head?, block.slot < first.inputReads.length
  key : block.key = keyOf plan.bases block.bases
  distinct : block.bases.Nodup
  bases : ∀ s, s ∈ block.bases ↔
    ∃ op ∈ group, ∃ t, op.inputReads[block.slot]? = some t ∧ t.root = s

/-- What an analysis has found. -/
structure Found (analysis : ReadAnalysis) (plan : Plan) : Prop where
  unique : analysis.uniqueBlocks = unique analysis.blocks
  memberships : analysis.memberships = membershipsOf analysis.uniqueBlocks
  blocks : ∀ block ∈ analysis.blocks, ∃ group, BlockOf plan block group
  complete : ∀ group ∈ plan, ∀ first ∈ group.head?, first.inputReads ≠ [] → analysis.blocks ≠ []

variable {plan : Plan} {analysis : ReadAnalysis}

/-- The bases that operators of a plan have read at a slot. -/
theorem mem_roots_iff {ops : List Operator} {slot : Nat} {read : List Signal}
    (inPlan : ∀ op ∈ ops, op ∈ plan.flatten)
    (areRead : ops.mapM (fun op => readAt (readsOf plan) op slot) = .ok read) {s : Signal} :
    s ∈ read.map Signal.root ↔ ∃ op ∈ ops, ∃ t, op.inputReads[slot]? = some t ∧ t.root = s := by
  rw [List.mem_map]
  constructor
  · rintro ⟨t, isRead, root⟩
    obtain ⟨op, isOp, result⟩ := Except.exists_of_mem_result areRead isRead
    exact ⟨op, isOp, t, (readAt_eq_ok (inPlan op isOp)).1 result, root⟩
  · rintro ⟨op, isOp, t, found, root⟩
    obtain ⟨t', isRead, result⟩ := Except.exists_result_of_mem areRead isOp
    rw [readAt_eq_ok (inPlan op isOp), found] at result
    cases result
    exact ⟨t, isRead, root⟩

theorem blockOf_of_mem {index : Nat} {group : List Operator} (isGroup : plan[index]? = some group)
    {blocks : List ReadBlock}
    (success : groupBlocks plan.bases (readsOf plan) index group = .ok blocks) {block : ReadBlock}
    (member : block ∈ blocks) : BlockOf plan block group := by
  obtain ⟨slot, inside, result⟩ := Except.exists_of_mem_result success member
  obtain ⟨read, areRead, result⟩ := Except.bind_eq_ok_iff.1 result
  cases result
  have inPlan : ∀ op ∈ group, op ∈ plan.flatten := fun op isOp =>
    List.mem_flatten.2 ⟨group, List.mem_of_getElem? isGroup, isOp⟩
  have slots := (mem_slots (List.mem_of_getElem? isGroup)).1 inside
  refine ⟨isGroup, slots, rfl, Distinct.nodup_eraseDups _, fun s => ?_⟩
  rw [List.mem_eraseDups, mem_roots_iff inPlan areRead]

theorem BlockOf.subset_bases {block : ReadBlock} {group : List Operator}
    (blockOf : BlockOf plan block group)
    (inputs : ∀ op ∈ plan.flatten, ∀ s ∈ op.inputReads, s ∈ op.allSignals) :
    block.bases ⊆ plan.bases := by
  intro s member
  obtain ⟨op, isOp, t, found, root⟩ := (blockOf.bases s).1 member
  have inPlan := List.mem_flatten.2 ⟨group, List.mem_of_getElem? blockOf.isGroup, isOp⟩
  exact Plan.mem_bases.2 ⟨op, inPlan, t, inputs op inPlan t (List.mem_of_getElem? found), root⟩

theorem BlockOf.bases_ne_nil {block : ReadBlock} {group : List Operator}
    (blockOf : BlockOf plan block group) : block.bases ≠ [] := by
  obtain ⟨first, isFirst, inside⟩ := blockOf.slot
  have isInput := List.getElem?_eq_getElem inside
  exact List.ne_nil_of_mem
    ((blockOf.bases _).2 ⟨first, List.mem_of_mem_head? isFirst, _, isInput, rfl⟩)

theorem found_of_ofPlan_eq_ok (success : ofPlan plan = .ok analysis) : analysis.Found plan := by
  obtain ⟨found, areFound, success⟩ := Except.bind_eq_ok_iff.1 success
  cases success
  refine ⟨rfl, rfl, fun block member => ?_, fun group isGroup first isFirst reads => ?_⟩
  · obtain ⟨blocks, areBlocks, member⟩ := List.mem_flatten.1 member
    obtain ⟨⟨group, index⟩, isGroup, result⟩ := Except.exists_of_mem_result areFound areBlocks
    exact ⟨group, blockOf_of_mem (List.mem_zipIdx_iff_getElem?.1 isGroup) result member⟩
  · obtain ⟨index, isAt⟩ := List.mem_iff_getElem?.1 isGroup
    have isEntry : (group, index) ∈ plan.zipIdx := List.mem_zipIdx_iff_getElem?.2 isAt
    obtain ⟨blocks, areBlocks, result⟩ := Except.exists_result_of_mem areFound isEntry
    have slot := (mem_slots isGroup).2 ⟨first, isFirst, List.length_pos_iff.2 reads⟩
    obtain ⟨block, member, -⟩ := Except.exists_result_of_mem result slot
    exact List.ne_nil_of_mem (List.mem_flatten.2 ⟨blocks, areBlocks, member⟩)

/-! ## Memberships -/

/-- The numbers of the blocks that contain a base. -/
def numbers (uniqueBlocks : List UniqueBlock) (s : Signal) : List Nat :=
  (List.range uniqueBlocks.length).filter fun i =>
    (uniqueBlocks[i]?.elim [] UniqueBlock.bases).contains s

theorem keys_membershipsOf (uniqueBlocks : List UniqueBlock) :
    (membershipsOf uniqueBlocks).map (·.1) =
      (uniqueBlocks.flatMap UniqueBlock.bases).eraseDups := by
  rw [membershipsOf, List.map_map]
  exact List.map_id _

namespace Found

/-- Some block is the heaviest if there are any. -/
theorem exists_heaviest (found : analysis.Found plan) (some_ : analysis.blocks ≠ []) :
    ∃ heaviest, analysis.uniqueBlocks.head? = some heaviest := by
  obtain ⟨block, isBlock⟩ := List.exists_mem_of_ne_nil _ some_
  obtain ⟨unique, member, -⟩ := (unique_counts _).complete block isBlock
  rw [← found.unique] at member
  exact Option.isSome_iff_exists.1 (List.isSome_head?.2 (List.ne_nil_of_mem member))

/-- Every unique block stands for one of the read blocks. -/
theorem exists_block (found : analysis.Found plan) {u : UniqueBlock}
    (member : u ∈ analysis.uniqueBlocks) :
    ∃ block ∈ analysis.blocks, block.key = u.key ∧ block.bases = u.bases := by
  rw [found.unique] at member
  exact (unique_counts _).counted u member

/-- The membership of a base numbers all unique blocks that contain it. -/
theorem membership_eq (found : analysis.Found plan) (s : Signal) :
    analysis.membership s = numbers analysis.uniqueBlocks s := by
  have keys := keys_membershipsOf analysis.uniqueBlocks
  have distinct : ((membershipsOf analysis.uniqueBlocks).map (·.1)).Nodup := by
    rw [keys]
    exact Distinct.nodup_eraseDups _
  rw [membership, found.memberships]
  by_cases member : s ∈ (analysis.uniqueBlocks.flatMap UniqueBlock.bases).eraseDups
  case pos =>
    rw [(Assoc.lookup_eq_some_iff_mem distinct).2 (List.mem_map.2 ⟨s, member, rfl⟩)]
    rfl
  case neg =>
    have missing : (membershipsOf analysis.uniqueBlocks).lookup s = none := by
      rw [← keys, Assoc.mem_keys_iff, ← Option.isSome_iff_exists] at member
      exact Option.not_isSome_iff_eq_none.1 member
    rw [missing, Option.getD_none]
    refine (List.filter_eq_nil_iff.2 fun i inside => ?_).symm
    rw [List.getElem?_eq_getElem (List.mem_range.1 inside), Option.elim_some,
      List.contains_iff_mem]
    exact fun inBlock => member (List.mem_eraseDups.2
      (List.mem_flatMap.2 ⟨_, List.getElem_mem _, inBlock⟩))

theorem mem_membership_iff (found : analysis.Found plan) {s : Signal} {i : Nat} :
    i ∈ analysis.membership s ↔ ∃ u, analysis.uniqueBlocks[i]? = some u ∧ s ∈ u.bases := by
  rw [found.membership_eq, numbers, List.mem_filter, List.mem_range, List.contains_iff_mem]
  constructor
  · rintro ⟨inside, member⟩
    rw [List.getElem?_eq_getElem inside] at member
    exact ⟨_, List.getElem?_eq_getElem inside, member⟩
  · rintro ⟨u, isAt, member⟩
    rw [isAt]
    exact ⟨(List.getElem?_eq_some_iff.1 isAt).1, member⟩

theorem zero_mem_membership_iff (found : analysis.Found plan) {heaviest : UniqueBlock}
    (isHeaviest : analysis.uniqueBlocks.head? = some heaviest) {s : Signal} :
    0 ∈ analysis.membership s ↔ s ∈ heaviest.bases := by
  rw [found.mem_membership_iff, ← List.head?_eq_getElem?, isHeaviest]
  exact ⟨fun ⟨u, same, member⟩ => Option.some.inj same ▸ member, fun member => ⟨_, rfl, member⟩⟩

/-- Every block of bases of the plan has a number, which is in the memberships of its bases only. -/
theorem exists_number (found : analysis.Found plan) {block : ReadBlock}
    (isBlock : block ∈ analysis.blocks) (known : block.bases ⊆ plan.bases) :
    ∃ i, ∀ s, i ∈ analysis.membership s ↔ s ∈ block.bases := by
  obtain ⟨u, isUnique, key⟩ := (unique_counts _).complete block isBlock
  rw [← found.unique] at isUnique
  obtain ⟨block', isBlock', key', bases⟩ := found.exists_block isUnique
  obtain ⟨group, blockOf⟩ := found.blocks block isBlock
  obtain ⟨group', blockOf'⟩ := found.blocks block' isBlock'
  have same : keyOf plan.bases block.bases = keyOf plan.bases block'.bases := by
    rw [← blockOf.key, ← blockOf'.key, key', key]
  obtain ⟨i, isAt⟩ := List.mem_iff_getElem?.1 isUnique
  refine ⟨i, fun s => ?_⟩
  rw [mem_iff_of_keyOf_eq known same, bases, found.mem_membership_iff]
  exact ⟨fun ⟨v, isAt', member⟩ => Option.some.inj (isAt'.symm.trans isAt) ▸ member,
    fun member => ⟨u, isAt, member⟩⟩

/-- A base has no membership exactly if no operator of the plan takes it as input. -/
theorem membership_eq_nil_iff (found : analysis.Found plan)
    (inputs : ∀ op ∈ plan.flatten, ∀ s ∈ op.inputReads, s ∈ op.allSignals) {s : Signal} :
    analysis.membership s = [] ↔ ∀ block ∈ analysis.blocks, s ∉ block.bases := by
  rw [List.eq_nil_iff_forall_not_mem]
  constructor
  · intro none block isBlock member
    obtain ⟨group, blockOf⟩ := found.blocks block isBlock
    obtain ⟨i, isNumber⟩ := found.exists_number isBlock (blockOf.subset_bases inputs)
    exact none i ((isNumber s).2 member)
  · intro apart i member
    obtain ⟨u, isAt, member⟩ := found.mem_membership_iff.1 member
    obtain ⟨block, isBlock, -, bases⟩ := found.exists_block (List.mem_of_getElem? isAt)
    exact apart block isBlock (bases ▸ member)

end Found

/-! ## Places in the chain -/

/-- The place of a base in the chain of memberships; a base in no block stands in front of it. -/
def chainPlace (analysis : ReadAnalysis) (s : Signal) : Int :=
  (analysis.places.lookup s).getD (-1)

theorem hammingOrder_eq (analysis : ReadAnalysis) :
    analysis.hammingOrder = analysis.signals.mergeSort fun a b =>
      decide (analysis.chainPlace a ≤ analysis.chainPlace b) := rfl

theorem pairwise_hammingOrder (analysis : ReadAnalysis) :
    analysis.hammingOrder.Pairwise fun a b => analysis.chainPlace a ≤ analysis.chainPlace b := by
  have sorted : analysis.hammingOrder.Pairwise fun a b =>
      decide (analysis.chainPlace a ≤ analysis.chainPlace b) = true := by
    rw [hammingOrder_eq]
    refine List.pairwise_mergeSort (fun a b c => ?_) (fun a b => ?_) _
    · simp only [decide_eq_true_eq]
      exact le_trans
    · simp only [Bool.or_eq_true, decide_eq_true_eq]
      exact le_total _ _
  exact sorted.imp of_decide_eq_true

theorem lookup_memberships (analysis : ReadAnalysis) (s : Signal) :
    analysis.memberships.lookup s = none ∧ analysis.membership s = [] ∨
      analysis.memberships.lookup s = some (analysis.membership s) := by
  unfold membership
  cases analysis.memberships.lookup s with
  | none => exact .inl ⟨rfl, rfl⟩
  | some set => exact .inr rfl

theorem chainPlace_cases (analysis : ReadAnalysis) (s : Signal) :
    analysis.chainPlace s = -1 ∧ analysis.membership s = [] ∨
      ∃ i : Nat, analysis.chainPlace s = i ∧ analysis.places.lookup s = some (i : Int) ∧
        analysis.memberships.lookup s = some (analysis.membership s) ∧
        (Hamming.chained analysis.memberships)[i]? = some (analysis.membership s) := by
  rcases lookup_memberships analysis s with ⟨missing, none_⟩ | listed
  · refine .inl ⟨?_, none_⟩
    rw [chainPlace, places, Hamming.lookup_sort, missing]
    rfl
  · obtain ⟨i, isPlace, isAt⟩ := Hamming.exists_place listed
    refine .inr ⟨i, ?_, isPlace, listed, isAt⟩
    rw [chainPlace, places, isPlace]
    rfl

/-- A base that is listed with its membership is in some block. -/
theorem Found.ne_nil_of_lookup (found : analysis.Found plan) {s : Signal} {set : List Nat}
    (listed : analysis.memberships.lookup s = some set) : set ≠ [] := by
  have key : s ∈ analysis.memberships.map (·.1) := Assoc.mem_keys_iff.2 ⟨set, listed⟩
  rw [found.memberships, keys_membershipsOf, List.mem_eraseDups, List.mem_flatMap] at key
  obtain ⟨u, isUnique, member⟩ := key
  obtain ⟨i, isAt⟩ := List.mem_iff_getElem?.1 isUnique
  have numbered := found.mem_membership_iff.2 ⟨u, isAt, member⟩
  rw [membership, listed, Option.getD_some] at numbered
  exact List.ne_nil_of_mem numbered

/-! ## The order by memberships -/

/-- What stands in front of a base of the chain of memberships: in front of one in no block only
such, and in front of one of the heaviest block only those and such. -/
def Leads (a b : List Nat) : Prop := (b = [] → a = []) ∧ (0 ∈ b → a = [] ∨ 0 ∈ a)

/-- The chain goes through the classes of the bases one after the other. -/
theorem Found.hammingOrder_sorted (found : analysis.Found plan) :
    analysis.hammingOrder.Pairwise fun a b =>
      Leads (analysis.membership a) (analysis.membership b) := by
  refine analysis.pairwise_hammingOrder.imp fun {a b} le => ?_
  rcases analysis.chainPlace_cases a with ⟨-, none_⟩ | ⟨i, place, isPlace, listed, -⟩
  case inl => exact ⟨fun _ => none_, fun _ => .inl none_⟩
  rcases analysis.chainPlace_cases b with ⟨place', -⟩ | ⟨j, place', isPlace', listed', -⟩
  case inl => omega
  rw [place, place'] at le
  refine ⟨fun none_ => absurd none_ (found.ne_nil_of_lookup listed'), fun leads => .inr ?_⟩
  exact Hamming.sort_leads listed listed' isPlace isPlace' le leads

/-! ## Parts of an order -/

/-- A list in which no element without a property comes before one with it. -/
theorem eq_filter_append_filter {α : Type} {p : α → Bool} {xs : List α}
    (leads : xs.Pairwise fun a b => p b = true → p a = true) :
    xs = xs.filter p ++ xs.filter (!p ·) := by
  induction xs with
  | nil => rfl
  | cons x xs ih =>
    rw [List.pairwise_cons] at leads
    cases holds : p x with
    | true =>
      rw [List.filter_cons_of_pos holds, List.filter_cons_of_neg (by simp [holds]),
        List.cons_append, ← ih leads.2]
    | false =>
      have none : xs.filter p = [] := List.filter_eq_nil_iff.2 fun y member isP => by
        rw [leads.1 y member isP] at holds
        cases holds
      rw [List.filter_cons_of_neg (by simp [holds]), List.filter_cons_of_pos (by simp [holds]), none,
        List.nil_append]
      rw [none, List.nil_append] at ih
      rw [← ih leads.2]

/-- An order that has the memberships of the chain consists of the bases in no block, those of the
heaviest block and the others. -/
theorem Found.exists_parts (found : analysis.Found plan) {order : List Signal}
    (places : order.map analysis.membership = analysis.hammingOrder.map analysis.membership) :
    ∃ rest, order = order.filter (fun s => analysis.membership s = []) ++
      order.filter (fun s => 0 ∈ analysis.membership s) ++ rest := by
  have sorted : order.Pairwise fun a b =>
      Leads (analysis.membership a) (analysis.membership b) := by
    rw [← List.pairwise_map (f := analysis.membership) (R := Leads), places, List.pairwise_map]
    exact found.hammingOrder_sorted
  have outside := eq_filter_append_filter (p := fun s => analysis.membership s = [])
    (sorted.imp fun leads => by simpa only [decide_eq_true_eq] using leads.1)
  have heaviest := eq_filter_append_filter (p := fun s => 0 ∈ analysis.membership s)
    ((sorted.filter fun s => !decide (analysis.membership s = [])).imp_of_mem
      fun {a b} isA _ leads isLater => by
        have inside : analysis.membership a ≠ [] := by simpa using (List.mem_filter.1 isA).2
        rw [decide_eq_true_eq] at *
        exact (leads.2 isLater).resolve_left inside)
  have numbered : (order.filter fun s => !decide (analysis.membership s = [])).filter
      (fun s => 0 ∈ analysis.membership s) = order.filter (fun s => 0 ∈ analysis.membership s) := by
    rw [List.filter_filter]
    refine List.filter_congr fun s _ => ?_
    by_cases leads : 0 ∈ analysis.membership s
    · simp [leads, List.ne_nil_of_mem leads]
    · simp [leads]
  rw [numbered] at heaviest
  rw [heaviest, ← List.append_assoc] at outside
  exact ⟨_, outside⟩

end ReadAnalysis

end BatchGraph
