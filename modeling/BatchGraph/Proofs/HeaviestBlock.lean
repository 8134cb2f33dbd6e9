import BatchGraph.Proofs.Arrays
import BatchGraph.Proofs.Operator
import BatchGraph.Proofs.Order.Membership

/-!
The heaviest read block is one run of memory.

Ordering puts the bases of the heaviest block directly behind those that no operator reads
(`Found.exists_parts`).  The operators of a group have the input of a slot at the same place among
their signals (`allSignals_inputPlace`), so no break of the layout separates the bases of a block,
and if they are mergeable, the bases are in one array (`BlockOf.key_eq`).  Bases that follow each
other in the order and share an array are one range of its rows (`Packs.oneRun`).
-/

namespace BatchGraph

/-! ## Inputs among the signals -/

namespace Operator

/-- The place among all signals of the input at a slot: what is updated stands directly behind the
reads, but the states of neurons stand behind their output. -/
def inputPlace (op : Operator) (slot : Nat) : Nat :=
  if op.action.builder = .neurons ∧ op.reads.length ≤ slot then 1 + (slot - op.reads.length)
  else op.sets.length + op.incs.length + slot

variable {op a b : Operator} {slot : Nat}

theorem Built.allSignals_inputPlace (built : op.Built) {s : Signal}
    (isInput : op.inputReads[slot]? = some s) : op.allSignals[op.inputPlace slot]? = some s := by
  rw [inputReads_eq] at isInput
  rcases Nat.lt_or_ge slot op.reads.length with isRead | behind
  · rw [List.getElem?_append_left isRead] at isInput
    rw [inputPlace, if_neg fun fedBack => absurd fedBack.2 (Nat.not_le.2 isRead), allSignals,
      List.getElem?_append_left (by simp only [List.length_append]; omega),
      List.getElem?_append_right (by simp only [List.length_append]; omega), List.length_append,
      Nat.add_sub_cancel_left]
    exact isInput
  · rw [List.getElem?_append_right behind, fedBack] at isInput
    split at isInput
    case h_1 neuronType states action =>
      obtain ⟨output, sets⟩ := built.exists_output action
      have inside := (List.getElem?_eq_some_iff.1 isInput).1
      rw [inputPlace, if_pos ⟨by rw [action]; rfl, behind⟩, allSignals, sets, Nat.add_comm,
        List.append_assoc, List.append_assoc, List.cons_append, List.getElem?_cons_succ,
        List.getElem?_append_left inside]
      exact isInput
    case h_2 type mode action =>
      split at isInput
      case isTrue =>
        have notNeurons : op.action.builder ≠ .neurons := by rw [action]; simp [Action.builder]
        rw [inputPlace, if_neg fun fedBack => notNeurons fedBack.1, allSignals,
          List.getElem?_append_right (by simp only [List.length_append]; omega)]
        have place : op.sets.length + op.incs.length + slot -
            (op.sets ++ op.incs ++ op.reads).length = slot - op.reads.length := by
          simp only [List.length_append]
          omega
        rw [place]
        exact isInput
      case isFalse => cases isInput
    case h_3 => cases isInput

theorem inputPlace_eq (merges : mergeablePair a b = true) :
    a.inputPlace slot = b.inputPlace slot := by
  obtain ⟨builder, lengths, -⟩ := (mergeablePair_iff.1 merges).1
  have sets := lengths .sets
  have incs := lengths .incs
  have reads := lengths .reads
  simp only [signals] at sets incs reads
  rw [inputPlace, inputPlace, builder, sets, incs, reads]

/-- Only operators other than resets have inputs. -/
theorem Built.not_reset (built : op.Built) (some_ : op.inputReads ≠ []) :
    op.action.builder ≠ .reset := by
  intro isReset
  cases built with
  | reset id dst value label => exact some_ rfl
  | copy id src dst inc label => cases inc <;> cases isReset
  | process id type mode input? output time? state label => cases mode <;> cases isReset
  | _ => cases isReset

end Operator

/-! ## Rows of one array -/

namespace MemoryLayout

variable {layout : MemoryLayout} {signals : List Signal} {plan : Plan} {precision : Precision}

/-- The bases are rows of one array, whose rows follow each other without a gap. -/
def OneRun (layout : MemoryLayout) (bases : List Signal) : Prop :=
  ∃ a ∈ layout.arrays, ∃ rows start count, a.shape.head? = some (Number.ofNat rows) ∧
    start + count ≤ rows ∧
    (∀ s ∈ bases, ∃ entry, layout.rows.lookup s = some entry ∧ entry.key = a.key) ∧
    layout.indicesIn bases a.key = (List.range' start count).map fun k => some (Number.count k)

theorem indicesIn_append (layout : MemoryLayout) (bases bases' : List Signal) (key : Number) :
    layout.indicesIn (bases ++ bases') key =
      layout.indicesIn bases key ++ layout.indicesIn bases' key := List.flatMap_append

/-- Bases that follow each other in the order and have one key are one run. -/
theorem Packs.oneRun {breaks : List Nat} {before run after : List Signal}
    (packs : layout.Packs (before ++ run ++ after) precision breaks) (some_ : run ≠ [])
    (shares : ∀ s ∈ run, ∀ t ∈ run, ∀ rows rows', layout.rows.lookup s = some rows →
      layout.rows.lookup t = some rows' → rows.key = rows'.key) : layout.OneRun run := by
  have entered {s : Signal} (member : s ∈ run) : ∃ rows, layout.rows.lookup s = some rows :=
    packs.entered s (List.mem_append_left _ (List.mem_append_right _ member))
  obtain ⟨s, member⟩ := List.exists_mem_of_ne_nil run some_
  obtain ⟨rows, found⟩ := entered member
  obtain ⟨a, isArray, isKey⟩ := packs.located _ (Assoc.mem_of_lookup found)
  obtain ⟨count, isCount, covers, -⟩ := packs.covered a isArray
  rw [indicesIn_append, indicesIn_append, eq_comm, List.map_eq_append_iff,
    List.range_eq_range'] at covers
  obtain ⟨front, _, split, isFront, -⟩ := covers
  obtain ⟨stop, inside, rfl, -⟩ := List.range'_eq_append_iff.1 split
  obtain ⟨_, middle, split', -, isRun⟩ := List.map_eq_append_iff.1 isFront
  obtain ⟨start, inside', -, rfl⟩ := List.range'_eq_append_iff.1 split'
  refine ⟨a, isArray, count, start, stop - start, isCount, by omega, fun t member' => ?_, ?_⟩
  · obtain ⟨rows', found'⟩ := entered member'
    exact ⟨rows', found', (shares t member' s member rows' rows found' found).trans isKey.symm⟩
  · rw [← isRun, Nat.zero_add, Nat.mul_one]

end MemoryLayout

/-! ## The heaviest block -/

section Heaviest

variable {plan plan' : Plan}

open Refine (SameGroups)

/-- The bases that a group reads at one slot have one key, in whatever order the group runs. -/
theorem ReadAnalysis.BlockOf.key_eq {block : ReadBlock} {group : List Operator}
    (blockOf : BlockOf plan block group) (built : ∀ op ∈ plan.flatten, op.Built)
    (merges : ∀ group ∈ plan, ∀ a ∈ group, ∀ b ∈ group, a ≠ b → mergeablePair a b = true)
    (same : SameGroups plan plan') {layout : MemoryLayout} {signals : List Signal}
    {precision : Precision} {breaks : List Nat} (packs : layout.Packs signals precision breaks)
    (distinct : signals.Nodup) (cut : Partition.breaks signals plan' = .ok breaks)
    {s t : Signal} (isS : s ∈ block.bases) (isT : t ∈ block.bases) {rows rows' : Rows}
    (found : layout.rows.lookup s = some rows) (found' : layout.rows.lookup t = some rows') :
    rows.key = rows'.key := by
  obtain ⟨a, isA, u, isU, rfl⟩ := (blockOf.bases s).1 isS
  obtain ⟨b, isB, v, isV, rfl⟩ := (blockOf.bases t).1 isT
  have isGroup := List.mem_of_getElem? blockOf.isGroup
  have builtIn {op : Operator} (isOp : op ∈ group) : op.Built :=
    built op (List.mem_flatten.2 ⟨group, isGroup, isOp⟩)
  have place : b.inputPlace block.slot = a.inputPlace block.slot := by
    by_cases equal : b = a
    · rw [equal]
    · exact Operator.inputPlace_eq (merges group isGroup b isB a isA equal)
  have atA := (builtIn isA).allSignals_inputPlace isU
  have atB := (builtIn isB).allSignals_inputPlace isV
  rw [place] at atB
  obtain ⟨group', isGroup', perm⟩ := same.exists_group blockOf.isGroup
  have merges' : ∀ c ∈ group', ∀ d ∈ group', c ≠ d → mergeablePair c d = true :=
    fun c isC d isD => merges group isGroup c (perm.mem_iff.2 isC) d (perm.mem_iff.2 isD)
  have isA' := perm.mem_iff.1 isA
  obtain ⟨first, isFirst⟩ := Option.isSome_iff_exists.1
    (List.isSome_head?.2 (List.ne_nil_of_mem isA'))
  have notReset : first.action.builder ≠ .reset := by
    have notReset := (builtIn isA).not_reset (List.ne_nil_of_mem (List.mem_of_getElem? isU))
    by_cases equal : first = a
    · rwa [equal]
    · have pair := merges' first (List.mem_of_mem_head? isFirst) a isA' equal
      rwa [(mergeablePair_iff.1 pair).1.builder]
  exact packs.key_eq_of_slot distinct cut (List.mem_of_getElem? isGroup') merges' isFirst notReset
    isA' (perm.mem_iff.1 isB) atA atB found found'

theorem Plan.alike_of_mergeable (built : ∀ op ∈ plan.flatten, op.Built)
    (merges : ∀ group ∈ plan, ∀ a ∈ group, ∀ b ∈ group, a ≠ b → mergeablePair a b = true) :
    plan.Alike where
  slots group isGroup a isA b isB := by
    have builtIn {op : Operator} (isOp : op ∈ group) : op.Built :=
      built op (List.mem_flatten.2 ⟨group, isGroup, isOp⟩)
    by_cases same : a = b
    · rw [same]
    · exact (builtIn isA).length_inputReads_eq (builtIn isB) (merges group isGroup a isA b isB same)
  inputs op member := (built op member).statesSet.inputs

open ReadAnalysis in
/-- The bases of the heaviest block follow those that are in no read block, and whenever a layout is
built from the order they are one run of rows. -/
theorem heaviest_block_unbroken (nonempty : ∀ group ∈ plan, group ≠ [])
    (built : ∀ op ∈ plan.flatten, op.Built)
    (merges : ∀ group ∈ plan, ∀ a ∈ group, ∀ b ∈ group, a ≠ b → mergeablePair a b = true)
    (reads : ∃ op ∈ plan.flatten, op.inputReads ≠ []) (limit : Nat) :
    ∃ analysis heaviest ordered outside run rest, ofPlan plan = .ok analysis ∧
      analysis.uniqueBlocks.head? = some heaviest ∧ orderSignals plan limit = .ok ordered ∧
      ordered.signals = outside ++ run ++ rest ∧
      (∀ s, s ∈ outside ↔ s ∈ plan.bases ∧ ∀ block ∈ analysis.blocks, s ∉ block.bases) ∧
      run.Perm heaviest.bases ∧
      ∀ precision size layout,
        MemoryLayout.buildFor ordered.signals ordered.plan precision size = .ok layout →
          layout.OneRun run := by
  have alike := Plan.alike_of_mergeable built merges
  obtain ⟨analysis, isAnalysis, describes⟩ := exists_ofPlan alike.served
  have found := found_of_ofPlan_eq_ok isAnalysis
  obtain ⟨ordered, isOrder, perm, places, same⟩ :=
    orderSignals_keeps isAnalysis describes alike.served alike.inputs limit
  obtain ⟨rest, parts⟩ := found.exists_parts places
  have some_ : analysis.blocks ≠ [] := by
    obtain ⟨op, isOp, inputs⟩ := reads
    obtain ⟨group, isGroup, member⟩ := List.mem_flatten.1 isOp
    obtain ⟨first, isFirst⟩ := Option.isSome_iff_exists.1
      (List.isSome_head?.2 (nonempty group isGroup))
    refine found.complete group isGroup first isFirst (List.ne_nil_of_length_pos ?_)
    rw [alike.slots group isGroup first (List.mem_of_mem_head? isFirst) op member]
    exact List.length_pos_iff.2 inputs
  obtain ⟨heaviest, isHeaviest⟩ := found.exists_heaviest some_
  obtain ⟨block, isBlock, -, bases⟩ := found.exists_block (List.mem_of_mem_head? isHeaviest)
  obtain ⟨group, blockOf⟩ := found.blocks block isBlock
  have distinct : ordered.signals.Nodup := perm.nodup_iff.2 (Distinct.nodup_eraseDups _)
  have isRun : ∀ s, s ∈ ordered.signals.filter (fun s => 0 ∈ analysis.membership s) ↔
      s ∈ heaviest.bases := by
    intro s
    rw [List.mem_filter, decide_eq_true_eq, found.zero_mem_membership_iff isHeaviest, ← bases]
    exact and_iff_right_of_imp fun member =>
      perm.mem_iff.2 (blockOf.subset_bases alike.inputs member)
  refine ⟨analysis, heaviest, ordered, _, _, rest, isAnalysis, isHeaviest, isOrder, parts,
    fun s => ?outside, ?run, fun precision size layout success => ?oneRun⟩
  case outside =>
    rw [List.mem_filter, decide_eq_true_eq, found.membership_eq_nil_iff alike.inputs, perm.mem_iff]
  case run =>
    exact (List.perm_ext_iff_of_nodup (distinct.filter _) (bases ▸ blockOf.distinct)).2 isRun
  case oneRun =>
    obtain ⟨minibatchSize, breaks, p, -, built'⟩ := MemoryLayout.of_buildFor_eq_ok success
    have packs := built'.packs
    rw [parts] at packs
    refine packs.oneRun ?_ fun s isS t isT rows rows' found_ found' => ?_
    · obtain ⟨s, member⟩ := List.exists_mem_of_ne_nil _ blockOf.bases_ne_nil
      exact List.ne_nil_of_mem ((isRun s).2 (bases ▸ member))
    · rw [isRun, ← bases] at isS isT
      exact blockOf.key_eq built merges same built'.packs distinct built'.cut isS isT found_ found'

/-- One group that reads two strips. -/
def takers : Plan := [[MemoryLayout.taker 0, MemoryLayout.taker 1]]

theorem heaviest_block_unbroken_takers :
    (∀ group ∈ takers, group ≠ []) ∧ (∀ op ∈ takers.flatten, op.Built) ∧
    (∀ group ∈ takers, ∀ a ∈ group, ∀ b ∈ group, a ≠ b → mergeablePair a b = true) ∧
    (∃ op ∈ takers.flatten, op.inputReads ≠ []) ∧
    ∃ analysis heaviest ordered outside run rest, ReadAnalysis.ofPlan takers = .ok analysis ∧
      analysis.uniqueBlocks.head? = some heaviest ∧ orderSignals takers 1 = .ok ordered ∧
      ordered.signals = outside ++ run ++ rest ∧ run.Perm heaviest.bases := by
  have nonempty : ∀ group ∈ takers, group ≠ [] := by decide
  have built : ∀ op ∈ takers.flatten, op.Built := by
    intro op member
    rcases List.mem_pair.1 member with rfl | rfl <;> exact .func ..
  have merges : ∀ group ∈ takers, ∀ a ∈ group, ∀ b ∈ group, a ≠ b →
      mergeablePair a b = true := by decide +kernel
  have reads : ∃ op ∈ takers.flatten, op.inputReads ≠ [] :=
    ⟨MemoryLayout.taker 0, List.mem_cons_self, List.cons_ne_nil _ _⟩
  obtain ⟨analysis, heaviest, ordered, outside, run, rest, isAnalysis, isHeaviest, isOrder, parts,
    -, perm, -⟩ := heaviest_block_unbroken nonempty built merges reads 1
  exact ⟨nonempty, built, merges, reads, analysis, heaviest, ordered, outside, run, rest, isAnalysis,
    isHeaviest, isOrder, parts, perm⟩

end Heaviest

end BatchGraph
