import BatchGraph.Order.ReadBlock
import BatchGraph.Proofs.Disguise.Plan
import BatchGraph.Proofs.RunSort

/-!
The reads of a disguised plan.

Read blocks are told apart by the ranks of their bases, and their weights count elements.  So the
analysis of a disguised plan is the disguised analysis (`ofPlan_carries`).
-/

namespace BatchGraph

namespace Disguise

variable (d : Disguise)

/-! ## Read blocks -/

/-- What operators read, in disguise. -/
abbrev reads (reads : List (Operator × List Signal)) : List (Operator × List Signal) :=
  reads.map (Prod.map d.operator (List.map d.signal))

def block (b : ReadBlock) : ReadBlock := { b with bases := b.bases.map d.signal }

def uniqueBlock (b : UniqueBlock) : UniqueBlock := { b with bases := b.bases.map d.signal }

def analysis (a : ReadAnalysis) : ReadAnalysis where
  signals := a.signals.map d.signal
  reads := d.reads a.reads
  blocks := a.blocks.map d.block
  uniqueBlocks := a.uniqueBlocks.map d.uniqueBlock
  memberships := a.memberships.map (Prod.map d.signal id)
  sortedReads := a.sortedReads.map d.block

theorem bases_plan (plan : Plan) : (d.plan plan).bases = plan.bases.map d.signal := by
  have signals : (d.plan plan).flatten.flatMap (fun op => op.allSignals.map Signal.root) =
      (plan.flatten.flatMap fun op => op.allSignals.map Signal.root).map d.signal := by
    simp [← List.map_flatten, List.flatMap_map, List.map_flatMap, Function.comp_def]
  rw [Plan.bases, signals, Distinct.eraseDups_map d.signal_injective, Plan.bases]

theorem readAt_carries (reads : List (Operator × List Signal)) (op : Operator) (slot : Nat) :
    Except.Carries d.signal (ReadAnalysis.readAt reads op slot)
      (ReadAnalysis.readAt (d.reads reads) (d.operator op) slot) := by
  unfold ReadAnalysis.readAt
  rw [Assoc.lookup_map_of_injective d.operator_injective]
  cases reads.lookup op with
  | none => exact .error _ _
  | some signals =>
    simp only [Option.map_some, Option.bind_some, List.getElem?_map]
    cases signals[slot]? with
    | none => exact .error _ _
    | some s => exact .ok s

theorem keyOf_map (signals bases : List Signal) :
    ReadAnalysis.keyOf (signals.map d.signal) (bases.map d.signal) =
      ReadAnalysis.keyOf signals bases := by
  simp [ReadAnalysis.keyOf, Function.comp_def, Distinct.idxOf?_map d.signal_injective]

theorem groupBlocks_carries (signals : List Signal) (reads : List (Operator × List Signal))
    (group : Nat) (ops : List Operator) :
    Except.Carries (List.map d.block) (ReadAnalysis.groupBlocks signals reads group ops)
      (ReadAnalysis.groupBlocks (signals.map d.signal) (d.reads reads) group
        (ops.map d.operator)) := by
  have slots : (((ops.map d.operator).head?.bind fun op => (d.reads reads).lookup op).elim 0
      List.length) = (ops.head?.bind fun op => reads.lookup op).elim 0 List.length := by
    cases ops with
    | nil => rfl
    | cons op ops =>
      have found := Assoc.lookup_map_of_injective d.operator_injective (List.map d.signal) reads op
      simp only [List.map_cons, List.head?_cons, Option.bind_some, Disguise.reads, found]
      cases reads.lookup op <;> simp
  unfold ReadAnalysis.groupBlocks
  rw [slots]
  refine .mapM_same fun slot _ => ?_
  refine (Except.Carries.mapM fun op _ => d.readAt_carries reads op slot).bind fun read _ => ?_
  have bases : ((read.map d.signal).map Signal.root).eraseDups =
      (read.map Signal.root).eraseDups.map d.signal := by
    rw [← Distinct.eraseDups_map d.signal_injective, List.map_map, List.map_map]
    rfl
  dsimp only
  rw [bases, d.keyOf_map]
  exact .ok _

/-! ## Unique blocks -/

@[simp] theorem weight_uniqueBlock (block : UniqueBlock) :
    (d.uniqueBlock block).weight = block.weight := by
  simp [UniqueBlock.weight, uniqueBlock, List.foldl_map]

theorem countBlock_map (read : ReadBlock) (known : List UniqueBlock) :
    ReadAnalysis.countBlock (d.block read) (known.map d.uniqueBlock) =
      (ReadAnalysis.countBlock read known).map d.uniqueBlock := by
  induction known with
  | nil => rfl
  | cons first known ih =>
    rw [List.map_cons, ReadAnalysis.countBlock, ReadAnalysis.countBlock, ih]
    by_cases same : first.key = read.key <;> simp [uniqueBlock, block, same]

theorem unique_map (blocks : List ReadBlock) :
    ReadAnalysis.unique (blocks.map d.block) = (ReadAnalysis.unique blocks).map d.uniqueBlock := by
  have counted (known : List UniqueBlock) :
      (blocks.map d.block).foldl (fun known block => ReadAnalysis.countBlock block known)
        (known.map d.uniqueBlock) =
          (blocks.foldl (fun known block => ReadAnalysis.countBlock block known) known).map
            d.uniqueBlock := by
    induction blocks generalizing known with
    | nil => rfl
    | cons block blocks ih =>
      rw [List.map_cons, List.foldl_cons, List.foldl_cons, d.countBlock_map, ih]
  have all := counted []
  rw [List.map_nil] at all
  unfold ReadAnalysis.unique
  rw [all]
  exact RunSort.stableSort_map (fun a b => by simp) (fun block => by simp) _

theorem membershipsOf_map (blocks : List UniqueBlock) :
    ReadAnalysis.membershipsOf (blocks.map d.uniqueBlock) =
      (ReadAnalysis.membershipsOf blocks).map (Prod.map d.signal id) := by
  have bases : ((blocks.map d.uniqueBlock).flatMap UniqueBlock.bases).eraseDups =
      (blocks.flatMap UniqueBlock.bases).eraseDups.map d.signal := by
    rw [← Distinct.eraseDups_map d.signal_injective, List.flatMap_map, List.map_flatMap]
    rfl
  unfold ReadAnalysis.membershipsOf
  rw [bases, List.map_map, List.map_map, List.length_map]
  refine List.map_congr_left fun s _ => ?_
  refine Prod.ext rfl (List.filter_congr fun i _ => ?_)
  rw [List.getElem?_map]
  cases blocks[i]? with
  | none => rfl
  | some block => exact Distinct.contains_map d.signal_injective block.bases s

theorem sortReads_map (uniqueBlocks : List UniqueBlock) (blocks : List ReadBlock) :
    ReadAnalysis.sortReads (uniqueBlocks.map d.uniqueBlock) (blocks.map d.block) =
      (ReadAnalysis.sortReads uniqueBlocks blocks).map d.block := by
  have rank (block : ReadBlock) :
      (uniqueBlocks.map d.uniqueBlock).findIdx (·.key = (d.block block).key) =
        uniqueBlocks.findIdx (·.key = block.key) := List.findIdx_map ..
  refine (List.map_mergeSort fun a _ b _ => ?_).symm
  simp only [rank]

/-! ## The analysis of a plan -/

theorem ofPlan_carries (plan : Plan) :
    Except.Carries d.analysis (ReadAnalysis.ofPlan plan) (ReadAnalysis.ofPlan (d.plan plan)) := by
  have readsOf : ((d.plan plan).flatten.eraseDups.map fun op => (op, op.inputReads)) =
      d.reads (plan.flatten.eraseDups.map fun op => (op, op.inputReads)) := by
    rw [Disguise.plan, ← List.map_flatten, Distinct.eraseDups_map d.operator_injective,
      List.map_map, Disguise.reads, List.map_map]
    exact List.map_congr_left fun op _ => by simp
  unfold ReadAnalysis.ofPlan
  dsimp only
  rw [d.bases_plan, readsOf, Disguise.plan, List.zipIdx_map]
  refine (Except.Carries.mapM fun entry _ => d.groupBlocks_carries _ _ entry.2 entry.1).bind
    fun blocks _ => ?_
  rw [← List.map_flatten, d.unique_map, d.membershipsOf_map, d.sortReads_map]
  exact .ok _

end Disguise

end BatchGraph
