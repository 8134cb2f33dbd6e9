import BatchGraph.RunSort.Basic
import BatchGraph.Plan.Basic

/-!
Which bases a plan reads together.

A `ReadBlock` holds the bases that the operators of one group read at one input slot.  Blocks with
equal sets of bases have equal keys and are counted as one `UniqueBlock`, whose weight is the number
of elements read through it.  Unique blocks are numbered from the heaviest, and the membership of a
base is the list of the numbers of the blocks that contain it.
-/

namespace BatchGraph

structure ReadBlock where
  group : Nat
  slot : Nat
  /-- Distinct bases in the order of the operators that read them. -/
  bases : List Signal
  /-- The ranks of the bases in the plan, ascending. -/
  key : List Int
  deriving DecidableEq

structure UniqueBlock where
  key : List Int
  bases : List Signal
  duplicates : Nat
  deriving DecidableEq

/-- The number of elements in the block, once for each of its duplicates. -/
def UniqueBlock.weight (block : UniqueBlock) : Number :=
  block.bases.foldl (fun count s => count + s.base.size) 0 * Number.ofNat block.duplicates

structure ReadAnalysis where
  /-- The bases of the plan in the order of their first access. -/
  signals : List Signal
  /-- The inputs of each operator of the plan. -/
  reads : List (Operator × List Signal)
  blocks : List ReadBlock
  /-- The heaviest first. -/
  uniqueBlocks : List UniqueBlock
  /-- For every base in some block the ascending numbers of its unique blocks. -/
  memberships : List (Signal × List Nat)
  /-- The read blocks from the lightest to the heaviest. -/
  sortedReads : List ReadBlock

namespace ReadAnalysis

/-- The signal that an operator of the plan reads at a slot. -/
def readAt (reads : List (Operator × List Signal)) (op : Operator) (slot : Nat) :
    Except Error Signal :=
  match (reads.lookup op).bind (·[slot]?) with
  | some s => .ok s
  | none => .error (.inputMissing op.action.kind slot)

/-! ## Read blocks -/

/-- A base that is not accessed in any role has rank `-1`. -/
def keyOf (signals bases : List Signal) : List Int :=
  let ranks := bases.map fun s => ((signals.idxOf? s).map Int.ofNat).getD (-1)
  ranks.mergeSort fun a b => decide (a ≤ b)

/-- The read blocks of one group, which has the slots of its first operator. -/
def groupBlocks (signals : List Signal) (reads : List (Operator × List Signal)) (group : Nat)
    (ops : List Operator) : Except Error (List ReadBlock) :=
  let slots := (ops.head?.bind fun op => reads.lookup op).elim 0 List.length
  (List.range slots).mapM fun slot => do
    let read ← ops.mapM fun op => readAt reads op slot
    let bases := (read.map Signal.root).eraseDups
    return { group, slot, bases, key := keyOf signals bases }

/-! ## Unique blocks -/

/-- Counts a block with the one that has the same key. -/
def countBlock (block : ReadBlock) : List UniqueBlock → List UniqueBlock
  | [] => [⟨block.key, block.bases, 1⟩]
  | known :: rest =>
    if known.key = block.key then { known with duplicates := known.duplicates + 1 } :: rest
    else known :: countBlock block rest

/-- Of equally heavy blocks the one that is met first in the plan comes first. -/
def unique (blocks : List ReadBlock) : List UniqueBlock :=
  RunSort.stableSort (fun a b => b.weight.lt a.weight) (·.weight != .nan)
    (blocks.foldl (fun known block => countBlock block known) [])

def membershipsOf (uniqueBlocks : List UniqueBlock) : List (Signal × List Nat) :=
  (uniqueBlocks.flatMap UniqueBlock.bases).eraseDups.map fun s =>
    (s, (List.range uniqueBlocks.length).filter fun i =>
      (uniqueBlocks[i]?.elim [] UniqueBlock.bases).contains s)

/-- Of read blocks with the same number the one that is met first in the plan comes first. -/
def sortReads (uniqueBlocks : List UniqueBlock) (blocks : List ReadBlock) : List ReadBlock :=
  let rank := fun (block : ReadBlock) => uniqueBlocks.findIdx (·.key = block.key)
  blocks.mergeSort fun a b => decide (rank b ≤ rank a)

def ofPlan (plan : Plan) : Except Error ReadAnalysis := do
  let signals := plan.bases
  let reads := plan.flatten.eraseDups.map fun op => (op, op.inputReads)
  let blocks ← plan.zipIdx.mapM fun (ops, group) => groupBlocks signals reads group ops
  let blocks := blocks.flatten
  let uniqueBlocks := unique blocks
  return {
    signals, reads, blocks, uniqueBlocks
    memberships := membershipsOf uniqueBlocks
    sortedReads := sortReads uniqueBlocks blocks }

/-- The numbers of the unique blocks that contain a base, none if it is never read. -/
def membership (analysis : ReadAnalysis) (s : Signal) : List Nat :=
  (analysis.memberships.lookup s).getD []

end ReadAnalysis

end BatchGraph
