/-!
A chain through membership sets that keeps sets with common blocks together.

Sets are lists of block numbers of any ordered kind, and block `0` is the heaviest.  The chain stays
with an active block as long as sets containing it are left; then any set may follow, and its first
block becomes active.  Of the sets that may follow, the chain takes one that differs least from the
current set; of those one that shares the heaviest blocks of the current set, one block after the
other; of those the lexicographically smallest.
-/

namespace BatchGraph

namespace Hamming

variable {β : Type} [DecidableEq β] [LT β] [DecidableLT β]

/-- The number of elements in exactly one of two sets. -/
def distance (a b : List β) : Int :=
  (a.length : Int) + b.length - 2 * (a.filter b.contains).length

/-- The sets that differ least from `current`. -/
def nearest (current : List β) (sets : List (List β)) : List (List β) :=
  match (sets.map (distance current)).min? with
  | none => []
  | some least => sets.filter fun set => distance current set = least

/-- Keeps the sets with the block, unless none has it or a single one is left. -/
def narrow (sets : List (List β)) (block : β) : List (List β) :=
  if sets.length = 1 then sets
  else
    match sets.filter (·.contains block) with
    | [] => sets
    | kept => kept

/-- The lexicographically smallest set, the first of equal ones. -/
def smallest? : List (List β) → Option (List β)
  | [] => none
  | set :: sets => some (sets.foldl (fun best set => if set < best then set else best) set)

/-- The sets that may follow, and the active block if it is still alive. -/
def following (active : Option β) (sets : List (List β)) : List (List β) × Option β :=
  match active.elim [] fun block => sets.filter (·.contains block) with
  | [] => (sets, none)
  | continuing => (continuing, active)

/-- The set that follows `current`. -/
def next? (current : List β) (sets : List (List β)) : Option (List β) :=
  smallest? (current.foldl narrow (nearest current sets))

/-- Chains up to `count` of the sets, following `current`. -/
def chain : (count : Nat) → (current : List β) → (active : Option β) →
    (sets : List (List β)) → List (List β)
  | 0, _, _, _ => []
  | count + 1, current, active, sets =>
    let (candidates, active) := following (active.or current.head?) sets
    match next? current candidates with
    | none => []
    | some set => set :: chain count set active (sets.erase set)

/-- All sets in one chain, which starts from the heaviest block. -/
def chainAll [OfNat β 0] (sets : List (List β)) : List (List β) := chain sets.length [0] none sets

/-- The position of each key's set in the chain of all different sets. -/
def sort {α : Type} [OfNat β 0] (memberships : List (α × List β)) : List (α × Int) :=
  let chained := chainAll (memberships.map (·.2)).eraseDups
  memberships.map fun (key, set) => (key, ((chained.idxOf? set).map Int.ofNat).getD (-1))

end Hamming

end BatchGraph
