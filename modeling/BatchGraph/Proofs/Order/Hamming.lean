import Mathlib.Data.List.Perm.Basic
import BatchGraph.Order.Hamming
import BatchGraph.Proofs.Assoc
import BatchGraph.Proofs.Distinct

/-!
What the chain through membership sets keeps, however it chooses.

Every narrowing of the candidates leaves some of them (`exists_next?`), so the chain is a permutation
of its sets (`chain_perm`).  As long as sets with the active block are left, the next one has it;
hence the chain that starts from a block lists the sets with that block before all others
(`chain_leads`), and so do the places that `sort` gives (`sort_leads`).
-/

namespace BatchGraph

namespace Hamming

variable {β : Type} [DecidableEq β] {current set : List β} {sets : List (List β)}

/-! ## Candidates -/

theorem nearest_sublist (current : List β) (sets : List (List β)) :
    (nearest current sets).Sublist sets := by
  unfold nearest
  split
  · exact List.nil_sublist _
  · exact List.filter_sublist

theorem nearest_ne_nil (some_ : sets ≠ []) : nearest current sets ≠ [] := by
  unfold nearest
  split
  case h_1 none =>
    rw [List.min?_eq_none_iff, List.map_eq_nil_iff] at none
    exact absurd none some_
  case h_2 least isLeast =>
    obtain ⟨set, member, isDistance⟩ := List.mem_map.1 (List.min?_mem isLeast)
    exact List.ne_nil_of_mem (List.mem_filter.2 ⟨member, decide_eq_true isDistance⟩)

theorem narrow_sublist (sets : List (List β)) (block : β) : (narrow sets block).Sublist sets := by
  unfold narrow
  split
  · exact .refl _
  · split
    · exact .refl _
    · exact List.filter_sublist

theorem narrow_ne_nil (some_ : sets ≠ []) (block : β) : narrow sets block ≠ [] := by
  unfold narrow
  split
  · exact some_
  · split
    case h_1 => exact some_
    case h_2 kept => exact kept

/-- Narrowing by all blocks of a set leaves some of the candidates. -/
theorem foldl_narrow (blocks : List β) (some_ : sets ≠ []) :
    (blocks.foldl narrow sets).Sublist sets ∧ blocks.foldl narrow sets ≠ [] := by
  induction blocks generalizing sets with
  | nil => exact ⟨.refl _, some_⟩
  | cons block blocks ih =>
    obtain ⟨sublist, left⟩ := ih (narrow_ne_nil some_ block)
    exact ⟨sublist.trans (narrow_sublist sets block), left⟩

theorem following_sublist (active : Option β) (sets : List (List β)) :
    (following active sets).1.Sublist sets := by
  unfold following
  split
  · exact .refl _
  · rename_i continuing
    cases active with
    | none => exact List.nil_sublist _
    | some block => exact List.filter_sublist

theorem following_ne_nil (active : Option β) (some_ : sets ≠ []) :
    (following active sets).1 ≠ [] := by
  unfold following
  split
  case h_1 => exact some_
  case h_2 continuing => exact continuing

/-- While sets with the active block are left, one of them follows. -/
theorem following_active {block : β} (left : ∃ set ∈ sets, block ∈ set) :
    following (some block) sets = (sets.filter (·.contains block), some block) := by
  obtain ⟨set, member, inSet⟩ := left
  have kept : set ∈ sets.filter (·.contains block) :=
    List.mem_filter.2 ⟨member, List.contains_iff_mem.2 inSet⟩
  unfold following
  split
  case h_1 none =>
    rw [Option.elim_some] at none
    rw [none] at kept
    cases kept
  case h_2 => rfl

/-- When no set with the active block is left, any set may follow. -/
theorem following_exhausted {block : β} (left : ¬ ∃ set ∈ sets, block ∈ set) :
    following (some block) sets = (sets, none) := by
  have none_ : sets.filter (·.contains block) = [] := List.filter_eq_nil_iff.2 fun set member =>
    mt List.contains_iff_mem.1 fun inSet => left ⟨set, member, inSet⟩
  rw [following, Option.elim_some, none_]

/-! ## The chain -/

variable [LT β] [DecidableLT β]

theorem exists_smallest? (some_ : sets ≠ []) : ∃ set ∈ sets, smallest? sets = some set := by
  cases sets with
  | nil => exact absurd rfl some_
  | cons first rest =>
    refine ⟨_, ?_, rfl⟩
    refine List.foldlRecOn rest _ (motive := (· ∈ first :: rest)) List.mem_cons_self ?_
    intro best isBest set member
    split
    · exact List.mem_cons_of_mem _ member
    · exact isBest

/-- Of some candidates one follows. -/
theorem exists_next? (current : List β) (some_ : sets ≠ []) :
    ∃ set ∈ sets, next? current sets = some set := by
  have near : nearest current sets ≠ [] := nearest_ne_nil some_
  obtain ⟨sublist, left⟩ := foldl_narrow current near
  obtain ⟨set, member, isNext⟩ := exists_smallest? left
  exact ⟨set, (sublist.trans (nearest_sublist current sets)).subset member, isNext⟩

/-- A step of a chain takes one of the sets that are left. -/
theorem exists_chain_succ {count : Nat} (length : sets.length = count + 1) (current : List β)
    (active : Option β) :
    ∃ set ∈ (following (active.or current.head?) sets).1,
      chain (count + 1) current active sets =
        set :: chain count set (following (active.or current.head?) sets).2 (sets.erase set) := by
  have some_ : sets ≠ [] := List.ne_nil_of_length_eq_add_one length
  obtain ⟨set, member, isNext⟩ :=
    exists_next? current (following_ne_nil (active.or current.head?) some_)
  refine ⟨set, member, ?_⟩
  rw [chain]
  simp only [isNext]

theorem chain_perm {count : Nat} (length : sets.length = count) (current : List β)
    (active : Option β) : (chain count current active sets).Perm sets := by
  induction count generalizing sets current active with
  | zero => rw [List.length_eq_zero_iff.1 length, chain]
  | succ count ih =>
    obtain ⟨set, member, step⟩ := exists_chain_succ length current active
    have inSets := (following_sublist _ _).subset member
    have rest : (sets.erase set).length = count := by
      rw [List.length_erase_of_mem inSets, length, Nat.add_sub_cancel]
    rw [step]
    exact ((ih rest _ _).cons set).trans (List.perm_cons_erase inSets).symm

/-- The chain lists the sets with the block that is active, or becomes it, before all others. -/
theorem chain_leads {count : Nat} (length : sets.length = count) {active : Option β} {block : β}
    (isActive : active.or current.head? = some block) :
    (chain count current active sets).Pairwise fun a b => block ∈ b → block ∈ a := by
  induction count generalizing sets current active with
  | zero =>
    rw [chain]
    exact .nil
  | succ count ih =>
    by_cases left : ∃ set ∈ sets, block ∈ set
    case neg =>
      -- No set has the block, whichever blocks become active from here on.
      have lacks : ∀ set ∈ chain (count + 1) current active sets, block ∉ set :=
        fun set member inSet => left ⟨set, (chain_perm length _ _).mem_iff.1 member, inSet⟩
      exact List.pairwise_of_forall_mem_list fun _ _ b isB inB => absurd inB (lacks b isB)
    case pos =>
      obtain ⟨set, member, step⟩ := exists_chain_succ length current active
      rw [isActive, following_active left] at member step
      obtain ⟨inSets, inSet⟩ := List.mem_filter.1 member
      have rest : (sets.erase set).length = count := by
        rw [List.length_erase_of_mem inSets, length, Nat.add_sub_cancel]
      rw [step]
      exact .cons (fun _ _ _ => List.contains_iff_mem.1 inSet) (ih rest (Option.some_or ..))

/-! ## Places -/

variable {α : Type} [BEq α] [LawfulBEq α] [OfNat β 0]

/-- The chain that `sort` reads its places from. -/
def chained (memberships : List (α × List β)) : List (List β) :=
  chainAll (memberships.map (·.2)).eraseDups

omit [BEq α] [LawfulBEq α] in
theorem chained_perm (memberships : List (α × List β)) :
    (chained memberships).Perm (memberships.map (·.2)).eraseDups := chain_perm rfl _ _

/-- The place of a set in the chain. -/
def placeIn (chain : List (List β)) (set : List β) : Int :=
  ((chain.idxOf? set).map Int.ofNat).getD (-1)

omit [OfNat β 0] [LT β] [DecidableLT β] [BEq α] [LawfulBEq α] in
theorem placeIn_eq_idxOf {chain : List (List β)} (distinct : chain.Nodup) (member : set ∈ chain) :
    placeIn chain set = (chain.idxOf set : Int) := by
  obtain ⟨i, isAt⟩ := Distinct.exists_idxOf?_of_mem member
  rw [placeIn, isAt, Distinct.idxOf_eq distinct ((Distinct.idxOf?_eq_some_iff distinct).1 isAt)]
  rfl

omit [BEq α] [LawfulBEq α] in
theorem chained_nodup (memberships : List (α × List β)) : (chained memberships).Nodup :=
  (chained_perm memberships).nodup_iff.2 (Distinct.nodup_eraseDups _)

omit [BEq α] [LawfulBEq α] in
theorem mem_chained_iff {memberships : List (α × List β)} :
    set ∈ chained memberships ↔ set ∈ memberships.map (·.2) :=
  (chained_perm memberships).mem_iff.trans List.mem_eraseDups

omit [BEq α] [LawfulBEq α] in
/-- Every set has its position in the chain as its place. -/
theorem sort_eq_map (memberships : List (α × List β)) :
    sort memberships =
      memberships.map fun (key, set) => (key, ((chained memberships).idxOf set : Int)) := by
  refine List.map_congr_left fun (key, set) member => congrArg (Prod.mk key) ?_
  exact placeIn_eq_idxOf (chained_nodup memberships)
    (mem_chained_iff.2 (List.mem_map_of_mem member))

theorem lookup_sort (memberships : List (α × List β)) (key : α) :
    (sort memberships).lookup key =
      (memberships.lookup key).map (placeIn (chained memberships)) :=
  Assoc.lookup_map id (placeIn (chained memberships)) fun _ _ same => same

/-- Every key has the place of its set. -/
theorem exists_place {memberships : List (α × List β)} {key : α}
    (found : memberships.lookup key = some set) :
    ∃ i : Nat, (sort memberships).lookup key = some (i : Int) ∧
      (chained memberships)[i]? = some set := by
  have member : set ∈ chained memberships :=
    mem_chained_iff.2 (List.mem_map_of_mem (Assoc.mem_of_lookup found))
  obtain ⟨i, isAt⟩ := Distinct.exists_idxOf?_of_mem member
  refine ⟨i, ?_, (Distinct.idxOf?_eq_some_iff (chained_nodup memberships)).1 isAt⟩
  rw [lookup_sort, found, Option.map_some, placeIn, isAt]
  rfl

/-- A key with the heaviest block has no place behind that of a key without it. -/
theorem sort_leads {memberships : List (α × List β)} {key key' : α} {set' : List β} {i j : Int}
    (found : memberships.lookup key = some set) (found' : memberships.lookup key' = some set')
    (isPlace : (sort memberships).lookup key = some i)
    (isPlace' : (sort memberships).lookup key' = some j) (le : i ≤ j) (leads : (0 : β) ∈ set') :
    (0 : β) ∈ set := by
  obtain ⟨m, place, isAt⟩ := exists_place found
  obtain ⟨n, place', isAt'⟩ := exists_place found'
  cases isPlace.symm.trans place
  cases isPlace'.symm.trans place'
  rcases Nat.lt_or_eq_of_le (Int.ofNat_le.1 le) with less | rfl
  · have pairs : (chained memberships).Pairwise fun a b => (0 : β) ∈ b → (0 : β) ∈ a :=
      chain_leads rfl rfl
    obtain ⟨inside, rfl⟩ := List.getElem?_eq_some_iff.1 isAt
    obtain ⟨inside', rfl⟩ := List.getElem?_eq_some_iff.1 isAt'
    exact List.pairwise_iff_getElem.1 pairs m n inside inside' less leads
  · cases isAt.symm.trans isAt'
    exact leads

end Hamming

end BatchGraph
