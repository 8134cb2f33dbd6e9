import BatchGraph.Proofs.Order.Hamming

/-!
The chain exhausts one block after the other.

As long as sets with the active block are left, one of them follows; when none is left, any set may
follow and its first block becomes active (`exists_stretch`).  So the chain consists of stretches:
the lowest block of the first set of a stretch is in all sets of the stretch and in no set behind it
(`exists_stretches`).  The places that `sort` gives are those of the sets in such a division
(`sort_stretches`).
-/

namespace BatchGraph

namespace Hamming

/-! ## One stretch -/

section Stretch

variable {β : Type} [DecidableEq β] [LT β] [DecidableLT β] {current : List β} {sets : List (List β)}

/-- What follows a stretch: nothing, or a set whose first block becomes active. -/
def Restarts (rest : List (List β)) : Prop :=
  rest = [] ∨ ∃ set sets, rest = set :: chain sets.length set none sets

/-- The chain begins with all sets that have the active block. -/
theorem exists_stretch {count : Nat} (length : sets.length = count) {active : Option β} {block : β}
    (isActive : active.or current.head? = some block) :
    ∃ stretch rest, chain count current active sets = stretch ++ rest ∧
      (∀ set ∈ stretch, block ∈ set) ∧ (∀ set ∈ rest, block ∉ set) ∧ Restarts rest := by
  induction count generalizing sets current active with
  | zero => exact ⟨[], [], by rw [chain]; rfl, by simp, by simp, .inl rfl⟩
  | succ count ih =>
    obtain ⟨set, member, step⟩ := exists_chain_succ length current active
    rw [isActive] at member step
    by_cases left : ∃ set ∈ sets, block ∈ set
    case pos =>
      rw [following_active left] at member step
      obtain ⟨inSets, inSet⟩ := List.mem_filter.1 member
      have rest : (sets.erase set).length = count := by
        rw [List.length_erase_of_mem inSets, length, Nat.add_sub_cancel]
      obtain ⟨stretch, others, parts, within, behind, restarts⟩ := ih rest (Option.some_or ..)
      exact ⟨set :: stretch, others, by rw [step, parts, List.cons_append],
        List.forall_mem_cons.2 ⟨List.contains_iff_mem.1 inSet, within⟩, behind, restarts⟩
    case neg =>
      rw [following_exhausted left] at member step
      have rest : (sets.erase set).length = count := by
        rw [List.length_erase_of_mem member, length, Nat.add_sub_cancel]
      refine ⟨[], _, (List.nil_append _).symm, by simp, fun other isLater inSet => ?_, .inr ?_⟩
      · exact left ⟨other, (chain_perm length current active).mem_iff.1 isLater, inSet⟩
      · exact ⟨set, sets.erase set, by rw [step, rest]⟩

end Stretch

/-! ## All stretches -/

/-- Stretches of sets: the lowest block of the first set of a stretch is in all its sets, and in
none of those behind it. -/
inductive Stretched : List (List (List Nat)) → Prop
  | nil : Stretched []
  | cons {first : List Nat} {others : List (List Nat)} {rest : List (List (List Nat))}
      {block : Nat} (lowest : first.min? = some block)
      (within : ∀ set ∈ first :: others, block ∈ set) (behind : ∀ set ∈ rest.flatten, block ∉ set)
      (stretched : Stretched rest) : Stretched ((first :: others) :: rest)

/-- An ascending list of at least one block. -/
def IsAscending (set : List Nat) : Prop := set ≠ [] ∧ set.Pairwise (· < ·)

instance (set : List Nat) : Decidable (IsAscending set) := inferInstanceAs (Decidable (_ ∧ _))

theorem IsAscending.exists_lowest {set : List Nat} (ascending : IsAscending set) :
    ∃ block, set.head? = some block ∧ set.min? = some block := by
  obtain ⟨some_, sorted⟩ := ascending
  obtain ⟨block, isFirst⟩ := Option.isSome_iff_exists.1 (List.isSome_head?.2 some_)
  refine ⟨block, isFirst, ?_⟩
  rw [List.min?_eq_head? (sorted.imp fun less => Nat.min_eq_left (Nat.le_of_lt less)), isFirst]

/-- What follows a stretch consists of stretches. -/
theorem exists_stretches {rest : List (List Nat)} (restarts : Restarts rest)
    (ascending : ∀ set ∈ rest, IsAscending set) :
    ∃ stretches : List (List (List Nat)), stretches.flatten = rest ∧ Stretched stretches := by
  -- A stretch is not empty, so the induction is on what is left of the chain.
  induction length : rest.length using Nat.strongRecOn generalizing rest with
  | _ count ih =>
    obtain rfl | ⟨first, sets, rfl⟩ := restarts
    case inl => exact ⟨[], rfl, .nil⟩
    case inr =>
      obtain ⟨isFirst, later⟩ := List.forall_mem_cons.1 ascending
      obtain ⟨block, isHead, lowest⟩ := isFirst.exists_lowest
      have isActive : Option.or none first.head? = some block := isHead
      obtain ⟨others, rest, parts, within, behind, restarts⟩ :=
        exists_stretch (Eq.refl sets.length) isActive
      rw [parts] at length later ⊢
      have shorter : rest.length < count := by
        rw [List.length_cons, List.length_append] at length
        omega
      obtain ⟨stretches, rfl, stretched⟩ := ih _ shorter restarts
        (fun set member => later set (List.mem_append_right _ member)) rfl
      refine ⟨(first :: others) :: stretches, rfl, .cons lowest ?_ behind stretched⟩
      exact List.forall_mem_cons.2 ⟨List.mem_of_mem_head? isHead, within⟩

theorem chainAll_stretched {sets : List (List Nat)} (ascending : ∀ set ∈ sets, IsAscending set) :
    ∃ stretches : List (List (List Nat)), stretches.flatten = chainAll sets ∧
      Stretched stretches := by
  have perm : (chainAll sets).Perm sets := chain_perm rfl _ _
  have isActive : Option.or none [0].head? = some 0 := rfl
  obtain ⟨stretch, rest, parts, within, behind, restarts⟩ :=
    exists_stretch (Eq.refl sets.length) isActive
  rw [← chainAll] at parts
  obtain ⟨stretches, rfl, stretched⟩ := exists_stretches restarts fun set member =>
    ascending set (perm.mem_iff.1 (parts ▸ List.mem_append_right _ member))
  rw [parts]
  cases stretch with
  | nil => exact ⟨stretches, rfl, stretched⟩
  | cons first others =>
    -- The heaviest block is active before the first set, and it is the lowest of all.
    have lowest : first.min? = some 0 :=
      List.min?_eq_some_iff.2 ⟨within first List.mem_cons_self, fun _ _ => Nat.zero_le _⟩
    exact ⟨(first :: others) :: stretches, rfl, .cons lowest within behind stretched⟩

/-! ## Places -/

variable {α : Type} {memberships : List (α × List Nat)}

/-- The places are those of the different sets in a division into stretches, and the sets with the
heaviest block come first. -/
theorem sort_stretches (ascending : ∀ entry ∈ memberships, IsAscending entry.2) :
    ∃ stretches : List (List (List Nat)), Stretched stretches ∧
      stretches.flatten.Nodup ∧
      (∀ set, set ∈ stretches.flatten ↔ set ∈ memberships.map (·.2)) ∧
      sort memberships =
        memberships.map (fun (key, set) => (key, (stretches.flatten.idxOf set : Int))) ∧
      stretches.flatten.Pairwise fun a b => 0 ∈ b → 0 ∈ a := by
  have perm := chained_perm memberships
  have ascending' : ∀ set ∈ (memberships.map (·.2)).eraseDups, IsAscending set := by
    intro set member
    obtain ⟨entry, isEntry, rfl⟩ := List.mem_map.1 (List.mem_eraseDups.1 member)
    exact ascending entry isEntry
  obtain ⟨stretches, isChain, stretched⟩ := chainAll_stretched ascending'
  rw [← chained] at isChain
  refine ⟨stretches, stretched, ?_⟩
  rw [isChain]
  exact ⟨perm.nodup_iff.2 (Distinct.nodup_eraseDups _),
    fun set => perm.mem_iff.trans List.mem_eraseDups, sort_eq_map memberships, chain_leads rfl rfl⟩

/-- Three blocks of which neighbouring ones share a key, and a block apart. -/
def linked : List (String × List Nat) := [("d", [3]), ("c", [1, 2]), ("b", [0, 1]), ("a", [0])]

example : sort linked = [("d", 3), ("c", 2), ("b", 1), ("a", 0)] := by decide

/-- The keys of the heaviest block come first, and the block apart is a stretch of its own. -/
theorem sort_stretches_linked :
    (∀ entry ∈ linked, IsAscending entry.2) ∧
    ∃ stretches : List (List (List Nat)), Stretched stretches ∧
      sort linked = linked.map (fun (key, set) => (key, (stretches.flatten.idxOf set : Int))) ∧
      stretches.flatten.Pairwise fun a b => 0 ∈ b → 0 ∈ a := by
  have ascending : ∀ entry ∈ linked, IsAscending entry.2 := by decide
  obtain ⟨stretches, stretched, -, -, places, leads⟩ := sort_stretches ascending
  exact ⟨ascending, stretches, stretched, places, leads⟩

end Hamming

end BatchGraph
