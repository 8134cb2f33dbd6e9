import BatchGraph.Proofs.Order.Hamming

/-!
The places in the chain are dense.

As long as sets are left, a round finds one of them, whatever the blocks and the current set are;
and when none is left, the chain ends, however many rounds are allowed (`chain_add`).  So the chain
lists every set once, and the places of the keys are the numbers below the number of different sets,
the same for two keys exactly if they have the same set (`sort_dense`).  That needs no order of the
blocks, nor that the sets are ascending, and the set that the chain starts from need not be among
them.
-/

namespace BatchGraph

namespace Hamming

variable {β : Type} [DecidableEq β] [LT β] [DecidableLT β]

/-! ## The end of the chain -/

omit [LT β] [DecidableLT β] in
theorem foldl_narrow_nil (blocks : List β) : blocks.foldl narrow [] = [] := by
  induction blocks with
  | nil => rfl
  | cons block blocks ih => rwa [List.foldl_cons, narrow]

theorem next?_nil (current : List β) : next? current [] = none := by
  rw [next?, nearest, List.map_nil, List.min?_nil, foldl_narrow_nil, smallest?]

theorem chain_nil (count : Nat) (current : List β) (active : Option β) :
    chain count current active [] = [] := by
  cases count with
  | zero => rw [chain]
  | succ count =>
    have none_ : (following (active.or current.head?) ([] : List (List β))).1 = [] :=
      List.eq_nil_of_subset_nil (following_sublist _ _).subset
    rw [chain]
    simp only [none_, next?_nil]

/-- The chain ends by itself when no set is left. -/
theorem chain_add {count : Nat} {sets : List (List β)} (length : sets.length = count) (more : Nat)
    (current : List β) (active : Option β) :
    chain (count + more) current active sets = chain count current active sets := by
  induction count generalizing sets current active with
  | zero => rw [List.length_eq_zero_iff.1 length, chain_nil, chain_nil]
  | succ count ih =>
    obtain ⟨set, member, isNext⟩ := exists_next? current
      (following_ne_nil (active.or current.head?) (List.ne_nil_of_length_eq_add_one length))
    have rest : (sets.erase set).length = count := by
      rw [List.length_erase_of_mem ((following_sublist _ _).subset member), length,
        Nat.add_sub_cancel]
    rw [Nat.succ_add, chain, chain]
    simp only [isNext]
    rw [ih rest]

/-! ## Places -/

variable {α : Type} [OfNat β 0]

/-- The places are the positions in the chain. -/
theorem mem_places_iff {memberships : List (α × List β)} {place : Int} :
    place ∈ (sort memberships).map (·.2) ↔ ∃ i < (chained memberships).length, place = i := by
  rw [sort_eq_map, List.map_map]
  constructor
  · intro isPlace
    obtain ⟨entry, member, rfl⟩ := List.mem_map.1 isPlace
    have isChained := mem_chained_iff.2 (List.mem_map_of_mem (f := (·.2)) member)
    exact ⟨_, List.idxOf_lt_length_of_mem isChained, rfl⟩
  · rintro ⟨i, inside, rfl⟩
    obtain ⟨entry, member, isSet⟩ := List.mem_map.1 (mem_chained_iff.1 (List.getElem_mem inside))
    have position := Distinct.idxOf_eq (chained_nodup memberships) (List.getElem?_eq_getElem inside)
    rw [← isSet] at position
    exact List.mem_map.2 ⟨entry, member, congrArg Int.ofNat position⟩

/-- The places of two keys are the same exactly if their sets are. -/
theorem place_eq_iff (memberships : List (α × List β)) (m n : Nat) :
    (sort memberships)[m]?.map (·.2) = (sort memberships)[n]?.map (·.2) ↔
      memberships[m]?.map (·.2) = memberships[n]?.map (·.2) := by
  rw [sort_eq_map, List.getElem?_map, List.getElem?_map]
  cases first : memberships[m]? with
  | none => cases memberships[n]? <;> simp
  | some entry =>
    have isChained := mem_chained_iff.2
      (List.mem_map_of_mem (f := (·.2)) (List.mem_of_getElem? first))
    cases memberships[n]? with
    | none => simp
    | some other =>
      simp only [Option.map_some, Option.some.injEq, Int.natCast_inj]
      exact ⟨Distinct.idxOf_inj isChained, congrArg (List.idxOf · (chained memberships))⟩

/-- The chain ends after it has listed every set once: while sets are left a round finds one of
them, and with more rounds it is the same.  Every key gets a place; the places are all numbers below
the number of different sets; and two keys have the same place exactly if they have the same set. -/
theorem sort_dense (memberships : List (α × List β)) :
    (∀ (current : List β) (active : Option β) (first : List β) (rest : List (List β)),
      ∃ set ∈ first :: rest, next? current (following active (first :: rest)).1 = some set) ∧
    (∀ more, chain ((memberships.map (·.2)).eraseDups.length + more) [0] none
      (memberships.map (·.2)).eraseDups = chained memberships) ∧
    (chained memberships).Perm (memberships.map (·.2)).eraseDups ∧
    (sort memberships).map (·.1) = memberships.map (·.1) ∧
    (∀ place : Int, place ∈ (sort memberships).map (·.2) ↔
      ∃ i < (memberships.map (·.2)).eraseDups.length, place = i) ∧
    ∀ m n : Nat, (sort memberships)[m]?.map (·.2) = (sort memberships)[n]?.map (·.2) ↔
      memberships[m]?.map (·.2) = memberships[n]?.map (·.2) := by
  refine ⟨fun current active first rest => ?_, fun more => chain_add rfl more _ _,
    chained_perm memberships, ?_, fun place => ?_, place_eq_iff memberships⟩
  · have some_ := following_ne_nil active (List.cons_ne_nil first rest)
    obtain ⟨set, member, isNext⟩ := exists_next? current some_
    exact ⟨set, (following_sublist active _).subset member, isNext⟩
  · rw [sort_eq_map, List.map_map]
    rfl
  · rw [← (chained_perm memberships).length_eq]
    exact mem_places_iff

/-- Sets with repeated blocks, and without any, have places like others. -/
example : sort [("a", [2, 2]), ("b", []), ("c", [2]), ("d", [2, 2])] =
    [("a", 2), ("b", 0), ("c", 1), ("d", 2)] := by decide

end Hamming

end BatchGraph
