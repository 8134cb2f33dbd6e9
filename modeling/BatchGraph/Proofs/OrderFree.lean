import Mathlib
import BatchGraph.Proofs.Order.Hamming

/-!
The chain does not depend on the order in which its sets are listed.

Each criterion by which candidates are dropped only looks at the sets themselves, so it keeps
permuted lists permuted (`nearest_perm`, `narrow_perm`, `following_perm`); and the last one is a
linear order, which picks the same set from permuted lists (`smallest?_perm`).  Hence permuted lists
have one chain (`chain_eq_of_perm`), and a key has one place in it however the memberships are listed
(`sort_order_free`).
-/

namespace BatchGraph

namespace Hamming

variable {β : Type} [LinearOrder β] {sets sets' : List (List β)}

/-! ## Candidates -/

theorem min?_eq_of_perm {xs ys : List Int} (perm : xs.Perm ys) : xs.min? = ys.min? := by
  ext least
  rw [List.min?_eq_some_iff, List.min?_eq_some_iff, perm.mem_iff]
  exact and_congr_right fun _ => forall_congr' fun x => by rw [perm.mem_iff]

theorem nearest_perm (perm : sets.Perm sets') (current : List β) :
    (nearest current sets).Perm (nearest current sets') := by
  unfold nearest
  rw [min?_eq_of_perm (perm.map (distance current))]
  split
  · exact .refl _
  · exact perm.filter _

theorem narrow_eq (sets : List (List β)) (block : β) :
    narrow sets block = if sets.length = 1 ∨ ¬ ∃ set ∈ sets, block ∈ set then sets
      else sets.filter (·.contains block) := by
  have none_iff : sets.filter (·.contains block) = [] ↔ ¬ ∃ set ∈ sets, block ∈ set := by
    simp [List.filter_eq_nil_iff]
  simp only [narrow, ← none_iff]
  by_cases alone : sets.length = 1
  · rw [if_pos alone, if_pos (.inl alone)]
  · rw [if_neg alone]
    split
    case h_1 none_ => rw [if_pos (.inr none_)]
    case h_2 some_ => rw [if_neg (not_or.2 ⟨alone, some_⟩)]

theorem narrow_perm (perm : sets.Perm sets') (block : β) :
    (narrow sets block).Perm (narrow sets' block) := by
  rw [narrow_eq, narrow_eq, perm.length_eq]
  simp only [perm.mem_iff]
  split
  · exact perm
  · exact perm.filter _

theorem foldl_narrow_perm (perm : sets.Perm sets') (blocks : List β) :
    (blocks.foldl narrow sets).Perm (blocks.foldl narrow sets') := by
  induction blocks generalizing sets sets' with
  | nil => exact perm
  | cons block blocks ih => exact ih (narrow_perm perm block)

theorem following_perm (perm : sets.Perm sets') (active : Option β) :
    (following active sets).1.Perm (following active sets').1 ∧
      (following active sets).2 = (following active sets').2 := by
  cases active with
  | none => exact ⟨perm, rfl⟩
  | some block =>
    by_cases left : ∃ set ∈ sets, block ∈ set
    case pos =>
      have left' : ∃ set ∈ sets', block ∈ set := by simpa only [perm.mem_iff] using left
      rw [following_active left, following_active left']
      exact ⟨perm.filter _, rfl⟩
    case neg =>
      have left' : ¬ ∃ set ∈ sets', block ∈ set := by simpa only [perm.mem_iff] using left
      rw [following_exhausted left, following_exhausted left']
      exact ⟨perm, rfl⟩

/-! ## The chain -/

/-- What is left of a start and some sets is below all of them. -/
theorem foldl_smaller_le (sets : List (List β)) (start : List β) :
    ∀ set ∈ start :: sets,
      sets.foldl (fun best set => if set < best then set else best) start ≤ set := by
  induction sets generalizing start with
  | nil => exact List.forall_mem_singleton.2 (le_refl start)
  | cons next sets ih =>
    rw [List.foldl_cons, List.forall_mem_cons, List.forall_mem_cons]
    split
    case isTrue less =>
      obtain ⟨below, others⟩ := List.forall_mem_cons.1 (ih next)
      exact ⟨below.trans (le_of_lt less), below, others⟩
    case isFalse notLess =>
      obtain ⟨below, others⟩ := List.forall_mem_cons.1 (ih start)
      exact ⟨below, below.trans (le_of_not_gt notLess), others⟩

theorem smallest?_le {least set : List β} (isSmallest : smallest? sets = some least)
    (member : set ∈ sets) : least ≤ set := by
  cases sets with
  | nil => cases member
  | cons first rest =>
    cases isSmallest
    exact foldl_smaller_le rest first set member

/-- The lexicographic order is linear, so there is only one smallest set. -/
theorem smallest?_perm (perm : sets.Perm sets') : smallest? sets = smallest? sets' := by
  by_cases none_ : sets = []
  case pos =>
    cases none_
    rw [perm.nil_eq.symm]
  case neg =>
    have none_' : sets' ≠ [] := fun empty => none_ (by rw [empty] at perm; exact perm.eq_nil)
    obtain ⟨least, member, isSmallest⟩ := exists_smallest? none_
    obtain ⟨least', member', isSmallest'⟩ := exists_smallest? none_'
    rw [isSmallest, isSmallest', le_antisymm (smallest?_le isSmallest (perm.mem_iff.2 member'))
      (smallest?_le isSmallest' (perm.mem_iff.1 member))]

theorem next?_perm (perm : sets.Perm sets') (current : List β) :
    next? current sets = next? current sets' :=
  smallest?_perm (foldl_narrow_perm (nearest_perm perm current) current)

theorem chain_eq_of_perm (perm : sets.Perm sets') (count : Nat) (current : List β)
    (active : Option β) : chain count current active sets = chain count current active sets' := by
  induction count generalizing sets sets' current active with
  | zero => rfl
  | succ count ih =>
    obtain ⟨candidates, alive⟩ := following_perm perm (active.or current.head?)
    rw [chain, chain]
    dsimp only
    rw [next?_perm candidates, alive]
    split
    · rfl
    · exact congrArg _ (ih (perm.erase _) _ _)

/-! ## Places -/

variable {α : Type} [OfNat β 0] {memberships memberships' : List (α × List β)}

theorem chained_eq_of_perm (perm : memberships.Perm memberships') :
    chained memberships = chained memberships' := by
  have sets : (memberships.map (·.2)).eraseDups.Perm (memberships'.map (·.2)).eraseDups :=
    Distinct.eraseDups_perm fun set => (perm.map _).mem_iff
  rw [chained, chained, chainAll, chainAll, sets.length_eq]
  exact chain_eq_of_perm sets _ _ _

/-- Every key has one place, in whatever order the entries are listed. -/
theorem sort_order_free [BEq α] [LawfulBEq α] (distinct : (memberships.map (·.1)).Nodup)
    (perm : memberships.Perm memberships') {key : α} (listed : key ∈ memberships.map (·.1)) :
    ∃ place : Nat, (sort memberships).lookup key = some (place : Int) ∧
      (sort memberships').lookup key = some (place : Int) := by
  obtain ⟨set, found⟩ := Assoc.mem_keys_iff.1 listed
  obtain ⟨place, isPlace, -⟩ := exists_place found
  refine ⟨place, isPlace, ?_⟩
  rw [← isPlace, lookup_sort, lookup_sort, Assoc.lookup_eq_of_perm distinct perm,
    chained_eq_of_perm perm]

/-- Sets that differ equally little from each other, listed in two orders. -/
def rivals : List (String × List Int) := [("a", [0]), ("b", [0, 1]), ("c", [0, 2]), ("d", [-1])]

theorem sort_order_free_rivals :
    (rivals.map (·.1)).Nodup ∧ rivals.Perm rivals.reverse ∧ "c" ∈ rivals.map (·.1) ∧
    ∃ place : Nat, (sort rivals).lookup "c" = some (place : Int) ∧
      (sort rivals.reverse).lookup "c" = some (place : Int) := by
  have distinct : (rivals.map (·.1)).Nodup := by decide
  have perm : rivals.Perm rivals.reverse := (List.reverse_perm _).symm
  have listed : "c" ∈ rivals.map (·.1) := by decide
  exact ⟨distinct, perm, listed, sort_order_free distinct perm listed⟩

end Hamming

end BatchGraph
