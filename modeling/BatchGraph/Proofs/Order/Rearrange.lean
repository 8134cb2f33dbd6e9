import Mathlib.Data.List.Perm.Basic
import Mathlib.Data.Int.Order.Basic
import BatchGraph.Order.Refine
import BatchGraph.Proofs.Assoc

/-!
Rearranging a window keeps the memberships of its places.

A window is scanned before it is rearranged.  `Scan.Knows` is what is known of a part that has been
scanned: the signals in front, the read ones in their old order and those behind have the
memberships of the part, place by place, and of two read signals of different membership the
earlier one has no higher rank.  So sorting the read signals by rank leaves every place with its
membership (`map_eq_of_sorted`), and so does the whole rearrangement (`rearrange?_eq_some`).
-/

namespace BatchGraph

namespace Refine

variable {α β : Type}

/-- Sorting moves nothing to a place of another key, if the keys are in the order of the ranks. -/
theorem map_eq_of_sorted {key : α → β} {rank : α → Nat} {xs ys : List α} (perm : xs.Perm ys)
    (apart : xs.Pairwise fun x y => key x ≠ key y → rank x < rank y)
    (sorted : ys.Pairwise fun x y => rank x ≤ rank y) : xs.map key = ys.map key := by
  induction xs generalizing ys with
  | nil => rw [perm.nil_eq]
  | cons x xs ih =>
    obtain ⟨before, after, rfl⟩ := List.append_of_mem (perm.subset List.mem_cons_self)
    have rest : xs.Perm (before ++ after) := (perm.trans List.perm_middle).cons_inv
    rw [List.pairwise_cons] at apart
    have first := List.pairwise_append.1 sorted
    -- What is sorted in front of the first element must have its key.
    have front : before.map key = List.replicate before.length (key x) := by
      rw [List.map_eq_replicate_iff]
      intro y isBefore
      by_contra differ
      have less := apart.1 y (rest.mem_iff.2 (List.mem_append_left _ isBefore)) (Ne.symm differ)
      have sorted := first.2.2 y isBefore x List.mem_cons_self
      omega
    have others := ih rest apart.2
      (sorted.sublist ((List.Sublist.refl before).append (List.sublist_cons_self x after)))
    have shift : List.replicate before.length (key x) ++ key x :: after.map key =
        key x :: (List.replicate before.length (key x) ++ after.map key) := by
      rw [List.append_cons, ← List.replicate_succ', List.replicate_succ, List.cons_append]
    rw [List.map_cons, others, List.map_append, List.map_append, List.map_cons, front, shift]

variable {ranks : List (Signal × Nat)} {membership : Signal → List Nat}

/-- The signal is read. -/
def isRanked (ranks : List (Signal × Nat)) (s : Signal) : Bool := (ranks.lookup s).isSome

/-- The rank of a read signal. -/
def rankOf (ranks : List (Signal × Nat)) (s : Signal) : Nat := (ranks.lookup s).getD 0

/-! ## Scanning -/

/-- What a scan knows of the part that it has read. -/
structure Scan.Knows (ranks : List (Signal × Nat)) (membership : Signal → List Nat)
    (scan : Scan) (part : List Signal) : Prop where
  perm : (scan.before ++ part.filter (isRanked ranks) ++ scan.behind).Perm part
  places : (scan.before ++ part.filter (isRanked ranks) ++ scan.behind).map membership =
    part.map membership
  apart : (part.filter (isRanked ranks)).Pairwise fun s t =>
    membership s ≠ membership t → rankOf ranks s ≤ rankOf ranks t
  /-- A first membership is the only one. -/
  first : scan.inFirst = true → scan.behind = [] ∧ scan.highestBefore = -1 ∧
    ∀ s ∈ part, scan.membership = some (membership s)
  behind : ∀ s ∈ scan.behind, scan.membership = some (membership s)
  /-- The ranks of the memberships before the one at hand, and of that one. -/
  bounds : ∀ s ∈ part.filter (isRanked ranks), (rankOf ranks s : Int) ≤ scan.highestBefore ∨
    scan.membership = some (membership s) ∧ (rankOf ranks s : Int) ≤ scan.highest
  least : -1 ≤ scan.highest

/-- What a scan knows between two signals. -/
structure Scan.Sorts (ranks : List (Signal × Nat)) (membership : Signal → List Nat)
    (scan : Scan) (part : List Signal) : Prop extends scan.Knows ranks membership part where
  /-- The last signal has the membership at hand. -/
  current : scan.membership = part.getLast?.map membership
  fresh : part = [] → scan.highest = -1
  ascending : scan.behind = [] → scan.highestBefore ≤ scan.highest

theorem Scan.sorts_nil : Scan.Sorts ranks membership {} [] := by
  refine ⟨⟨.refl _, rfl, .nil, fun _ => ⟨rfl, rfl, ?_⟩, ?_, ?_, ?_⟩, rfl, ?_, ?_⟩ <;> simp

theorem Scan.Sorts.enter {scan : Scan} {part : List Signal}
    (sorts : scan.Sorts ranks membership part) (empty : scan.behind = []) (m : List Nat) :
    (scan.enter m).Knows ranks membership part := by
  refine ⟨sorts.perm, sorts.places, sorts.apart, fun isFirst => ?_, fun t member => ?_,
    fun t member => .inl ?_, Int.le_refl _⟩
  · have none : part = [] := by
      have isNone : scan.membership = none := Option.isNone_iff_eq_none.1 isFirst
      rw [sorts.current] at isNone
      simpa using isNone
    exact ⟨empty, sorts.fresh none, by simp [none]⟩
  · have isBehind : t ∈ scan.behind := member
    rw [empty] at isBehind
    cases isBehind
  · have ascending := sorts.ascending empty
    have highest : (scan.enter m).highestBefore = scan.highest := rfl
    rcases sorts.bounds t member with lower | ⟨-, lower⟩ <;> omega

section Next

variable {scan : Scan} {part : List Signal} {s : Signal}

/-- A signal of the membership at hand may follow any place of that membership. -/
theorem Scan.map_behind (behind : ∀ t ∈ scan.behind, scan.membership = some (membership t))
    (current : scan.membership = some (membership s)) :
    (s :: scan.behind).map membership = (scan.behind ++ [s]).map membership := by
  have same : scan.behind.map membership = List.replicate scan.behind.length (membership s) :=
    List.map_eq_replicate_iff.2 fun t member =>
      Option.some.inj ((behind t member).symm.trans current)
  rw [List.map_cons, List.map_append, same, List.map_singleton, ← List.replicate_succ,
    ← List.replicate_succ']

/-- The next signal is read. -/
theorem Scan.Knows.read {rank : Nat} (knows : scan.Knows ranks membership part)
    (current : scan.membership = some (membership s)) (found : ranks.lookup s = some rank)
    (inOrder : ¬ (rank : Int) < scan.highestBefore) :
    Scan.Sorts ranks membership { scan with highest := max scan.highest rank } (part ++ [s]) := by
  have isRead : isRanked ranks s = true := by rw [isRanked, found]; rfl
  have rank_eq : rankOf ranks s = rank := by rw [rankOf, found]; rfl
  have filter : (part ++ [s]).filter (isRanked ranks) = part.filter (isRanked ranks) ++ [s] := by
    simp [isRead]
  have regroup : scan.before ++ (part.filter (isRanked ranks) ++ [s]) ++ scan.behind =
      scan.before ++ part.filter (isRanked ranks) ++ (s :: scan.behind) := by simp
  have highest : scan.highestBefore ≤ max scan.highest rank := by omega
  have least : -1 ≤ max scan.highest (rank : Int) := by omega
  refine ⟨⟨?_, ?_, ?_, fun isFirst => ?_, knows.behind, fun t member => ?_, least⟩, ?_, by simp,
    fun _ => highest⟩
  · rw [filter, regroup]
    apply ((List.perm_append_singleton s scan.behind).symm.append_left _).trans
    rw [← List.append_assoc]
    exact knows.perm.append_right [s]
  · rw [filter, regroup, List.map_append, scan.map_behind knows.behind current, ← List.map_append,
      ← List.append_assoc, List.map_append, knows.places, ← List.map_append]
  · rw [filter, List.pairwise_append]
    refine ⟨knows.apart, List.pairwise_singleton _ _, fun t member u isNew differ => ?_⟩
    rw [List.mem_singleton.1 isNew] at differ ⊢
    rw [rank_eq]
    rcases knows.bounds t member with lower | ⟨same, -⟩
    · omega
    · exact absurd (Option.some.inj (same.symm.trans current)) differ
  · obtain ⟨behind, before, all⟩ := knows.first isFirst
    exact ⟨behind, before, List.forall_mem_append.2 ⟨all, List.forall_mem_singleton.2 current⟩⟩
  · rw [filter] at member
    rcases List.mem_append.1 member with isOld | isNew
    · rcases knows.bounds t isOld with lower | ⟨same, lower⟩
      · exact .inl lower
      · exact .inr ⟨same, Int.le_trans lower (Int.le_max_left _ _)⟩
    · rw [List.mem_singleton.1 isNew, rank_eq]
      exact .inr ⟨current, Int.le_max_right _ _⟩
  · simp [current]

/-- The next signal is not read, and no other membership has been met. -/
theorem Scan.Knows.skip_first (knows : scan.Knows ranks membership part)
    (current : scan.membership = some (membership s)) (missing : ranks.lookup s = none)
    (isFirst : scan.inFirst = true) :
    Scan.Sorts ranks membership { scan with before := scan.before ++ [s] } (part ++ [s]) := by
  have isUnread : isRanked ranks s = false := by rw [isRanked, missing]; rfl
  have filter : (part ++ [s]).filter (isRanked ranks) = part.filter (isRanked ranks) := by
    simp [isUnread]
  obtain ⟨empty, before, all⟩ := knows.first isFirst
  have perm : (scan.before ++ [s] ++ part.filter (isRanked ranks) ++ scan.behind).Perm
      (part ++ [s]) := by
    have perm := knows.perm
    rw [empty, List.append_nil] at perm ⊢
    rw [List.append_assoc, List.singleton_append]
    exact List.perm_middle.trans ((perm.cons s).trans (List.perm_append_singleton s part).symm)
  have all' : ∀ t ∈ part ++ [s], scan.membership = some (membership t) :=
    List.forall_mem_append.2 ⟨all, List.forall_mem_singleton.2 current⟩
  have same : ∀ t ∈ part ++ [s], membership t = membership s := fun t member =>
    Option.some.inj ((all' t member).symm.trans current)
  have least := knows.least
  have ascending : scan.highestBefore ≤ scan.highest := by omega
  refine ⟨⟨?_, ?_, ?_, fun _ => ⟨empty, before, all'⟩, knows.behind, ?_, knows.least⟩, ?_, by simp,
    fun _ => ascending⟩
  · rw [filter]
    exact perm
  · rw [filter, List.map_eq_replicate_iff.2 same, List.map_eq_replicate_iff.2
      (fun t member => same t (perm.mem_iff.1 member)), perm.length_eq]
  · rw [filter]
    exact knows.apart
  · rw [filter]
    exact knows.bounds
  · simp [current]

/-- The next signal is not read and stands behind what is read. -/
theorem Scan.Knows.skip_later (knows : scan.Knows ranks membership part)
    (current : scan.membership = some (membership s)) (missing : ranks.lookup s = none)
    (isLater : ¬ scan.inFirst = true) :
    Scan.Sorts ranks membership { scan with behind := scan.behind ++ [s] } (part ++ [s]) := by
  have isUnread : isRanked ranks s = false := by rw [isRanked, missing]; rfl
  have filter : (part ++ [s]).filter (isRanked ranks) = part.filter (isRanked ranks) := by
    simp [isUnread]
  refine ⟨⟨?_, ?_, ?_, fun isFirst => absurd isFirst isLater, ?_, ?_, knows.least⟩, ?_, by simp,
    fun empty => ?_⟩
  · rw [filter, ← List.append_assoc]
    exact knows.perm.append_right [s]
  · rw [filter, ← List.append_assoc, List.map_append, knows.places, ← List.map_append]
  · rw [filter]
    exact knows.apart
  · exact List.forall_mem_append.2 ⟨knows.behind, List.forall_mem_singleton.2 current⟩
  · rw [filter]
    exact knows.bounds
  · simp [current]
  · simp at empty

/-- One more signal. -/
theorem Scan.Sorts.step {next : Scan} (sorts : scan.Sorts ranks membership part)
    (success : Scan.step ranks membership scan s = some next) :
    next.Sorts ranks membership (part ++ [s]) := by
  obtain ⟨entered, isEntered, ready⟩ : ∃ entered : Scan,
      (if decide (scan.membership ≠ some (membership s)) then scan.enter (membership s)
        else scan) = entered ∧
        ((decide (scan.membership ≠ some (membership s)) && !scan.behind.isEmpty) = false →
          entered.Knows ranks membership part ∧ entered.membership = some (membership s)) := by
    refine ⟨_, rfl, fun free => ?_⟩
    split
    case isTrue entering =>
      refine ⟨sorts.enter ?_ _, rfl⟩
      simpa [entering] using free
    case isFalse same => exact ⟨sorts.toKnows, by simpa using same⟩
  simp only [Scan.step, isEntered] at success
  by_cases stuck : (decide (scan.membership ≠ some (membership s)) && !scan.behind.isEmpty) = true
  · rw [if_pos stuck] at success
    cases success
  rw [if_neg stuck] at success
  obtain ⟨knows, current⟩ := ready (by simpa using stuck)
  cases found : ranks.lookup s with
  | some rank =>
    simp only [found] at success
    split at success
    case isTrue => cases success
    case isFalse inOrder =>
      cases success
      exact knows.read current found inOrder
  | none =>
    simp only [found] at success
    split at success
    case isTrue isFirst =>
      cases success
      exact knows.skip_first current found isFirst
    case isFalse isLater =>
      cases success
      exact knows.skip_later current found isLater

end Next

/-! ## Rearranging -/

theorem scan_sorts {window : List Signal} {scan : Scan}
    (success : window.foldlM (Scan.step ranks membership) {} = some scan) :
    scan.Sorts ranks membership window := by
  have from_ (part rest : List Signal) (start : Scan) (sorts : start.Sorts ranks membership part)
      (success : rest.foldlM (Scan.step ranks membership) start = some scan) :
      scan.Sorts ranks membership (part ++ rest) := by
    induction rest generalizing part start with
    | nil =>
      cases success
      rwa [List.append_nil]
    | cons s rest ih =>
      rw [List.foldlM_cons, Option.bind_eq_bind, Option.bind_eq_some_iff] at success
      obtain ⟨next, first, later⟩ := success
      rw [List.append_cons]
      exact ih _ next (sorts.step first) later
  exact from_ [] window {} Scan.sorts_nil success

/-- The ranks are what a window can be sorted by. -/
structure RanksIn (ranks : List (Signal × Nat)) (window : List Signal) : Prop where
  keys : (ranks.map (·.1)).Nodup
  inside : ∀ s ∈ ranks.map (·.1), s ∈ window
  different : ∀ s t i, ranks.lookup s = some i → ranks.lookup t = some i → s = t

theorem RanksIn.byRank_perm {window : List Signal} (inWindow : RanksIn ranks window)
    (distinct : window.Nodup) : (window.filter (isRanked ranks)).Perm (byRank ranks) := by
  have keys : (byRank ranks).Perm (ranks.map (·.1)) := (List.mergeSort_perm _ _).map _
  refine (List.perm_ext_iff_of_nodup (distinct.filter _) (keys.nodup_iff.2 inWindow.keys)).2
    fun s => ?_
  have ranked : isRanked ranks s = true ↔ s ∈ ranks.map (·.1) := by
    rw [Assoc.mem_keys_iff, isRanked, Option.isSome_iff_exists]
  rw [keys.mem_iff, List.mem_filter, ranked]
  exact ⟨fun member => member.2, fun member => ⟨inWindow.inside s member, member⟩⟩

theorem RanksIn.sorted {window : List Signal} (inWindow : RanksIn ranks window) :
    (byRank ranks).Pairwise fun s t => rankOf ranks s ≤ rankOf ranks t := by
  have sorted : (ranks.mergeSort fun a b => decide (a.2 ≤ b.2)).Pairwise fun a b =>
      decide (a.2 ≤ b.2) = true := by
    refine List.pairwise_mergeSort ?_ ?_ ranks
    · intro a b c first second
      rw [decide_eq_true_eq] at first second ⊢
      omega
    · intro a b
      rw [Bool.or_eq_true, decide_eq_true_eq, decide_eq_true_eq]
      omega
  have rank (entry : Signal × Nat)
      (member : entry ∈ ranks.mergeSort fun a b => decide (a.2 ≤ b.2)) :
      rankOf ranks entry.1 = entry.2 := by
    rw [rankOf, (Assoc.lookup_eq_some_iff_mem inWindow.keys).2 (List.mem_mergeSort.1 member)]
    rfl
  refine List.pairwise_map.2 (List.Pairwise.imp_of_mem ?_ sorted)
  intro a b isFirst isSecond lower
  rw [rank a isFirst, rank b isSecond]
  exact of_decide_eq_true lower

theorem rearrange?_eq_some {window segment : List Signal} (distinct : window.Nodup)
    (inWindow : RanksIn ranks window)
    (success : rearrange? ranks membership window = some segment) :
    segment.Perm window ∧ segment.map membership = window.map membership := by
  rw [rearrange?, Option.map_eq_some_iff] at success
  obtain ⟨scan, scanned, rfl⟩ := success
  have sorts := scan_sorts scanned
  have perm := inWindow.byRank_perm distinct
  have apart : (window.filter (isRanked ranks)).Pairwise fun s t =>
      membership s ≠ membership t → rankOf ranks s < rankOf ranks t := by
    apply ((sorts.apart.and (distinct.filter _))).imp_of_mem
    intro s t isFirst isSecond both differ
    obtain ⟨i, hi⟩ := Option.isSome_iff_exists.1 (List.mem_filter.1 isFirst).2
    obtain ⟨j, hj⟩ := Option.isSome_iff_exists.1 (List.mem_filter.1 isSecond).2
    have lower := both.1 differ
    have differ : i ≠ j := fun same => both.2 (inWindow.different s t i hi (same ▸ hj))
    rw [rankOf, rankOf, hi, hj, Option.getD_some, Option.getD_some] at lower ⊢
    omega
  have places := map_eq_of_sorted perm apart inWindow.sorted
  refine ⟨((perm.append_left _).append_right _).symm.trans sorts.perm, ?_⟩
  rw [← sorts.places, List.map_append, List.map_append, List.map_append, List.map_append, places]

end Refine

end BatchGraph
