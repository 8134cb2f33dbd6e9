import BatchGraph.Proofs.Distinct
import BatchGraph.Proofs.Except
import BatchGraph.Proofs.Order.Rearrange

/-!
A refinement pass never fails and keeps what it orders.

An arrangement of a starting order is a permutation of it in which every place has the membership
that it had at the start (`Arrangement.Arranges`).  Moving a block keeps this
(`Arranges.sortBlock`), and so does a pass, which also leaves every group its operators
(`exists_pass`), provided that every read block can be read (`Readable`).
-/

namespace BatchGraph

/-- Sorting first compares elements of the list. -/
theorem RunSort.mem_of_mem_firstComparisons {α : Type} (before : α → α → Bool) (shortest : Nat)
    (xs : List α) {pair : α × α} (member : pair ∈ firstComparisons before shortest xs) :
    pair.1 ∈ xs ∧ pair.2 ∈ xs := by
  fun_induction firstComparisons before shortest xs with
  | case1 => cases member
  | case2 x xs run further rest looksOn compared ih =>
    rcases List.mem_append.1 member with isHere | isLater
    · obtain ⟨isFirst, isSecond⟩ := List.of_mem_zip (a := pair.1) (b := pair.2) isHere
      exact ⟨List.mem_cons_of_mem x (List.mem_of_mem_take isFirst), isSecond⟩
    · obtain ⟨isFirst, isSecond⟩ := ih isLater
      exact ⟨List.mem_cons_of_mem x (List.mem_of_mem_drop isFirst),
        List.mem_cons_of_mem x (List.mem_of_mem_drop isSecond)⟩

namespace Refine

/-! ## Arrangements -/

namespace Arrangement

variable {membership : Signal → List Nat} {start : List Signal} {a : Arrangement}

/-- The arrangement holds the signals of an order in places of their memberships. -/
structure Arranges (membership : Signal → List Nat) (start : List Signal) (a : Arrangement) :
    Prop where
  perm : a.order.Perm start
  places : a.order.map membership = start.map membership
  positions : ∀ s i, a.order[i]? = some s → a.positions.lookup s = some i

theorem Arranges.ofOrder {order : List Signal} (distinct : start.Nodup) (perm : order.Perm start)
    (places : order.map membership = start.map membership) :
    Arranges membership start (.ofOrder order) where
  perm := perm
  places := places
  positions _ _ := (Assoc.lookup_lastPositions_iff (perm.nodup_iff.2 distinct)).2

theorem Arranges.exists_position (arranges : a.Arranges membership start) {s : Signal}
    (member : s ∈ start) : ∃ i, a.order[i]? = some s ∧ position a.positions s = .ok i := by
  obtain ⟨i, isAt⟩ := List.mem_iff_getElem?.1 (arranges.perm.mem_iff.2 member)
  refine ⟨i, isAt, ?_⟩
  rw [position, arranges.positions s i isAt]

theorem put_order {pre window post segment : List Signal} (split : a.order = pre ++ window ++ post)
    (length : segment.length = window.length) :
    (a.put pre.length segment).order = pre ++ segment ++ post := by
  induction segment generalizing a pre window with
  | nil =>
    rw [List.length_eq_zero_iff.1 length.symm] at split
    exact split
  | cons s segment ih =>
    cases window with
    | nil => cases length
    | cons w window =>
      have moved : a.order.set pre.length s = pre ++ [s] ++ window ++ post := by
        rw [split]
        simp
      have rest := ih (a := ⟨a.order.set pre.length s, Assoc.insert s pre.length a.positions⟩) moved
        (Nat.succ.inj length)
      rw [List.length_append, List.length_singleton] at rest
      rw [List.append_cons, ← rest]
      rfl

theorem put_positions (a : Arrangement) (first : Nat) (segment : List Signal) :
    (a.put first segment).positions =
      (segment.zipIdx first).foldl (fun map (s, i) => Assoc.insert s i map) a.positions := by
  induction segment generalizing a first with
  | nil => rfl
  | cons s segment ih =>
    exact ih ⟨a.order.set first s, Assoc.insert s first a.positions⟩ (first + 1)

theorem lookup_put_of_mem {segment : List Signal} (distinct : segment.Nodup) {first j : Nat}
    {s : Signal} (isIn : segment[j]? = some s) :
    (a.put first segment).positions.lookup s = some (first + j) := by
  have keys : (((segment.zipIdx first).reverse).map (·.1)).Nodup := by
    rw [List.map_reverse, List.nodup_reverse, List.zipIdx_map_fst]
    exact distinct
  rw [put_positions, Assoc.lookup_foldl_insert, (Assoc.lookup_eq_some_iff_mem keys).2
    (List.mem_reverse.2 (List.mk_add_mem_zipIdx_iff_getElem?.2 isIn))]
  rfl

theorem lookup_put_of_not_mem {segment : List Signal} {s : Signal} (apart : s ∉ segment)
    (first : Nat) : (a.put first segment).positions.lookup s = a.positions.lookup s := by
  have missing : (segment.zipIdx first).reverse.lookup s = none := by
    apply List.lookup_eq_none_iff.2
    intro entry member
    have isKey := List.fst_mem_of_mem_zipIdx (List.mem_reverse.1 member)
    exact bne_iff_ne.2 fun same => apart (by rwa [same])
  rw [put_positions, Assoc.lookup_foldl_insert, missing, Option.none_or]

/-- What is not put into a window stays in its place. -/
theorem getElem?_of_not_mem_segment {pre window post segment : List Signal}
    (length : segment.length = window.length) {s : Signal} (apart : s ∉ segment) {i : Nat}
    (isAt : (pre ++ segment ++ post)[i]? = some s) : (pre ++ window ++ post)[i]? = some s := by
  rw [List.append_assoc] at isAt ⊢
  rcases Nat.lt_or_ge i pre.length with inFront | behind
  · rw [List.getElem?_append_left inFront] at isAt ⊢
    exact isAt
  rw [List.getElem?_append_right behind] at isAt ⊢
  rcases Nat.lt_or_ge (i - pre.length) segment.length with inside | after
  · rw [List.getElem?_append_left inside] at isAt
    exact absurd (List.mem_of_getElem? isAt) apart
  · rw [List.getElem?_append_right after] at isAt
    rw [List.getElem?_append_right (by rwa [← length]), ← length]
    exact isAt

theorem Arranges.put (arranges : a.Arranges membership start) (distinct : start.Nodup)
    {pre window post segment : List Signal} (split : a.order = pre ++ window ++ post)
    (perm : segment.Perm window) (places : segment.map membership = window.map membership) :
    (a.put pre.length segment).Arranges membership start := by
  have order := put_order split perm.length_eq
  have isPerm : (pre ++ segment ++ post).Perm start := by
    refine List.Perm.trans ?_ arranges.perm
    rw [split]
    exact (perm.append_left pre).append_right post
  have nodup := isPerm.nodup_iff.2 distinct
  refine ⟨by rw [order]; exact isPerm, ?_, fun s i isAt => ?_⟩
  · rw [order, ← arranges.places, split]
    simp only [List.map_append, places]
  rw [order] at isAt
  by_cases moved : s ∈ segment
  case pos =>
    obtain ⟨j, isIn⟩ := List.mem_iff_getElem?.1 moved
    have isThere : (pre ++ segment ++ post)[pre.length + j]? = some s := by
      have inside := List.getElem?_eq_some_iff.1 isIn
      rw [List.append_assoc, List.getElem?_append_right (Nat.le_add_right _ _),
        Nat.add_sub_cancel_left, List.getElem?_append_left inside.1, isIn]
    rw [Distinct.eq_of_getElem? nodup isAt isThere]
    exact lookup_put_of_mem (List.nodup_append.1 (List.nodup_append.1 nodup).1).2.1 isIn
  case neg =>
    rw [lookup_put_of_not_mem moved]
    apply arranges.positions s i
    rw [split]
    exact getElem?_of_not_mem_segment perm.length_eq moved isAt

/-! ## Moving a block -/

variable {analysis : ReadAnalysis} {ops : List Operator} {slot : Nat}

/-- The operators read a signal of the order at the slot. -/
def Reads (analysis : ReadAnalysis) (start : List Signal) (ops : List Operator) (slot : Nat) :
    Prop :=
  ∀ op ∈ ops, ∃ s, ReadAnalysis.readAt analysis.reads op slot = .ok s ∧ s.root ∈ start

/-- The window of an order that some of its positions span. -/
theorem exists_window {order : List Signal} {places : List Nat} {first last : Nat}
    (inside : ∀ i ∈ places, i < order.length) (least : places.min? = some first)
    (greatest : places.max? = some last) :
    ∃ pre post, pre.length = first ∧
      order = pre ++ (order.drop first).take (last + 1 - first) ++ post ∧
      (∀ i ∈ places, ∀ s, order[i]? = some s → s ∈ (order.drop first).take (last + 1 - first)) ∧
      ((order.drop first).take (last + 1 - first)).head? = order[first]? ∧
      ((order.drop first).take (last + 1 - first)).getLast? = order[last]? := by
  obtain ⟨isPlace, lower⟩ := List.min?_eq_some_iff.1 least
  obtain ⟨isLast, upper⟩ := List.max?_eq_some_iff.1 greatest
  have inFront := inside first isPlace
  have ordered := lower last isLast
  have bounded := inside last isLast
  refine ⟨order.take first, (order.drop first).drop (last + 1 - first), ?_, ?_, ?_, ?_, ?_⟩
  · rw [List.length_take]
    omega
  · rw [List.append_assoc, List.take_append_drop, List.take_append_drop]
  · intro i isIn s isAt
    have atLeast := lower i isIn
    have atMost := upper i isIn
    apply List.mem_of_getElem? (i := i - first)
    rw [List.getElem?_take_of_lt (by omega), List.getElem?_drop, Nat.add_sub_cancel' atLeast]
    exact isAt
  · rw [List.head?_take, if_neg (by omega), List.head?_drop]
  · have length : ((order.drop first).take (last + 1 - first)).length = last + 1 - first := by
      rw [List.length_take, List.length_drop]
      omega
    have isPlace' : first + (last + 1 - first - 1) = last := by omega
    rw [List.getLast?_eq_getElem?, length, List.getElem?_take_of_lt (by omega), List.getElem?_drop,
      isPlace']

theorem Reads.exists_read (reads : Reads analysis start ops slot) :
    ∃ read, ops.mapM (fun op => ReadAnalysis.readAt analysis.reads op slot) = .ok read ∧
      ∀ s ∈ read, s.root ∈ start := by
  have step : ∀ op ∈ ops, ∃ s, ReadAnalysis.readAt analysis.reads op slot = .ok s := by
    intro op member
    obtain ⟨s, isRead, -⟩ := reads op member
    exact ⟨s, isRead⟩
  obtain ⟨read, isRead⟩ := Except.exists_mapM_eq_ok step
  refine ⟨read, isRead, fun s member => ?_⟩
  obtain ⟨op, isOp, result⟩ := Except.exists_of_mem_result isRead member
  obtain ⟨s', isRead', inside⟩ := reads op isOp
  cases result.symm.trans isRead'
  exact inside

/-- The positions of some signals of the order. -/
theorem Arranges.exists_places (arranges : a.Arranges membership start)
    {ranks : List (Signal × Nat)} (inside : ∀ s ∈ ranks.map (·.1), s ∈ start) :
    ∃ places, ranks.mapM (fun (s, _) => position a.positions s) = .ok places ∧
      (∀ i ∈ places, ∃ s ∈ ranks.map (·.1), a.order[i]? = some s) ∧
      ∀ s ∈ ranks.map (·.1), ∃ i ∈ places, a.order[i]? = some s := by
  have found : ∀ entry ∈ ranks, ∃ i, a.order[i]? = some entry.1 ∧
      position a.positions entry.1 = .ok i := fun entry member =>
    arranges.exists_position (inside _ (List.mem_map_of_mem member))
  have step : ∀ entry ∈ ranks, ∃ i, position a.positions entry.1 = .ok i := by
    intro entry member
    obtain ⟨i, -, result⟩ := found entry member
    exact ⟨i, result⟩
  obtain ⟨places, arePlaces⟩ := Except.exists_mapM_eq_ok step
  refine ⟨places, arePlaces, fun i isPlace => ?_, List.forall_mem_map.2 fun entry member => ?_⟩
  · obtain ⟨entry, member, result⟩ := Except.exists_of_mem_result arePlaces isPlace
    obtain ⟨i', isAt, result'⟩ := found entry member
    cases result.symm.trans result'
    exact ⟨entry.1, List.mem_map_of_mem member, isAt⟩
  · obtain ⟨i, isPlace, result⟩ := Except.exists_result_of_mem arePlaces member
    obtain ⟨i', isAt, result'⟩ := found entry member
    cases result.symm.trans result'
    exact ⟨i, isPlace, isAt⟩

theorem ranksIn_lastPositions {bases window : List Signal}
    (inside : ∀ s ∈ (Assoc.lastPositions bases).map (·.1), s ∈ window) :
    RanksIn (Assoc.lastPositions bases) window where
  keys := Assoc.nodup_keys_lastPositions bases
  inside := inside
  different _ _ _ isFirst isSecond :=
    Option.some.inj ((Assoc.getElem?_of_lookup_lastPositions isFirst).symm.trans
      (Assoc.getElem?_of_lookup_lastPositions isSecond))

theorem isRanked_iff {ranks : List (Signal × Nat)} {s : Signal} :
    isRanked ranks s = true ↔ s ∈ ranks.map (·.1) := by
  rw [Assoc.mem_keys_iff, isRanked, Option.isSome_iff_exists]

/-- The window, which is a part of the order between two of the ranked signals, holds all of
them. -/
structure Spans (ranks : List (Signal × Nat)) (order pre window post : List Signal) : Prop where
  split : order = pre ++ window ++ post
  ranksIn : RanksIn ranks window
  head : ∀ s ∈ window.head?, isRanked ranks s = true
  last : ∀ s ∈ window.getLast?, isRanked ranks s = true

/-- The bases span the window between the least and the greatest of their positions. -/
theorem Arranges.exists_spans (arranges : a.Arranges membership start) {bases : List Signal}
    {ranks : List (Signal × Nat)} (areRanks : Assoc.lastPositions bases = ranks)
    (inside : ∀ s ∈ ranks.map (·.1), s ∈ start) {places : List Nat}
    (arePlaces : ranks.mapM (fun (s, _) => position a.positions s) = .ok places)
    {first last : Nat} (least : places.min? = some first) (greatest : places.max? = some last) :
    ∃ pre post, pre.length = first ∧
      Spans ranks a.order pre ((a.order.drop first).take (last + 1 - first)) post := by
  obtain ⟨places', arePlaces', ranked, placed⟩ := arranges.exists_places inside
  cases arePlaces.symm.trans arePlaces'
  have bounded : ∀ i ∈ places, i < a.order.length := by
    intro i isPlace
    obtain ⟨s, -, isAt⟩ := ranked i isPlace
    exact (List.getElem?_eq_some_iff.1 isAt).1
  have isRankedAt {i : Nat} (isPlace : i ∈ places) : ∀ s ∈ a.order[i]?, isRanked ranks s = true := by
    intro s isAt
    obtain ⟨t, isKey, isAt'⟩ := ranked i isPlace
    cases isAt.symm.trans isAt'
    exact isRanked_iff.2 isKey
  obtain ⟨pre, post, isFirst, split, spanned, head, last_⟩ :=
    exists_window bounded least greatest
  refine ⟨pre, post, isFirst, split, ?_, ?_, ?_⟩
  · subst areRanks
    refine ranksIn_lastPositions fun s isKey => ?_
    obtain ⟨i, isPlace, isAt⟩ := placed s isKey
    exact spanned i isPlace s isAt
  · rw [head]
    exact isRankedAt (List.min?_eq_some_iff.1 least).1
  · rw [last_]
    exact isRankedAt (List.max?_eq_some_iff.1 greatest).1

/-- A single base stays where it is; several are moved within the window that they span, if that
can be rearranged. -/
theorem Arranges.sortBlock_cases (arranges : a.Arranges membership start) {read : List Signal}
    (isRead : ops.mapM (fun op => ReadAnalysis.readAt analysis.reads op slot) = .ok read)
    (roots : ∀ s ∈ read, s.root ∈ start) {ranks : List (Signal × Nat)}
    (areRanks : Assoc.lastPositions (read.map Signal.root) = ranks) :
    ranks.length = 1 ∧ Arrangement.sortBlock analysis ops a slot = .ok a ∨
      ∃ pre window post, Spans ranks a.order pre window post ∧
        Arrangement.sortBlock analysis ops a slot =
          .ok ((rearrange? ranks analysis.membership window).elim a (a.put pre.length)) := by
  have inside : ∀ s ∈ ranks.map (·.1), s ∈ start := by
    intro s isKey
    rw [← areRanks, Assoc.mem_keys_lastPositions] at isKey
    obtain ⟨t, member, rfl⟩ := List.mem_map.1 isKey
    exact roots t member
  obtain ⟨places, arePlaces, -⟩ := arranges.exists_places inside
  rw [Arrangement.sortBlock, isRead, Except.ok_bind]
  dsimp only
  rw [areRanks]
  split
  case isTrue single => exact .inl ⟨single, rfl⟩
  refine .inr ?_
  rw [arePlaces, Except.ok_bind]
  split
  case h_1 first last least greatest =>
    obtain ⟨pre, post, isFirst, spans⟩ :=
      arranges.exists_spans areRanks inside arePlaces least greatest
    refine ⟨pre, _, post, spans, ?_⟩
    rw [isFirst]
    cases rearrange? ranks analysis.membership ((a.order.drop first).take (last + 1 - first)) <;> rfl
  case h_2 none_ =>
    -- Only without any operators are there no positions.
    have noPlaces : places = [] := by
      by_contra some_
      obtain ⟨first, least⟩ := Option.isSome_iff_exists.1 (List.isSome_min?_of_ne_nil some_)
      obtain ⟨last, greatest⟩ := Option.isSome_iff_exists.1 (List.isSome_max?_of_ne_nil some_)
      exact none_ first last least greatest
    have noRanks : ranks = [] := by
      have length := (Except.forall₂_of_mapM_eq_ok arePlaces).length_eq
      rwa [noPlaces, List.length_nil, List.length_eq_zero_iff] at length
    subst noRanks
    refine ⟨[], [], a.order, ⟨rfl, ⟨.nil, by simp, by simp⟩, by simp, by simp⟩, congrArg Except.ok ?_⟩
    simp [rearrange?, byRank, Arrangement.put]

theorem Arranges.sortBlock (distinct : start.Nodup) (reads : Reads analysis start ops slot)
    (arranges : a.Arranges analysis.membership start) :
    ∃ a', Arrangement.sortBlock analysis ops a slot = .ok a' ∧
      a'.Arranges analysis.membership start := by
  obtain ⟨read, isRead, roots⟩ := reads.exists_read
  rcases arranges.sortBlock_cases isRead roots rfl with
    ⟨-, result⟩ | ⟨pre, window, post, spans, result⟩
  · exact ⟨a, result, arranges⟩
  refine ⟨_, result, ?_⟩
  cases success : rearrange? _ analysis.membership window with
  | none => exact arranges
  | some segment =>
    have nodup := arranges.perm.nodup_iff.2 distinct
    rw [spans.split] at nodup
    obtain ⟨perm, kept⟩ := rearrange?_eq_some
      (List.nodup_append.1 (List.nodup_append.1 nodup).1).2.1 spans.ranksIn success
    exact arranges.put distinct spans.split perm kept

end Arrangement

/-! ## Sorting the operators -/

variable {analysis : ReadAnalysis} {start : List Signal} {ops : List Operator} {slot : Nat}

theorem checkKeys_eq_ok {positions : Positions}
    (step : ∀ op ∈ ops, ∃ key, readKey analysis positions slot op = .ok key) :
    checkKeys analysis positions slot ops = .ok () := by
  have found {op : Operator} (member : op ∈ ops) :
      ∃ s i, ReadAnalysis.readAt analysis.reads op slot = .ok s ∧
        position positions s.root = .ok i := by
    obtain ⟨key, isKey⟩ := step op member
    obtain ⟨s, isRead, isKey⟩ := Except.bind_eq_ok_iff.1 isKey
    obtain ⟨i, isAt, -⟩ := Except.bind_eq_ok_iff.1 isKey
    exact ⟨s, i, isRead, isAt⟩
  apply Except.forM_eq_ok
  intro pair member
  obtain ⟨isFirst, isSecond⟩ := RunSort.mem_of_mem_firstComparisons _ _ ops member
  obtain ⟨s, i, readFirst, placeFirst⟩ := found isFirst
  obtain ⟨t, j, readSecond, placeSecond⟩ := found isSecond
  rw [checkPair, readFirst, readSecond, Except.ok_bind, Except.ok_bind, placeFirst, placeSecond]
  rfl

/-- Sorting keeps the operators. -/
theorem sortOperators_perm {positions : Positions} {sorted : List Operator}
    (success : sortOperators analysis positions slot ops = .ok sorted) : sorted.Perm ops := by
  obtain ⟨-, -, success⟩ := Except.bind_eq_ok_iff.1 success
  obtain ⟨keys, areKeys, success⟩ := Except.bind_eq_ok_iff.1 success
  cases success
  have length := (Except.forall₂_of_mapM_eq_ok areKeys).length_eq
  apply ((RunSort.stableSort_perm _ _ _).map _).trans
  rw [List.map_fst_zip (Nat.le_of_eq length)]

theorem exists_sortOperators {a : Arrangement}
    (arranges : a.Arranges analysis.membership start)
    (reads : Arrangement.Reads analysis start ops slot) :
    ∃ sorted, sortOperators analysis a.positions slot ops = .ok sorted ∧ sorted.Perm ops := by
  have step : ∀ op ∈ ops, ∃ key, readKey analysis a.positions slot op = .ok key := by
    intro op member
    obtain ⟨s, isRead, inside⟩ := reads op member
    obtain ⟨i, -, isAt⟩ := arranges.exists_position inside
    refine ⟨(i, s.offset), ?_⟩
    rw [readKey, isRead, Except.ok_bind, isAt]
    rfl
  obtain ⟨keys, areKeys⟩ := Except.exists_mapM_eq_ok step
  have success : ∃ sorted, sortOperators analysis a.positions slot ops = .ok sorted := by
    rw [sortOperators, checkKeys_eq_ok step, Except.ok_bind, areKeys]
    exact ⟨_, rfl⟩
  obtain ⟨sorted, isSorted⟩ := success
  exact ⟨sorted, isSorted, sortOperators_perm isSorted⟩

/-! ## Passes -/

/-- Every read block belongs to a group whose operators all read at its slot. -/
def Readable (analysis : ReadAnalysis) (plan : List (List Operator)) (start : List Signal) : Prop :=
  ∀ block ∈ analysis.sortedReads, ∃ ops, plan[block.group]? = some ops ∧
    Arrangement.Reads analysis start ops block.slot

/-- Every group has the operators that it has in the plan. -/
abbrev SameGroups (plan groups : List (List Operator)) : Prop := List.Forall₂ List.Perm plan groups

theorem SameGroups.exists_group {plan groups : List (List Operator)}
    (same : SameGroups plan groups) {i : Nat} {group : List Operator}
    (isAt : plan[i]? = some group) : ∃ group', groups[i]? = some group' ∧ group.Perm group' := by
  induction same generalizing i with
  | nil => cases isAt
  | cons first _ ih =>
    cases i with
    | zero =>
      cases isAt
      exact ⟨_, rfl, first⟩
    | succ i => exact ih isAt

theorem SameGroups.symm {plan groups : List (List Operator)} (same : SameGroups plan groups) :
    SameGroups groups plan :=
  same.flip.imp fun _ _ perm => perm.symm

theorem SameGroups.set {plan groups : List (List Operator)} (same : SameGroups plan groups)
    {i : Nat} {group group' : List Operator} (isAt : plan[i]? = some group)
    (perm : group.Perm group') : SameGroups plan (groups.set i group') := by
  induction same generalizing i with
  | nil => exact .nil
  | cons first rest ih =>
    cases i with
    | zero =>
      cases isAt
      exact .cons perm rest
    | succ i => exact .cons first (ih isAt)

/-- What every visit of a pass keeps. -/
structure Keeps (analysis : ReadAnalysis) (plan : List (List Operator)) (start : List Signal)
    (state : Arrangement × List (List Operator)) : Prop where
  arranges : state.1.Arranges analysis.membership start
  groups : SameGroups plan state.2

/-- A visit keeps the arrangement and the operators of every group. -/
theorem exists_visit {plan : List (List Operator)} (distinct : start.Nodup)
    (readable : Readable analysis plan start)
    {state : Arrangement × List (List Operator)} (keeps : Keeps analysis plan start state)
    {block : ReadBlock} (member : block ∈ analysis.sortedReads) :
    ∃ next, visit analysis state block = .ok next ∧ Keeps analysis plan start next := by
  obtain ⟨a, groups⟩ := state
  obtain ⟨arranges, same⟩ := keeps
  dsimp only at arranges same
  obtain ⟨group, isGroup, reads⟩ := readable block member
  obtain ⟨ops, isHeld, perm⟩ := same.exists_group isGroup
  unfold visit
  dsimp only
  split
  case h_1 missing =>
    rw [isHeld] at missing
    cases missing
  case h_2 => exact ⟨(a, groups), rfl, arranges, same⟩
  case h_3 ops' _ found =>
    cases isHeld.symm.trans found
    have readsHere : Arrangement.Reads analysis start ops block.slot := fun op member =>
      reads op (perm.mem_iff.2 member)
    obtain ⟨sorted, isSorted, permuted⟩ := exists_sortOperators arranges readsHere
    have regrouped : group.Perm sorted := perm.trans permuted.symm
    have step (a : Arrangement) (arranges : a.Arranges analysis.membership start) :
        ∀ slot ∈ (analysis.sortedReads.filter (·.group = block.group)).map (·.slot),
          ∃ a', Arrangement.sortBlock analysis sorted a slot = .ok a' ∧
            a'.Arranges analysis.membership start := by
      intro slot isSlot
      obtain ⟨other, isOther, rfl⟩ := List.mem_map.1 isSlot
      obtain ⟨isRead, sameGroup⟩ := List.mem_filter.1 isOther
      obtain ⟨group', isGroup', reads'⟩ := readable other isRead
      rw [of_decide_eq_true sameGroup, isGroup] at isGroup'
      cases isGroup'
      exact arranges.sortBlock distinct fun op member => reads' op (regrouped.mem_iff.2 member)
    obtain ⟨a', moved, kept⟩ := Except.foldlM_eq_ok _ arranges step
    refine ⟨(a', groups.set block.group sorted), ?_, kept, same.set isGroup regrouped⟩
    rw [isSorted, Except.ok_bind, moved]
    rfl

/-- A pass succeeds, and keeps the memberships of the places and the operators of the groups. -/
theorem exists_pass {plan : List (List Operator)} (distinct : start.Nodup)
    (readable : Readable analysis plan start) {state : OrderState}
    (perm : state.order.Perm start)
    (places : state.order.map analysis.membership = start.map analysis.membership)
    (same : SameGroups plan state.groups) :
    ∃ next, pass analysis state = .ok next ∧ next.order.Perm start ∧
      next.order.map analysis.membership = start.map analysis.membership ∧
      SameGroups plan next.groups := by
  have initial : Keeps analysis plan start (.ofOrder state.order, state.groups) :=
    ⟨.ofOrder distinct perm places, same⟩
  obtain ⟨⟨a, groups⟩, passed, arranges, kept⟩ :=
    Except.foldlM_eq_ok (Keeps analysis plan start) initial fun _ keeps _ member =>
      exists_visit distinct readable keeps member
  refine ⟨⟨a.order, groups⟩, ?_, arranges.perm, arranges.places, kept⟩
  rw [pass, passed]
  rfl

end Refine

end BatchGraph
