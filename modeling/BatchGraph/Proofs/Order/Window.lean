import BatchGraph.Proofs.Order.Refine

/-!
A window that is rearranged holds nothing but the bases of its block.

The bases of one membership are read together or not at all (`Closed`), and a window begins and ends
with a base that is read.  A signal in between that is not read would have to leave its membership,
so then the window stays as it is (`rearrange?_exact`).  A window of bases that are all read is
rearranged if their ranks rise from one membership to the next (`exists_rearrange?`).

Hence moving a block leaves all other signals in their positions, and orders its own bases by their
ranks (`Moves`).
-/

namespace BatchGraph

namespace Refine

variable {ranks : List (Signal × Nat)} {membership : Signal → List Nat}

/-! ## Rearranging -/

/-- Of one membership all signals are read or none. -/
def Closed (ranks : List (Signal × Nat)) (membership : Signal → List Nat) : Prop :=
  ∀ s t, membership s = membership t → isRanked ranks s = true → isRanked ranks t = true

theorem rearrange?_exact {window segment : List Signal} (distinct : window.Nodup)
    (closed : Closed ranks membership) (head : ∀ s ∈ window.head?, isRanked ranks s = true)
    (last : ∀ s ∈ window.getLast?, isRanked ranks s = true)
    (success : rearrange? ranks membership window = some segment) :
    segment = byRank ranks ∧ ∀ s ∈ window, isRanked ranks s = true := by
  rw [rearrange?, Option.map_eq_some_iff] at success
  obtain ⟨scan, scanned, rfl⟩ := success
  have sorts := scan_sorts scanned
  have nodup := sorts.perm.nodup_iff.2 distinct
  have unread (s : Signal) (outside : s ∈ scan.before ∨ s ∈ scan.behind) :
      ¬ isRanked ranks s = true := by
    intro isRead
    have inWindow : s ∈ window := sorts.perm.mem_iff.1 <| by
      rcases outside with isBefore | isBehind
      · simp [isBefore]
      · simp [isBehind]
    have inside : s ∈ window.filter (isRanked ranks) := List.mem_filter.2 ⟨inWindow, isRead⟩
    obtain ⟨front, -, apart⟩ := List.nodup_append.1 nodup
    rcases outside with isBefore | isBehind
    · exact (List.nodup_append.1 front).2.2 s isBefore s inside rfl
    · exact apart s (List.mem_append_right _ inside) s isBehind rfl
  -- What stands behind has the membership of the last signal, and that one is read.
  have behind : scan.behind = [] := by
    refine List.eq_nil_iff_forall_not_mem.2 fun s isBehind => ?_
    have current := sorts.behind s isBehind
    rw [sorts.current, Option.map_eq_some_iff] at current
    obtain ⟨t, isLast, same⟩ := current
    exact unread s (.inr isBehind) (closed t s same (last t isLast))
  -- What stands in front takes the place of the first one.
  have before : scan.before = [] := by
    cases isBefore : scan.before with
    | nil => rfl
    | cons s rest =>
      have places := congrArg List.head? sorts.places
      rw [isBefore, List.head?_map, List.head?_map, List.append_assoc, List.cons_append,
        List.head?_cons, Option.map_some, eq_comm, Option.map_eq_some_iff] at places
      obtain ⟨t, isFirst, same⟩ := places
      refine absurd (closed t s same (head t isFirst)) (unread s (.inl ?_))
      rw [isBefore]
      exact List.mem_cons_self
  have perm := sorts.perm
  rw [behind, before, List.nil_append, List.append_nil] at perm
  refine ⟨?_, fun s member => (List.mem_filter.1 (perm.mem_iff.2 member)).2⟩
  rw [behind, before, List.nil_append, List.append_nil]

/-- A scan goes on over signals that are read, as long as no rank is below one of an earlier
membership. -/
theorem exists_scan {rest : List Signal} {scan : Scan} (empty : scan.behind = [])
    (ranked : ∀ s ∈ rest, isRanked ranks s = true)
    (rises : rest.Pairwise fun s t => membership s ≠ membership t → rankOf ranks s ≤ rankOf ranks t)
    (current : ∀ s ∈ rest, scan.membership = some (membership s) →
      scan.highestBefore ≤ rankOf ranks s)
    (entered : ∀ s ∈ rest, scan.membership ≠ some (membership s) →
      scan.highest ≤ rankOf ranks s) :
    ∃ last, rest.foldlM (Scan.step ranks membership) scan = some last := by
  induction rest generalizing scan with
  | nil => exact ⟨scan, rfl⟩
  | cons s rest ih =>
    obtain ⟨isRead, ranked⟩ := List.forall_mem_cons.1 ranked
    obtain ⟨above, rises⟩ := List.pairwise_cons.1 rises
    obtain ⟨here, current⟩ := List.forall_mem_cons.1 current
    obtain ⟨here', entered⟩ := List.forall_mem_cons.1 entered
    obtain ⟨rank, found⟩ := Option.isSome_iff_exists.1 isRead
    have isRank : rankOf ranks s = rank := by rw [rankOf, found]; rfl
    rw [isRank] at here here' above
    rw [List.foldlM_cons, Option.bind_eq_bind]
    by_cases same : scan.membership = some (membership s)
    case pos =>
      have inOrder : ¬ (rank : Int) < scan.highestBefore := by
        have := here same
        omega
      have step : Scan.step ranks membership scan s =
          some { scan with highest := max scan.highest rank } := by
        simp [Scan.step, same, found, inOrder]
      rw [step, Option.bind_some]
      refine ih empty ranked rises current fun t isT differ => ?_
      have least := entered t isT differ
      have more := above t isT fun equal => differ (same.trans (congrArg some equal))
      have bound : max scan.highest (rank : Int) ≤ rankOf ranks t := by omega
      exact bound
    case neg =>
      have inOrder : ¬ (rank : Int) < (scan.enter (membership s)).highestBefore := by
        have : scan.highest ≤ rank := here' same
        have : (scan.enter (membership s)).highestBefore = scan.highest := rfl
        omega
      have step : Scan.step ranks membership scan s =
          some { scan.enter (membership s) with highest := max (-1) rank } := by
        simp only [Scan.step, same, ne_eq, not_false_eq_true, decide_true, Bool.true_and, empty,
          List.isEmpty_nil, Bool.not_true, Bool.false_eq_true, if_false, if_true, found, inOrder]
        rfl
      rw [step, Option.bind_some]
      refine ih empty ranked rises (fun t isT equal => ?_) fun t isT differ => ?_
      · have equal' : membership s = membership t := Option.some.inj equal
        exact entered t isT (equal' ▸ same)
      · have more := above t isT fun equal => differ (congrArg some equal)
        have bound : max (-1) (rank : Int) ≤ rankOf ranks t := by omega
        exact bound

theorem exists_rearrange? {window : List Signal} (ranked : ∀ s ∈ window, isRanked ranks s = true)
    (rises : window.Pairwise fun s t =>
      membership s ≠ membership t → rankOf ranks s ≤ rankOf ranks t) :
    ∃ segment, rearrange? ranks membership window = some segment := by
  have start : ({} : Scan).highest = -1 := rfl
  obtain ⟨scan, scanned⟩ : ∃ scan, window.foldlM (Scan.step ranks membership) {} = some scan :=
    exists_scan rfl ranked rises (fun _ _ same => (nomatch same)) fun s _ _ => by omega
  exact ⟨_, by rw [rearrange?, scanned]; rfl⟩

/-! ## Moves -/

/-- The ranked signals, which stand next to each other, are brought into the order of their
ranks. -/
structure Moves (ranks : List (Signal × Nat)) (order order' : List Signal) : Prop where
  exists_window : ∃ pre window post, order = pre ++ window ++ post ∧ RanksIn ranks window ∧
    window.Perm (byRank ranks) ∧ order' = pre ++ byRank ranks ++ post

theorem mem_byRank {s : Signal} : s ∈ byRank ranks ↔ isRanked ranks s = true := by
  have keys : (byRank ranks).Perm (ranks.map (·.1)) := (List.mergeSort_perm _ _).map _
  rw [keys.mem_iff, Arrangement.isRanked_iff]

theorem RanksIn.rankOf_inj {window : List Signal} (ranksIn : RanksIn ranks window) {s t : Signal}
    (isRead : isRanked ranks s = true) (isRead' : isRanked ranks t = true)
    (same : rankOf ranks s = rankOf ranks t) : s = t := by
  obtain ⟨i, found⟩ := Option.isSome_iff_exists.1 isRead
  obtain ⟨j, found'⟩ := Option.isSome_iff_exists.1 isRead'
  rw [rankOf, rankOf, found, found'] at same
  cases same
  exact ranksIn.different s t _ found found'

namespace Moves

variable {order order' : List Signal} (moves : Moves ranks order order')

include moves

/-- What is not read stays in its position. -/
theorem idxOf_eq {s : Signal} (apart : isRanked ranks s = false) :
    order'.idxOf s = order.idxOf s := by
  obtain ⟨pre, window, post, rfl, -, perm, rfl⟩ := moves.exists_window
  have outside : s ∉ byRank ranks := fun member => by
    rw [mem_byRank.1 member] at apart
    cases apart
  have outside' : s ∉ window := fun member => outside (perm.mem_iff.1 member)
  simp only [List.append_assoc, List.idxOf_append, outside, outside', if_false, perm.length_eq]

/-- What is read is in the order of its ranks. -/
theorem idxOf_lt_iff (distinct : order.Nodup) {s t : Signal} (isRead : isRanked ranks s = true)
    (isRead' : isRanked ranks t = true) :
    order'.idxOf s < order'.idxOf t ↔ rankOf ranks s < rankOf ranks t := by
  obtain ⟨pre, window, post, rfl, ranksIn, perm, rfl⟩ := moves.exists_window
  have position {u : Signal} (isRead : isRanked ranks u = true) :
      (pre ++ byRank ranks ++ post).idxOf u = (byRank ranks).idxOf u + pre.length := by
    have member := mem_byRank.2 isRead
    have outside : u ∉ pre := fun inFront => by
      obtain ⟨front, -, -⟩ := List.nodup_append.1 distinct
      exact (List.nodup_append.1 front).2.2 u inFront u (perm.mem_iff.2 member) rfl
    rw [List.append_assoc, List.idxOf_append_of_notMem outside, List.idxOf_append_of_mem member,
      Nat.add_comm]
  rw [position isRead, position isRead', Nat.add_lt_add_iff_right]
  constructor
  · intro less
    have le := Distinct.rel_of_idxOf_lt ranksIn.sorted (mem_byRank.2 isRead') less
    refine Nat.lt_of_le_of_ne le fun same => ?_
    rw [ranksIn.rankOf_inj isRead isRead' same] at less
    exact Nat.lt_irrefl _ less
  · intro less
    by_contra notLess
    rcases Nat.lt_or_eq_of_le (Nat.not_lt.1 notLess) with behind | same
    · exact Nat.not_lt.2 (Distinct.rel_of_idxOf_lt ranksIn.sorted (mem_byRank.2 isRead) behind) less
    · rw [Distinct.idxOf_inj (mem_byRank.2 isRead') same] at less
      exact Nat.lt_irrefl _ less

end Moves

/-! ## Moving a block -/

/-- Between two of the bases stand no others. -/
def Unbroken (order bases : List Signal) : Prop :=
  ∀ s ∈ bases, ∀ u ∈ bases, ∀ t ∈ order, order.idxOf s ≤ order.idxOf t →
    order.idxOf t ≤ order.idxOf u → t ∈ bases

namespace Arrangement

variable {analysis : ReadAnalysis} {ops : List Operator} {slot : Nat} {start read : List Signal}
  {a a' : Arrangement}

theorem Spans.sublist {order pre window post : List Signal}
    (spans : Spans ranks order pre window post) : window.Sublist order := by
  rw [spans.split]
  exact (List.sublist_append_right pre window).trans (List.sublist_append_left _ post)

/-- A window that can be rearranged is moved as a whole. -/
theorem Spans.moves {pre window post segment : List Signal}
    (spans : Spans ranks a.order pre window post) (distinct : a.order.Nodup)
    (closed : Closed ranks membership) (possible : rearrange? ranks membership window = some segment) :
    Moves ranks a.order (a.put pre.length segment).order := by
  have inWindow := distinct.sublist spans.sublist
  obtain ⟨perm, -⟩ := rearrange?_eq_some inWindow spans.ranksIn possible
  obtain ⟨rfl, -⟩ := rearrange?_exact inWindow closed spans.head spans.last possible
  exact ⟨pre, window, post, spans.split, spans.ranksIn, perm.symm,
    put_order spans.split perm.length_eq⟩

/-- The window of bases that follow each other holds only these. -/
theorem Spans.ranked_of_unbroken {order pre window post bases : List Signal}
    (spans : Spans ranks order pre window post) (distinct : order.Nodup)
    (areBases : ∀ s, isRanked ranks s = true ↔ s ∈ bases) (unbroken : Unbroken order bases) :
    ∀ t ∈ window, isRanked ranks t = true := by
  have rises := (Distinct.pairwise_idxOf_lt distinct).sublist spans.sublist
  intro t member
  have some_ := List.ne_nil_of_mem member
  have isFirst := List.head?_eq_some_head some_
  have isLast := List.getLast?_eq_some_getLast some_
  rw [areBases]
  refine unbroken _ ((areBases _).1 (spans.head _ isFirst)) _ ((areBases _).1 (spans.last _ isLast))
    t (spans.sublist.subset member) ?_ ?_
  · obtain ⟨rest, parts⟩ := List.head?_eq_some_iff.1 isFirst
    rw [parts] at rises member
    rcases List.mem_cons.1 member with same | later
    · exact Nat.le_of_eq (congrArg (order.idxOf ·) same.symm)
    · exact Nat.le_of_lt ((List.pairwise_cons.1 rises).1 t later)
  · obtain ⟨rest, parts⟩ := List.getLast?_eq_some_iff.1 isLast
    rw [parts] at rises member
    rcases List.mem_append.1 member with earlier | same
    · exact Nat.le_of_lt ((List.pairwise_append.1 rises).2.2 t earlier _ List.mem_cons_self)
    · exact Nat.le_of_eq (congrArg (order.idxOf ·) (List.mem_singleton.1 same))

section Block

variable (distinct : start.Nodup) (arranges : a.Arranges analysis.membership start)
  (isRead : ops.mapM (fun op => ReadAnalysis.readAt analysis.reads op slot) = .ok read)
  (roots : ∀ s ∈ read, s.root ∈ start)
  (areRanks : Assoc.lastPositions (read.map Signal.root) = ranks)
  (closed : Closed ranks analysis.membership)
  (success : Arrangement.sortBlock analysis ops a slot = .ok a')

include distinct arranges isRead roots areRanks closed success

theorem Arranges.moves_of_sortBlock : a' = a ∨ Moves ranks a.order a'.order := by
  rcases arranges.sortBlock_cases isRead roots areRanks with
    ⟨-, result⟩ | ⟨pre, window, post, spans, result⟩
  · exact .inl (Except.ok.inj (success.symm.trans result))
  have isNext := Except.ok.inj (success.symm.trans result)
  cases possible : rearrange? ranks analysis.membership window with
  | none => exact .inl (by rw [isNext, possible]; rfl)
  | some segment =>
    rw [possible] at isNext
    subst isNext
    exact .inr (spans.moves (arranges.perm.nodup_iff.2 distinct) closed possible)

/-- A block of several bases that follow each other is moved, if its ranks rise from one membership
to the next. -/
theorem Arranges.moves_of_unbroken (several : ranks.length ≠ 1)
    (unbroken : Unbroken a.order (read.map Signal.root))
    (rises : ∀ s ∈ read.map Signal.root, ∀ t ∈ read.map Signal.root,
      analysis.membership s ≠ analysis.membership t → a.order.idxOf s < a.order.idxOf t →
        rankOf ranks s ≤ rankOf ranks t) :
    Moves ranks a.order a'.order := by
  rcases arranges.sortBlock_cases isRead roots areRanks with
    ⟨single, -⟩ | ⟨pre, window, post, spans, result⟩
  · exact absurd single several
  have isNext := Except.ok.inj (success.symm.trans result)
  have nodup := arranges.perm.nodup_iff.2 distinct
  have areBases (s : Signal) : isRanked ranks s = true ↔ s ∈ read.map Signal.root := by
    rw [isRanked_iff, ← areRanks, Assoc.mem_keys_lastPositions]
  have ranked := spans.ranked_of_unbroken nodup areBases unbroken
  have rises' : window.Pairwise fun s t =>
      analysis.membership s ≠ analysis.membership t → rankOf ranks s ≤ rankOf ranks t := by
    refine ((Distinct.pairwise_idxOf_lt nodup).sublist spans.sublist).imp_of_mem ?_
    intro s t isS isT less differ
    exact rises s ((areBases s).1 (ranked s isS)) t ((areBases t).1 (ranked t isT)) differ less
  obtain ⟨segment, possible⟩ := exists_rearrange? ranked rises'
  rw [possible] at isNext
  subst isNext
  exact spans.moves nodup closed possible

end Block

end Arrangement

end Refine

end BatchGraph
