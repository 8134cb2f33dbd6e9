import Mathlib.Data.List.Chain
import BatchGraph.RunSort.Merge
import BatchGraph.Proofs.RunSort.Gallop

/-!
Merging ascending runs by a comparison that need not be an order.

A merge puts two elements next to each other only if they were next to each other in a run or if it
has compared them; this also holds of the stretches that it takes at once, which end at a border
(`Merge.Ascends.advance`).  So if the comparison is asymmetric, no element of the result is before
the one in front of it (`mergeRuns_ascending`).
-/

namespace BatchGraph

namespace RunSort

variable {α : Type}

variable (before : α → α → Bool)

/-- No element is before the one in front of it. -/
def Ascending (xs : List α) : Prop := xs.IsChain fun x y => before y x = false

variable {before} (asymmetric : ∀ x y, before x y = true → before y x = false)

/-! ## Merging -/

/-- Of two elements the second may leave a merge directly after the first. -/
def Side.Allows (before : α → α → Bool) : Side → α → α → Prop
  | .front, x, y => before y x = false
  | .back, x, y => before x y = false

include asymmetric in
theorem Side.allows_of_firstWins {side : Side} {a b : α} (wins : firstWins before side a b = true) :
    side.Allows before a b := by
  cases side with
  | front => simpa [firstWins, Allows] using wins
  | back => exact asymmetric b a wins

include asymmetric in
theorem Side.allows_of_not_firstWins {side : Side} {a b : α}
    (loses : firstWins before side a b = false) : side.Allows before b a := by
  cases side with
  | front => exact asymmetric b a (by simpa [firstWins] using loses)
  | back => exact loses

namespace Merge

variable {side : Side} {pre post : List α} {m : Merge α}

/-- What is merged ascends, and goes on to either run, between two lists that stay where they are. -/
structure Ascends (before : α → α → Bool) (side : Side) (pre post : List α) (m : Merge α) :
    Prop where
  first : (pre ++ m.merged ++ m.first).IsChain (side.Allows before)
  second : (pre ++ m.merged ++ m.second).IsChain (side.Allows before)
  firstEnd : (m.first ++ post).IsChain (side.Allows before)
  secondEnd : (m.second ++ post).IsChain (side.Allows before)
  lasts : ∀ a ∈ m.first.getLast?, ∀ b ∈ m.second.getLast?, before a b = false
  left : m.first ≠ [] ∨ m.second ≠ []

/-- Something is left of both runs. -/
theorem ne_nil_of_not_settled (unsettled : m.isSettled side = false) :
    m.first ≠ [] ∧ m.second ≠ [] := by
  obtain ⟨merged, first, second, pace, patience⟩ := m
  cases side <;> cases first <;> cases second <;> simp_all [isSettled]

theorem mem_getLast?_of_drop {xs : List α} {count : Nat} {x : α}
    (isLast : x ∈ (xs.drop count).getLast?) : x ∈ xs.getLast? := by
  rw [List.getLast?_drop] at isLast
  split at isLast
  · cases isLast
  · exact isLast

/-- A part of one list leaves, the last of it going on to the other list. -/
theorem isChain_take {R : α → α → Prop} {front xs ys : List α} {count : Nat}
    (first : (front ++ xs).IsChain R) (second : (front ++ ys).IsChain R)
    (allowed : ∀ x ∈ (xs.take count).getLast?, ∀ y ∈ ys.head?, R x y) :
    (front ++ xs.take count ++ xs.drop count).IsChain R ∧
      (front ++ xs.take count ++ ys).IsChain R := by
  have whole : front ++ xs.take count ++ xs.drop count = front ++ xs := by
    rw [List.append_assoc, List.take_append_drop]
  rw [whole]
  rw [← whole] at first
  refine ⟨whole ▸ first, ?_⟩
  cases isTaken : xs.take count with
  | nil => rwa [List.append_nil]
  | cons x rest =>
    rw [isTaken] at first allowed
    refine List.isChain_append.2 ⟨first.left_of_append, second.right_of_append, fun y isLast => ?_⟩
    rw [List.getLast?_append_of_ne_nil _ (List.cons_ne_nil _ _)] at isLast
    exact allowed y isLast

theorem isChain_drop {R : α → α → Prop} {xs post : List α} (chain : (xs ++ post).IsChain R)
    (count : Nat) : (xs.drop count ++ post).IsChain R := by
  rw [← List.take_append_drop count xs, List.append_assoc] at chain
  exact chain.right_of_append

theorem Ascends.takeFirst (ascends : m.Ascends before side pre post) (some_ : m.second ≠ [])
    {count : Nat} (allowed : ∀ a ∈ (m.first.take count).getLast?, ∀ b ∈ m.second.head?,
      side.Allows before a b) : (m.takeFirst count).Ascends before side pre post := by
  obtain ⟨first, second⟩ := isChain_take ascends.first ascends.second allowed
  rw [List.append_assoc pre] at first second
  exact ⟨first, second, isChain_drop ascends.firstEnd count, ascends.secondEnd,
    fun a isLast => ascends.lasts a (mem_getLast?_of_drop isLast), .inr some_⟩

theorem Ascends.takeSecond (ascends : m.Ascends before side pre post) (some_ : m.first ≠ [])
    {count : Nat} (allowed : ∀ b ∈ (m.second.take count).getLast?, ∀ a ∈ m.first.head?,
      side.Allows before b a) : (m.takeSecond count).Ascends before side pre post := by
  obtain ⟨second, first⟩ := isChain_take ascends.second ascends.first allowed
  rw [List.append_assoc pre] at first second
  exact ⟨first, second, ascends.firstEnd, isChain_drop ascends.secondEnd count,
    fun a isFirst b isLast => ascends.lasts a isFirst b (mem_getLast?_of_drop isLast), .inl some_⟩

theorem Ascends.withPace (ascends : m.Ascends before side pre post) (pace : Pace)
    (patience : Nat) :
    Ascends before side pre post ⟨m.merged, m.first, m.second, pace, patience⟩ :=
  ⟨ascends.first, ascends.second, ascends.firstEnd, ascends.secondEnd, ascends.lasts,
    ascends.left⟩

/-! ### Steps -/

/-- The number of elements that are left. -/
def remaining (m : Merge α) : Nat := m.first.length + m.second.length

theorem remaining_takeFirst (m : Merge α) (count : Nat) :
    (m.takeFirst count).remaining = m.remaining - min count m.first.length := by
  simp only [remaining, Merge.takeFirst, List.length_drop]
  omega

theorem remaining_takeSecond (m : Merge α) (count : Nat) :
    (m.takeSecond count).remaining = m.remaining - min count m.second.length := by
  simp only [remaining, Merge.takeSecond, List.length_drop]
  omega

/-- The head of the first run leaves. -/
theorem Ascends.headFirst (ascends : m.Ascends before side pre post) (some_ : m.second ≠ [])
    {a : α} (isHead : m.first.head? = some a) (allowed : ∀ b ∈ m.second.head?, side.Allows before a b) :
    (m.takeFirst 1).Ascends before side pre post ∧ (m.takeFirst 1).remaining < m.remaining := by
  obtain ⟨as, isFirst⟩ := List.head?_eq_some_iff.1 isHead
  refine ⟨ascends.takeFirst some_ ?_, ?_⟩
  · simpa [isFirst] using allowed
  · simp [remaining, Merge.takeFirst, isFirst]

/-- The head of the second run leaves. -/
theorem Ascends.headSecond (ascends : m.Ascends before side pre post) (some_ : m.first ≠ [])
    {b : α} (isHead : m.second.head? = some b) (allowed : ∀ a ∈ m.first.head?, side.Allows before b a) :
    (m.takeSecond 1).Ascends before side pre post ∧ (m.takeSecond 1).remaining < m.remaining := by
  obtain ⟨bs, isSecond⟩ := List.head?_eq_some_iff.1 isHead
  refine ⟨ascends.takeSecond some_ ?_, ?_⟩
  · simpa [isSecond] using allowed
  · simp [remaining, Merge.takeSecond, isSecond]

/-- Both runs have a head. -/
theorem exists_heads (unsettled : m.isSettled side = false) :
    ∃ a b, m.first.head? = some a ∧ m.second.head? = some b := by
  obtain ⟨someFirst, someSecond⟩ := ne_nil_of_not_settled unsettled
  exact ⟨_, _, List.head?_eq_some_head someFirst, List.head?_eq_some_head someSecond⟩

/-- A step keeps the merge ascending and takes something, if it does not settle it. -/
def Advances (before : α → α → Bool) (side : Side) (pre post : List α) (m next : Merge α) : Prop :=
  next.Ascends before side pre post ∧
    (next.isSettled side = true ∨ next.remaining < m.remaining)

include asymmetric

theorem Ascends.compareOne (ascends : m.Ascends before side pre post)
    (unsettled : m.isSettled side = false) (first second : Nat) :
    Advances before side pre post m (m.compareOne before side first second) := by
  obtain ⟨someFirst, someSecond⟩ := ne_nil_of_not_settled unsettled
  obtain ⟨a, b, isFirst, isSecond⟩ := exists_heads unsettled
  obtain ⟨as, firsts⟩ := List.head?_eq_some_iff.1 isFirst
  obtain ⟨bs, seconds⟩ := List.head?_eq_some_iff.1 isSecond
  simp only [Merge.compareOne, firsts, seconds]
  split
  case isTrue wins =>
    obtain ⟨step, less⟩ := ascends.headFirst someSecond isFirst fun b' isHead => by
      cases isSecond.symm.trans isHead
      exact Side.allows_of_firstWins asymmetric wins
    exact ⟨step.withPace _ _, .inr less⟩
  case isFalse loses =>
    obtain ⟨step, less⟩ := ascends.headSecond someFirst isSecond fun a' isHead => by
      cases isFirst.symm.trans isHead
      exact Side.allows_of_not_firstWins asymmetric (Bool.eq_false_iff.2 loses)
    exact ⟨step.withPace _ _, .inr less⟩

/-- A stretch of the first run wins against the head of the second, and what ends it loses. -/
theorem Ascends.stretchFirst (ascends : m.Ascends before side pre post)
    (unsettled : m.isSettled side = false) {b : α} (isHead : m.second.head? = some b)
    {next : Merge α} (stretch : m.takeFirst
      (gallop (firstWins before side · b) side.middle m.first) = next) :
    next.Ascends before side pre post ∧ next.second = m.second ∧ next.remaining ≤ m.remaining ∧
      ∀ a ∈ next.first.head?, side.Allows before b a := by
  subst stretch
  have border := gallop_border (firstWins before side · b) side.middle m.first
  refine ⟨ascends.takeFirst (ne_nil_of_not_settled unsettled).2 fun a isLast b' isHead' => ?_, rfl,
    by rw [remaining_takeFirst]; omega, fun a isNext => ?_⟩
  · cases isHead.symm.trans isHead'
    exact Side.allows_of_firstWins asymmetric (border.getLast?_take isLast)
  · exact Side.allows_of_not_firstWins asymmetric (border.head?_drop isNext)

/-- A stretch of the second run wins against the head of the first, and what ends it loses. -/
theorem Ascends.stretchSecond (ascends : m.Ascends before side pre post)
    (unsettled : m.isSettled side = false) {a : α} (isHead : m.first.head? = some a)
    {next : Merge α} (stretch : m.takeSecond
      (gallop (!firstWins before side a ·) side.middle m.second) = next) :
    next.Ascends before side pre post ∧ next.first = m.first ∧ next.remaining ≤ m.remaining ∧
      ∀ b ∈ next.second.head?, side.Allows before a b := by
  subst stretch
  have border := gallop_border (!firstWins before side a ·) side.middle m.second
  refine ⟨ascends.takeSecond (ne_nil_of_not_settled unsettled).1 fun b isLast a' isHead' => ?_, rfl,
    by rw [remaining_takeSecond]; omega, fun b isNext => ?_⟩
  · cases isHead.symm.trans isHead'
    exact Side.allows_of_not_firstWins asymmetric (by simpa using border.getLast?_take isLast)
  · exact Side.allows_of_firstWins asymmetric (by simpa using border.head?_drop isNext)

theorem Ascends.takeStretches (ascends : m.Ascends before side pre post)
    (unsettled : m.isSettled side = false) :
    Advances before side pre post m (m.takeStretches before side) := by
  obtain ⟨-, b, -, isHead⟩ := exists_heads unsettled
  unfold Merge.takeStretches
  dsimp only
  rw [isHead, Option.elim_some]
  generalize stretch : m.takeFirst _ = won
  obtain ⟨wonAscends, second, wonLess, wonAllowed⟩ :=
    ascends.stretchFirst asymmetric unsettled isHead stretch
  split
  case isTrue settled => exact ⟨wonAscends, .inl settled⟩
  case isFalse going =>
    obtain ⟨some_, -⟩ := ne_nil_of_not_settled (Bool.eq_false_iff.2 going)
    obtain ⟨lostAscends, lostLess⟩ :=
      wonAscends.headSecond some_ (by rw [second, isHead]) wonAllowed
    generalize won.takeSecond 1 = lost at lostAscends lostLess ⊢
    split
    case isTrue settled => exact ⟨lostAscends, .inl settled⟩
    case isFalse going =>
      obtain ⟨a, -, isHead, -⟩ := exists_heads (Bool.eq_false_iff.2 going)
      rw [isHead, Option.elim_some]
      generalize stretch : lost.takeSecond _ = again
      obtain ⟨againAscends, first, againLess, againAllowed⟩ :=
        lostAscends.stretchSecond asymmetric (Bool.eq_false_iff.2 going) isHead stretch
      split
      case isTrue settled => exact ⟨againAscends, .inl settled⟩
      case isFalse going =>
        obtain ⟨-, some_⟩ := ne_nil_of_not_settled (Bool.eq_false_iff.2 going)
        obtain ⟨lastAscends, lastLess⟩ :=
          againAscends.headFirst some_ (by rw [first, isHead]) againAllowed
        have less : (again.takeFirst 1).remaining < m.remaining := by omega
        split
        · exact ⟨lastAscends, .inr less⟩
        · split <;> exact ⟨lastAscends.withPace _ _, .inr less⟩

theorem Ascends.advance (ascends : m.Ascends before side pre post)
    (unsettled : m.isSettled side = false) :
    Advances before side pre post m (m.advance before side) := by
  unfold Merge.advance
  split
  · exact ascends.compareOne asymmetric unsettled _ _
  · exact ascends.takeStretches asymmetric unsettled

omit asymmetric in
theorem run_of_settled (settled : m.isSettled side = true) (steps : Nat) :
    m.run before side steps = m := by
  cases steps with
  | zero => rfl
  | succ steps => rw [Merge.run, if_pos settled]

/-- Enough steps settle a merge. -/
theorem Ascends.run (ascends : m.Ascends before side pre post) {steps : Nat}
    (enough : m.remaining ≤ steps) :
    (m.run before side steps).Ascends before side pre post ∧
      (m.run before side steps).isSettled side = true := by
  induction steps generalizing m with
  | zero =>
    rw [remaining] at enough
    have first : m.first = [] := List.length_eq_zero_iff.1 (by omega)
    have second : m.second = [] := List.length_eq_zero_iff.1 (by omega)
    exact absurd ascends.left (by simp [first, second])
  | succ steps ih =>
    unfold Merge.run
    split
    case isTrue settled => exact ⟨ascends, settled⟩
    case isFalse going =>
      obtain ⟨next, settled | less⟩ := ascends.advance asymmetric (Bool.eq_false_iff.2 going)
      · rw [run_of_settled settled]
        exact ⟨next, settled⟩
      · exact ih next (by omega)

omit asymmetric

/-- What is left of one list stands in front of at most one element of the other. -/
theorem isChain_settled {R : α → α → Prop} {front xs ys : List α}
    (first : (front ++ xs).IsChain R) (second : (front ++ ys).IsChain R)
    (firstEnd : (xs ++ post).IsChain R) (secondEnd : (ys ++ post).IsChain R)
    (lasts : ∀ y ∈ ys.getLast?, ∀ x ∈ xs.getLast?, R y x) (left : xs ≠ [] ∨ ys ≠ [])
    (settled : ys = [] ∨ xs.drop 1 = []) : (front ++ (ys ++ xs) ++ post).IsChain R := by
  rcases settled with rfl | short
  · exact first.append_overlap firstEnd (left.resolve_right (by simp))
  rcases xs with _ | ⟨x, _ | ⟨x', xs⟩⟩
  · rw [List.append_nil]
    exact second.append_overlap secondEnd (left.resolve_left (by simp))
  · rw [← List.append_assoc, List.append_assoc]
    cases ys with
    | nil => simpa using first.append_overlap firstEnd (by simp)
    | cons y ys =>
      refine List.isChain_append.2 ⟨second, firstEnd, fun z isLast x' isFirst => ?_⟩
      rw [List.getLast?_append_of_ne_nil _ (List.cons_ne_nil _ _)] at isLast
      cases isFirst
      exact lasts z isLast x rfl
  · cases short

theorem Ascends.isChain_result (ascends : m.Ascends before side pre post)
    (settled : m.isSettled side = true) :
    (pre ++ m.result side ++ post).IsChain (side.Allows before) := by
  cases side with
  | front =>
    rw [result, ← List.append_assoc pre]
    refine isChain_settled ascends.first ascends.second ascends.firstEnd ascends.secondEnd
      (fun b isB a isA => ascends.lasts a isA b isB) ascends.left ?_
    simpa [isSettled] using settled
  | back =>
    rw [result, ← List.append_assoc pre]
    refine isChain_settled ascends.second ascends.first ascends.secondEnd ascends.firstEnd
      (fun a isA b isB => ascends.lasts a isA b isB) ascends.left.symm ?_
    simpa [isSettled] using settled

end Merge

/-! ### Runs -/

/-- Two runs between lists to which both of them lead and which lead to both of them; the second run
has the first head, and the first one the last element. -/
structure Meets (before : α → α → Bool) (front first second back : List α) : Prop where
  frontFirst : Ascending before (front ++ first)
  frontSecond : Ascending before (front ++ second)
  firstBack : Ascending before (first ++ back)
  secondBack : Ascending before (second ++ back)
  heads : ∀ a ∈ first.head?, ∀ b ∈ second.head?, before a b = false
  lasts : ∀ a ∈ first.getLast?, ∀ b ∈ second.getLast?, before a b = false
  someFirst : first ≠ []
  someSecond : second ≠ []

variable {front first second back : List α}

theorem isChain_back {xs : List α} :
    xs.reverse.IsChain (Side.back.Allows before) ↔ Ascending before xs := List.isChain_reverse

theorem Meets.ascends (meets : Meets before front first second back) (patience : Nat) :
    Merge.Ascends before .front front back ⟨[], first, second, .single 0 0, patience⟩ where
  first := by
    rw [List.append_nil]
    exact meets.frontFirst
  second := by
    rw [List.append_nil]
    exact meets.frontSecond
  firstEnd := meets.firstBack
  secondEnd := meets.secondBack
  lasts := meets.lasts
  left := .inl meets.someFirst

theorem Meets.ascends_back (meets : Meets before front first second back) (patience : Nat) :
    Merge.Ascends before .back back.reverse front.reverse
      ⟨[], first.reverse, second.reverse, .single 0 0, patience⟩ where
  first := by
    rw [List.append_nil, ← List.reverse_append, isChain_back]
    exact meets.firstBack
  second := by
    rw [List.append_nil, ← List.reverse_append, isChain_back]
    exact meets.secondBack
  firstEnd := by
    rw [← List.reverse_append, isChain_back]
    exact meets.frontFirst
  secondEnd := by
    rw [← List.reverse_append, isChain_back]
    exact meets.frontSecond
  lasts a isA b isB := by
    rw [List.getLast?_reverse] at isA isB
    exact meets.heads a isA b isB
  left := .inl (by simpa using meets.someFirst)

include asymmetric

/-- Merging two runs between lists to which both runs lead and which both runs go on to. -/
theorem mergeFrom_isChain {side : Side} {pre post : List α} {patience : Nat}
    (start : Merge.Ascends before side pre post ⟨[], first, second, .single 0 0, patience⟩)
    (someFirst : first ≠ []) (someSecond : second ≠ [])
    (heads : ∀ a ∈ first.head?, ∀ b ∈ second.head?, before a b = false) :
    (pre ++ (mergeFrom before side patience first second).1 ++ post).IsChain
      (side.Allows before) := by
  have isFirst := List.head?_eq_some_head someFirst
  have isSecond := List.head?_eq_some_head someSecond
  unfold mergeFrom
  cases side with
  | front =>
    obtain ⟨ascends, less⟩ := start.headSecond someFirst isSecond fun a isA =>
      heads a isA _ isSecond
    obtain ⟨run, settled⟩ := ascends.run asymmetric (Nat.le_of_lt less)
    exact run.isChain_result settled
  | back =>
    obtain ⟨ascends, less⟩ := start.headFirst someSecond isFirst fun b isB =>
      heads _ isFirst b isB
    obtain ⟨run, settled⟩ := ascends.run asymmetric (Nat.le_of_lt less)
    exact run.isChain_result settled

theorem Meets.mergeFrom_front (meets : Meets before front first second back) (patience : Nat) :
    Ascending before (front ++ (mergeFrom before .front patience first second).1 ++ back) :=
  mergeFrom_isChain asymmetric (meets.ascends patience) meets.someFirst meets.someSecond meets.heads

theorem Meets.mergeFrom_back (meets : Meets before front first second back) (patience : Nat) :
    Ascending before
      (front ++ (mergeFrom before .back patience first.reverse second.reverse).1.reverse ++ back) := by
  have merged := mergeFrom_isChain asymmetric (meets.ascends_back patience)
    (by simpa using meets.someFirst) (by simpa using meets.someSecond) fun a isA b isB => by
      rw [List.head?_reverse] at isA isB
      exact meets.lasts a isA b isB
  rw [← isChain_back]
  simpa using merged

omit asymmetric

/-- What stays in its place at the front of the first run. -/
theorem settled_border (before : α → α → Bool) (first second : List α) :
    let settled := second.head?.elim first.length fun b =>
      gallop (fun a => !before b a) .upper first
    (∀ a ∈ (first.take settled).getLast?, ∀ b ∈ second.head?, before b a = false) ∧
      ∀ a ∈ (first.drop settled).head?, ∀ b ∈ second.head?, before b a = true := by
  cases isHead : second.head? with
  | none => simp
  | some b =>
    have border := gallop_border (fun a => !before b a) .upper first
    refine ⟨fun a isLast b' same => ?_, fun a isNext b' same => ?_⟩
    · cases same
      simpa using border.getLast?_take isLast
    · cases same
      simpa using border.head?_drop isNext

/-- What stays in its place at the back of the second run. -/
theorem behind_border (before : α → α → Bool) (first second : List α) :
    let behind := second.length - first.getLast?.elim second.length fun a =>
      gallop (fun b => !before b a) .lower second.reverse
    (∀ b ∈ (second.drop behind).head?, ∀ a ∈ first.getLast?, before b a = false) ∧
      ∀ b ∈ (second.take behind).getLast?, ∀ a ∈ first.getLast?, before b a = true := by
  cases isLast : first.getLast? with
  | none => simp
  | some a =>
    have border := gallop_border (fun b => !before b a) .lower second.reverse
    refine ⟨fun b isFirst a' same => ?_, fun b isNext a' same => ?_⟩
    · cases same
      rw [Option.elim_some, Option.mem_def, ← List.getLast?_reverse, ← List.take_reverse] at isFirst
      simpa using border.getLast?_take isFirst
    · cases same
      rw [Option.elim_some, Option.mem_def, ← List.head?_reverse, ← List.drop_reverse] at isNext
      simpa using border.head?_drop isNext

include asymmetric

/-- Merging ascending runs. -/
theorem mergeRuns_ascending (patience : Nat) (isFirst : Ascending before first)
    (isSecond : Ascending before second) :
    Ascending before (mergeRuns before patience first second).1 := by
  unfold mergeRuns
  dsimp only
  obtain ⟨inFront, ahead⟩ := settled_border before first second
  generalize second.head?.elim first.length _ = settled at inFront ahead ⊢
  obtain ⟨inBack, astern⟩ := behind_border before (first.drop settled) second
  generalize second.length - (first.drop settled).getLast?.elim second.length _ = behind at inBack astern ⊢
  have firsts := List.take_append_drop settled first
  have seconds := List.take_append_drop behind second
  rw [← firsts] at isFirst
  rw [← seconds] at isSecond
  generalize first.take settled = front at *
  generalize first.drop settled = left at *
  generalize second.take behind = right at *
  generalize second.drop behind = back at *
  subst firsts seconds
  by_cases someLeft : left = []
  case pos =>
    subst someLeft
    simp only [List.isEmpty_nil, Bool.true_or, if_true, List.nil_append, List.append_assoc]
    exact List.isChain_append.2 ⟨isFirst.left_of_append, isSecond, inFront⟩
  by_cases someRight : right = []
  case pos =>
    subst someRight
    simp only [List.isEmpty_nil, Bool.or_true, if_true, List.append_nil]
    refine List.isChain_append.2 ⟨isFirst, isSecond, fun a isLast b isNext => ?_⟩
    rw [List.getLast?_append_of_ne_nil _ someLeft] at isLast
    exact inBack b isNext a isLast
  have head : (right ++ back).head? = right.head? := List.head?_append_of_ne_nil _ someRight
  rw [head] at inFront ahead
  have meets : Meets before front left right back := {
    frontFirst := isFirst
    frontSecond :=
      List.isChain_append.2 ⟨isFirst.left_of_append, isSecond.left_of_append, inFront⟩
    firstBack := List.isChain_append.2 ⟨isFirst.right_of_append, isSecond.right_of_append,
      fun a isLast b isNext => inBack b isNext a isLast⟩
    secondBack := isSecond
    heads := fun a isA b isB => asymmetric b a (ahead a isA b isB)
    lasts := fun a isA b isB => asymmetric b a (astern b isB a isA)
    someFirst := someLeft
    someSecond := someRight }
  rw [if_neg (by simp [someLeft, someRight])]
  split
  · exact meets.mergeFrom_front asymmetric patience
  · exact meets.mergeFrom_back asymmetric patience

end RunSort

end BatchGraph
