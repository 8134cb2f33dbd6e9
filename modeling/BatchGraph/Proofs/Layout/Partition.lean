import Mathlib.Algebra.Ring.Int.Defs
import BatchGraph.Layout.Partition
import BatchGraph.Proofs.Assoc
import BatchGraph.Proofs.Distinct
import BatchGraph.Proofs.Except

/-!
Where an order without repetitions is cut.

The running number of open spans is zero behind a signal exactly if no span starts at or in front of
it and ends behind it (`mem_closings_iff`).  The bases at one slot of a group lie within a span
(`of_groupSpans_eq_ok`), so no break separates them (`unbroken_of_slot`).  Where the groups of a plan
have their slots filled from the order, the breaks are found (`exists_breaks`).
-/

namespace BatchGraph

/-- No break lies behind position `i` and in front of position `j`. -/
def Partition.Unbroken (breaks : List Nat) (i j : Nat) : Prop := ∀ b ∈ breaks, b ≤ i ∨ j ≤ b

namespace Partition.Unbroken

variable {breaks : List Nat} {i j k : Nat}

theorem trans (first : Unbroken breaks i (j + 1)) (second : Unbroken breaks j k) :
    Unbroken breaks i k := by
  intro b isBreak
  have := first b isBreak
  have := second b isBreak
  omega

theorem mono (unbroken : Unbroken breaks i k) {i' k' : Nat} (left : i ≤ i') (right : k' ≤ k) :
    Unbroken breaks i' k' := by
  intro b isBreak
  have := unbroken b isBreak
  omega

theorem succ (i : Nat) : Unbroken breaks i (i + 1) := by
  intro b _
  omega

theorem succ_iff (less : i < j) :
    Unbroken breaks i (j + 1) ↔ Unbroken breaks i j ∧ breaks.contains j = false := by
  constructor
  · intro unbroken
    refine ⟨mono unbroken (Nat.le_refl i) (Nat.le_succ j), ?_⟩
    rw [Bool.eq_false_iff, Ne, List.contains_iff_mem]
    intro isBreak
    have := unbroken j isBreak
    omega
  · rintro ⟨unbroken, free⟩ b isBreak
    rw [Bool.eq_false_iff, Ne, List.contains_iff_mem] at free
    have differ : b ≠ j := fun same => free (same ▸ isBreak)
    have := unbroken b isBreak
    omega

end Partition.Unbroken

namespace Partition

variable {spans : List (Signal × Signal)} {signals : List Signal}

/-! ## Open spans -/

/-- A closing lies behind a prefix that leaves no span open. -/
theorem mem_closings {rest : List Signal} {i p : Nat} {before : Int} :
    p ∈ closings spans rest i before ↔ ∃ k < rest.length, p = i + k + 1 ∧
      before + ((rest.take (k + 1)).map (opened spans)).sum = 0 := by
  induction rest generalizing i before with
  | nil => simp [closings]
  | cons s rest ih =>
    have split : p ∈ closings spans (s :: rest) i before ↔
        (p = i + 1 ∧ before + opened spans s = 0) ∨
          p ∈ closings spans rest (i + 1) (before + opened spans s) := by
      rw [closings]
      split <;> simp_all
    rw [split, ih]
    constructor
    · rintro (⟨rfl, none⟩ | ⟨k, less, rfl, none⟩)
      · exact ⟨0, by simp, rfl, by simpa using none⟩
      · refine ⟨k + 1, by simpa using less, by omega, ?_⟩
        rw [List.take_succ_cons, List.map_cons, List.sum_cons, ← Int.add_assoc]
        exact none
    · rintro ⟨k, less, rfl, none⟩
      cases k with
      | zero => exact .inl ⟨rfl, by simpa using none⟩
      | succ k =>
        refine .inr ⟨k, by simpa using less, by omega, ?_⟩
        rwa [List.take_succ_cons, List.map_cons, List.sum_cons, ← Int.add_assoc] at none

theorem countP_mem_cons (spans : List (Signal × Signal)) {s : Signal} {done : List Signal}
    (new : s ∉ done) (side : Signal × Signal → Signal) :
    spans.countP (side · ∈ s :: done) =
      spans.countP (side · = s) + spans.countP (side · ∈ done) := by
  induction spans with
  | nil => rfl
  | cons span spans ih =>
    have apart : side span = s → side span ∉ done := fun same => same ▸ new
    rw [List.countP_cons, List.countP_cons, List.countP_cons, ih]
    by_cases same : side span = s <;> by_cases later : side span ∈ done <;> simp_all <;> omega

/-- Along a list without repetitions every span is counted once where it starts and once where it
ends. -/
theorem sum_opened {done : List Signal} (distinct : done.Nodup) :
    (done.map (opened spans)).sum =
      (spans.countP (·.1 ∈ done) : Int) - (spans.countP (·.2 ∈ done) : Int) := by
  induction done with
  | nil => simp
  | cons s done ih =>
    rw [List.nodup_cons] at distinct
    have count := countP_mem_cons spans distinct.1
    rw [List.map_cons, List.sum_cons, ih distinct.2, opened, count (·.1), count (·.2)]
    omega

/-- Of two properties of which one implies the other, as many elements have both only if every
element with the weaker one has the stronger one. -/
theorem countP_eq_iff {α : Type} {p q : α → Bool} {xs : List α}
    (stronger : ∀ x ∈ xs, q x = true → p x = true) :
    xs.countP p = xs.countP q ↔ ∀ x ∈ xs, p x = true → q x = true := by
  induction xs with
  | nil => simp
  | cons x xs ih =>
    rw [List.forall_mem_cons] at stronger ⊢
    have most := List.countP_mono_left stronger.2
    rw [← ih stronger.2, List.countP_cons, List.countP_cons]
    by_cases hp : p x = true
    · by_cases hq : q x = true
      · simp [hp, hq]
      · simp only [hp, hq, if_true]
        simp
        omega
    · have hq : ¬ q x = true := fun holds => hp (stronger.1 holds)
      simp [hp, hq]

/-- The order is cut behind a signal exactly if no span that starts there or before ends behind
it. -/
theorem mem_closings_iff (distinct : signals.Nodup)
    (ordered : ∀ span ∈ spans, ∀ k, span.2 ∈ signals.take k → span.1 ∈ signals.take k) {i : Nat} :
    i ∈ closings spans signals 0 0 ↔ ∃ k < signals.length, i = k + 1 ∧
      ∀ span ∈ spans, span.1 ∈ signals.take (k + 1) → span.2 ∈ signals.take (k + 1) := by
  rw [mem_closings]
  refine exists_congr fun k => and_congr_right fun _ => ?_
  rw [Nat.zero_add, Int.zero_add, sum_opened (distinct.sublist (List.take_sublist _ _))]
  refine and_congr_right fun _ => ?_
  have stronger : ∀ span ∈ spans, decide (span.2 ∈ signals.take (k + 1)) = true →
      decide (span.1 ∈ signals.take (k + 1)) = true := fun span member => by
    simpa only [decide_eq_true_eq] using ordered span member (k + 1)
  have balance := countP_eq_iff stronger
  simp only [decide_eq_true_eq] at balance
  rw [← balance]
  omega

/-! ## Spans of slots -/

theorem mem_take_iff {k i : Nat} {s : Signal} (distinct : signals.Nodup)
    (isAt : signals[i]? = some s) : s ∈ signals.take k ↔ i < k := by
  rw [List.mem_iff_getElem?]
  constructor
  · rintro ⟨j, found⟩
    rw [List.getElem?_take] at found
    split at found
    case isTrue less => rwa [Distinct.eq_of_getElem? distinct isAt found]
    case isFalse => cases found
  · intro less
    exact ⟨i, by rw [List.getElem?_take_of_lt less, isAt]⟩

/-- The bases of some operators at a slot. -/
theorem of_slotBases_eq_ok {ops : List Operator} {slot : Nat} {bases : List Signal}
    (success : slotBases ops slot = .ok bases) :
    (∀ s ∈ bases, ∃ op ∈ ops, ∃ t, op.allSignals[slot]? = some t ∧ t.root = s) ∧
      ∀ op ∈ ops, ∃ t, op.allSignals[slot]? = some t ∧ t.root ∈ bases := by
  constructor
  · intro s member
    obtain ⟨op, isOp, result⟩ := Except.exists_of_mem_result success member
    refine ⟨op, isOp, ?_⟩
    split at result
    case h_1 t found =>
      cases result
      exact ⟨t, found, rfl⟩
    case h_2 => cases result
  · intro op isOp
    obtain ⟨s, member, result⟩ := Except.exists_result_of_mem success isOp
    split at result
    case h_1 t found =>
      cases result
      exact ⟨t, found, member⟩
    case h_2 => cases result

/-- The span of some bases of the order goes from one of them to another, and all lie within. -/
structure Spans (signals bases : List Signal) (first last : Signal) : Prop where
  starts : first ∈ bases
  ends : last ∈ bases
  within : ∀ s ∈ bases, ∃ k : Nat, signals[k]? = some s ∧
    (∀ i : Nat, signals[i]? = some first → i ≤ k) ∧ ∀ j : Nat, signals[j]? = some last → k ≤ j

/-- If a span does not start at or in front of a position and end behind it, no two of its bases lie
on different sides. -/
theorem Spans.le_of_le (distinct : signals.Nodup) {bases : List Signal} {first last s t : Signal}
    (spans : Spans signals bases first last) (isS : s ∈ bases) (isT : t ∈ bases) {i j k : Nat}
    (atI : signals[i]? = some s) (atJ : signals[j]? = some t)
    (uncrossed : first ∈ signals.take (k + 1) → last ∈ signals.take (k + 1)) (le : i ≤ k) :
    j ≤ k := by
  obtain ⟨low, isLow, -⟩ := spans.within first spans.starts
  obtain ⟨high, isHigh, -⟩ := spans.within last spans.ends
  obtain ⟨i', atI', least, -⟩ := spans.within s isS
  obtain ⟨j', atJ', -, greatest⟩ := spans.within t isT
  obtain rfl := Distinct.eq_of_getElem? distinct atI atI'
  obtain rfl := Distinct.eq_of_getElem? distinct atJ atJ'
  rw [mem_take_iff distinct isLow, mem_take_iff distinct isHigh] at uncrossed
  have := least low isLow
  have := greatest high isHigh
  omega

theorem of_span_eq_ok (distinct : signals.Nodup) {bases : List Signal}
    {found : List (Signal × Signal)}
    (success : span (Assoc.lastPositions signals) bases = .ok found) :
    bases = [] ∧ found = [] ∨
      ∃ first last, found = [(first, last)] ∧ Spans signals bases first last := by
  unfold span at success
  obtain ⟨places, arePlaces, success⟩ := Except.bind_eq_ok_iff.1 success
  have isPosition {s : Signal} {i : Nat}
      (result : position (Assoc.lastPositions signals) s = .ok i) : signals[i]? = some s := by
    unfold position at result
    split at result
    case h_1 isAt =>
      cases result
      exact (Assoc.lookup_lastPositions_iff distinct).1 isAt
    case h_2 => cases result
  have places_at : List.Forall₂ (fun s i => signals[i]? = some s) bases places :=
    (Except.forall₂_of_mapM_eq_ok arePlaces).imp fun _ _ => isPosition
  have length := places_at.length_eq
  have pair_at {s : Signal} {i : Nat} (member : (s, i) ∈ bases.zip places) :
      signals[i]? = some s := (List.forall₂_iff_zip.1 places_at).2 member
  have found_at {i : Nat} (member : i ∈ places) :
      ∃ s, (bases.zip places).find? (·.2 = i) = some (s, i) ∧ (s, i) ∈ bases.zip places := by
    rw [← List.map_snd_zip (Nat.le_of_eq length.symm)] at member
    obtain ⟨⟨s, i⟩, isPair, rfl⟩ := List.mem_map.1 member
    obtain ⟨⟨s', i'⟩, isFirst⟩ := Option.isSome_iff_exists.1
      (List.find?_isSome.2 ⟨(s, i), isPair, decide_eq_true rfl⟩ :
        ((bases.zip places).find? (·.2 = i)).isSome = true)
    have same := List.find?_some isFirst
    rw [decide_eq_true_eq] at same
    subst same
    exact ⟨s', isFirst, List.mem_of_find?_eq_some isFirst⟩
  rcases Nat.eq_zero_or_pos places.length with none | some_
  · have noPlaces := List.length_eq_zero_iff.1 none
    subst noPlaces
    cases success
    exact .inl ⟨List.length_eq_zero_iff.1 length, rfl⟩
  · obtain ⟨i, least⟩ := Option.isSome_iff_exists.1 (List.isSome_min?_of_mem (List.getElem_mem some_))
    obtain ⟨j, greatest⟩ := Option.isSome_iff_exists.1
      (List.isSome_max?_of_mem (List.getElem_mem some_))
    obtain ⟨isI, lower⟩ := List.min?_eq_some_iff.1 least
    obtain ⟨isJ, upper⟩ := List.max?_eq_some_iff.1 greatest
    obtain ⟨first, isFirst, inFirst⟩ := found_at isI
    obtain ⟨last, isLast, inLast⟩ := found_at isJ
    simp only [least, greatest, Option.bind_some, isFirst, isLast] at success
    cases success
    refine .inr ⟨first, last, rfl, (List.of_mem_zip inFirst).1, (List.of_mem_zip inLast).1,
      fun s member => ?_⟩
    obtain ⟨k, isAt⟩ := List.mem_iff_getElem?.1 member
    have inside : k < places.length := length ▸ (List.getElem?_eq_some_iff.1 isAt).1
    have isPair : (s, places[k]) ∈ bases.zip places :=
      List.mem_of_getElem? (List.getElem?_zip_eq_some.2 ⟨isAt, List.getElem?_eq_getElem inside⟩)
    refine ⟨places[k], pair_at isPair, fun i' isAt => ?_, fun j' isAt => ?_⟩
    · rw [Distinct.eq_of_getElem? distinct isAt (pair_at inFirst)]
      exact lower _ (List.getElem_mem _)
    · rw [Distinct.eq_of_getElem? distinct isAt (pair_at inLast)]
      exact upper _ (List.getElem_mem _)

/-- The spans of a group are those of the slots of its first operator. -/
theorem of_groupSpans_eq_ok (distinct : signals.Nodup) {ops : List Operator}
    (success : groupSpans (Assoc.lastPositions signals) ops = .ok spans) :
    ∃ first ∈ ops.head?,
      (∀ x ∈ spans, first.action.builder ≠ .reset ∧ ∃ slot < first.allSignals.length, ∃ bases,
        slotBases ops slot = .ok bases ∧ Spans signals bases x.1 x.2) ∧
      (first.action.builder ≠ .reset → ∀ slot < first.allSignals.length, ∃ bases,
        slotBases ops slot = .ok bases ∧ ∃ x ∈ spans, Spans signals bases x.1 x.2) := by
  unfold groupSpans at success
  split at success
  case h_1 => cases success
  case h_2 first rest =>
    refine ⟨first, rfl, ?_⟩
    split at success
    case isTrue isReset =>
      cases success
      exact ⟨fun x member => (nomatch member), fun notReset => absurd isReset notReset⟩
    case isFalse notReset =>
      obtain ⟨found, areFound, success⟩ := Except.bind_eq_ok_iff.1 success
      cases success
      have some_ {slot : Nat} {bases : List Signal}
          (areBases : slotBases (first :: rest) slot = .ok bases) : bases ≠ [] := by
        obtain ⟨t, -, member⟩ := (of_slotBases_eq_ok areBases).2 first List.mem_cons_self
        exact List.ne_nil_of_mem member
      constructor
      · intro x member
        obtain ⟨result, isResult, member⟩ := List.mem_flatten.1 member
        obtain ⟨slot, inside, success⟩ := Except.exists_of_mem_result areFound isResult
        obtain ⟨bases, areBases, success⟩ := Except.bind_eq_ok_iff.1 success
        refine ⟨notReset, slot, List.mem_range.1 inside, bases, areBases, ?_⟩
        rcases of_span_eq_ok distinct success with ⟨none, -⟩ | ⟨lowest, highest, rfl, spans_⟩
        · exact absurd none (some_ areBases)
        · rwa [List.mem_singleton.1 member]
      · intro _ slot inside
        obtain ⟨result, isResult, success⟩ :=
          Except.exists_result_of_mem areFound (List.mem_range.2 inside)
        obtain ⟨bases, areBases, success⟩ := Except.bind_eq_ok_iff.1 success
        refine ⟨bases, areBases, ?_⟩
        rcases of_span_eq_ok distinct success with ⟨none, -⟩ | ⟨lowest, highest, rfl, spans_⟩
        · exact absurd none (some_ areBases)
        · exact ⟨_, List.mem_flatten.2 ⟨_, isResult, List.mem_singleton_self _⟩, spans_⟩

/-! ## Breaks -/

variable {plan : Plan} {found : List Nat}

/-- The breaks of an order lie where no span of any group is open. -/
theorem of_breaks_eq_ok (distinct : signals.Nodup) (success : breaks signals plan = .ok found) :
    ∃ spans, plan.mapM (groupSpans (Assoc.lastPositions signals)) = .ok spans ∧
      ∀ p, p ∈ found ↔ ∃ k < signals.length, p = k + 1 ∧
        ∀ x ∈ spans.flatten, x.1 ∈ signals.take (k + 1) → x.2 ∈ signals.take (k + 1) := by
  obtain ⟨spans, areSpans, success⟩ := Except.bind_eq_ok_iff.1 success
  cases success
  refine ⟨spans, areSpans, fun p => mem_closings_iff distinct fun x member k ended => ?_⟩
  obtain ⟨ofGroup, isResult, member⟩ := List.mem_flatten.1 member
  obtain ⟨group, -, result⟩ := Except.exists_of_mem_result areSpans isResult
  obtain ⟨first, -, comes, -⟩ := of_groupSpans_eq_ok distinct result
  obtain ⟨-, -, -, bases, -, spans_⟩ := comes x member
  obtain ⟨i, isAt, -⟩ := spans_.within x.1 spans_.starts
  obtain ⟨j, isAt', least, -⟩ := spans_.within x.2 spans_.ends
  rw [mem_take_iff distinct isAt'] at ended
  rw [mem_take_iff distinct isAt]
  exact Nat.lt_of_le_of_lt (least i isAt) ended

/-- The bases at one slot of a group are in the order, and no break separates them. -/
theorem unbroken_of_slot (distinct : signals.Nodup) (success : breaks signals plan = .ok found)
    {group : List Operator} (isGroup : group ∈ plan) {first : Operator}
    (isFirst : first ∈ group.head?) (notReset : first.action.builder ≠ .reset) {slot : Nat}
    (inside : slot < first.allSignals.length) {a b : Operator} (isA : a ∈ group) (isB : b ∈ group)
    {s t : Signal} (isS : a.allSignals[slot]? = some s) (isT : b.allSignals[slot]? = some t) :
    ∃ i j : Nat, signals[i]? = some s.root ∧ signals[j]? = some t.root ∧
      (i ≤ j → Unbroken found i (j + 1)) := by
  obtain ⟨spans, areSpans, mem_found⟩ := of_breaks_eq_ok distinct success
  obtain ⟨ofGroup, isResult, result⟩ := Except.exists_result_of_mem areSpans isGroup
  obtain ⟨first', isFirst', -, slots⟩ := of_groupSpans_eq_ok distinct result
  cases isFirst.symm.trans isFirst'
  obtain ⟨bases, areBases, x, isSpan, spans_⟩ := slots notReset slot inside
  have isBase {op : Operator} {u : Signal} (isOp : op ∈ group)
      (isAt : op.allSignals[slot]? = some u) : u.root ∈ bases := by
    obtain ⟨u', isAt', member⟩ := (of_slotBases_eq_ok areBases).2 op isOp
    cases isAt.symm.trans isAt'
    exact member
  obtain ⟨i, isAtI, -⟩ := spans_.within _ (isBase isA isS)
  obtain ⟨j, isAtJ, -⟩ := spans_.within _ (isBase isB isT)
  refine ⟨i, j, isAtI, isAtJ, fun _ p isBreak => ?_⟩
  obtain ⟨k, -, rfl, uncrossed⟩ := (mem_found p).1 isBreak
  have side := spans_.le_of_le distinct (isBase isA isS) (isBase isB isT) isAtI isAtJ
    (uncrossed x (List.mem_flatten.2 ⟨_, isResult, isSpan⟩))
  omega

end Partition

/-! ## Plans by slots -/

/-- The signals of a plan can be laid out by slots: groups have members, all with as many signals,
whose bases are in the order. -/
structure Plan.Slotted (signals : List Signal) (plan : Plan) : Prop where
  nonempty : ∀ group ∈ plan, group ≠ []
  lengths : ∀ group ∈ plan, ∀ a ∈ group, ∀ b ∈ group, a.allSignals.length = b.allSignals.length
  covered : ∀ group ∈ plan, ∀ op ∈ group, ∀ s ∈ op.allSignals, s.root ∈ signals

/-- Every slot of a group is filled, by bases that are in the order: no member has fewer signals than
the first one. -/
structure Plan.Aligned (signals : List Signal) (plan : Plan) : Prop where
  nonempty : ∀ group ∈ plan, group ≠ []
  lengths : ∀ group ∈ plan, ∀ first ∈ group.head?, ∀ op ∈ group,
    first.allSignals.length ≤ op.allSignals.length
  covered : ∀ group ∈ plan, ∀ op ∈ group, ∀ s ∈ op.allSignals, s.root ∈ signals

theorem Plan.Slotted.aligned {signals : List Signal} {plan : Plan}
    (slotted : plan.Slotted signals) : plan.Aligned signals where
  nonempty := slotted.nonempty
  lengths group isGroup first isFirst op member :=
    Nat.le_of_eq (slotted.lengths group isGroup first (List.mem_of_mem_head? isFirst) op member)
  covered := slotted.covered

namespace Partition

theorem exists_span {signals bases : List Signal} (covered : ∀ s ∈ bases, s ∈ signals) :
    ∃ spans, span (Assoc.lastPositions signals) bases = .ok spans := by
  have step : ∀ s ∈ bases, ∃ i, position (Assoc.lastPositions signals) s = .ok i := by
    intro s member
    obtain ⟨i, found⟩ := Assoc.exists_lookup_lastPositions (covered s member)
    exact ⟨i, by rw [position, found]⟩
  obtain ⟨places, success⟩ := Except.exists_mapM_eq_ok step
  rw [span, success, Except.ok_bind]
  simp only
  split <;> exact ⟨_, rfl⟩

theorem exists_slotBases {ops : List Operator} {slot : Nat}
    (inside : ∀ op ∈ ops, slot < op.allSignals.length) :
    ∃ bases, slotBases ops slot = .ok bases ∧
      ∀ s ∈ bases, ∃ op ∈ ops, ∃ t ∈ op.allSignals, t.root = s := by
  have step : ∃ bases, slotBases ops slot = .ok bases := by
    apply Except.exists_mapM_eq_ok
    intro op member
    rw [List.getElem?_eq_getElem (inside op member)]
    exact ⟨_, rfl⟩
  obtain ⟨bases, success⟩ := step
  refine ⟨bases, success, fun s member => ?_⟩
  obtain ⟨op, isMember, result⟩ := Except.exists_of_mem_result success member
  rw [List.getElem?_eq_getElem (inside op isMember)] at result
  cases result
  exact ⟨op, isMember, _, List.getElem_mem _, rfl⟩

theorem exists_groupSpans {signals : List Signal} {plan : Plan} (aligned : plan.Aligned signals)
    {group : List Operator} (isGroup : group ∈ plan) :
    ∃ spans, groupSpans (Assoc.lastPositions signals) group = .ok spans := by
  unfold groupSpans
  split
  case h_1 => exact absurd rfl (aligned.nonempty _ isGroup)
  case h_2 first rest =>
    split
    case isTrue => exact ⟨[], rfl⟩
    case isFalse =>
      have step : ∀ slot ∈ List.range first.allSignals.length, ∃ spans, (do
          span (Assoc.lastPositions signals) (← slotBases (first :: rest) slot)) = .ok spans := by
        intro slot inside
        obtain ⟨bases, success, known⟩ : ∃ bases, slotBases (first :: rest) slot = .ok bases ∧ _ :=
          exists_slotBases fun op member => Nat.lt_of_lt_of_le (List.mem_range.1 inside)
            (aligned.lengths _ isGroup first rfl op member)
        obtain ⟨spans, found⟩ := exists_span fun s member => by
          obtain ⟨op, isMember, t, isSignal, root⟩ := known s member
          rw [← root]
          exact aligned.covered _ isGroup op isMember t isSignal
        exact ⟨spans, by rw [success]; exact found⟩
      obtain ⟨spans, success⟩ := Except.exists_mapM_eq_ok step
      exact ⟨spans.flatten, by rw [success]; rfl⟩

theorem exists_breaks {signals : List Signal} {plan : Plan} (aligned : plan.Aligned signals) :
    ∃ found, breaks signals plan = .ok found := by
  obtain ⟨spans, success⟩ := Except.exists_mapM_eq_ok fun group isGroup =>
    exists_groupSpans aligned isGroup
  exact ⟨_, by rw [breaks, success]; rfl⟩

end Partition

end BatchGraph
