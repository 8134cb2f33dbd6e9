import BatchGraph.Proofs.Layout.Failure
import BatchGraph.Proofs.Layout.Stored
import BatchGraph.Proofs.Number.Close

/-!
Reading back a memory layout.

A layout that has passed its check has rows for signals whose elements all have values
(`HasRows.present`), so every signal is read back as its array stores it.  That the check compares
with a tolerance does not matter: which values are read follows from where they lie.  Nor does the
check find anything inconsistent if storing keeps all values close
(`LaidOut.kind_of_check_eq_error_of_kept`), and no other stage of building has an error of its kind
(`of_buildFor_eq_error`, `exists_laidOut_of_inconsistent`).  `buildFor_stores` puts this together.
It asks for views with natural extents; others may have rows that are not their elements
(`buildFor_fractional`).
-/

namespace BatchGraph

namespace Signal

/-- All elements of the signal have finite values, and the storage for its type, if there is one,
changes none of them. -/
def Unchanged (precision : Precision) (s : Signal) : Prop :=
  ∀ v ∈ s.initialValue, ∃ value ∈ v, value.value?.isSome = true ∧
    ∀ storage ∈ (s.dtype.storage precision).toOption, value.same (storage.store value) = true

instance (precision : Precision) (s : Signal) : Decidable (s.Unchanged precision) :=
  inferInstanceAs (Decidable (∀ v ∈ s.initialValue, ∃ value ∈ v, value.value?.isSome = true ∧
    ∀ storage ∈ (s.dtype.storage precision).toOption, value.same (storage.store value) = true))

/-- All elements of the signal have values, to which the storage for its type, if there is one, keeps
close. -/
def Kept (precision : Precision) (s : Signal) : Prop :=
  ∀ values, broadcast s.initialValue s.size = .ok values → ∀ v ∈ values, ∃ value ∈ v,
    ∀ storage ∈ (s.dtype.storage precision).toOption, (storage.store value).isClose value = true

theorem Unchanged.kept {precision : Precision} {s : Signal} (unchanged : s.Unchanged precision) :
    s.Kept precision := by
  intro values areValues v member
  obtain ⟨value, isSome, isFinite, stores⟩ := unchanged v (mem_of_broadcast areValues v member)
  exact ⟨value, isSome, fun storage stored => Number.isClose_of_same isFinite (stores storage stored)⟩

/-- Bases have no missing values. -/
theorem present_of_not_isView {s : Signal} (whole : s.isView = false) : none ∉ s.initialValue := by
  rw [eq_ofBase_of_not_isView whole]
  intro missing
  obtain ⟨value, -, isNone⟩ := List.mem_map.1 missing
  cases isNone

/-- A view has one value for each element, so nothing is repeated. -/
theorem eq_initialValue {s : Signal} (isView : s.isView = true)
    (countable : s.elements.length < 2 ^ 53) {values : List (Option Number)}
    (success : broadcast s.initialValue s.size = .ok values) : values = s.initialValue := by
  have length : s.initialValue.length = s.elements.length := by
    rw [initialValue_of_isView isView, List.length_map]
    rfl
  have elements : s.elements.length = s.size.countBelow := Region.length_elements s.region
  exact eq_of_broadcast success (length.trans elements) (by rwa [length])

/-- A view has as many values as elements, which need no broadcasting. -/
theorem Measured.broadcast_eq {s : Signal} (measured : s.Measured) (isView : s.isView = true) :
    s.initialValue = [] ∨ broadcast s.initialValue s.size = .ok s.initialValue := by
  have length : s.initialValue.length = s.size.countBelow := by
    rw [initialValue_of_isView isView, List.length_map]
    exact Region.length_elements s.region
  have few : s.size.countBelow < 2 ^ 53 := by
    rw [← length, initialValue_of_isView isView, List.length_map]
    exact measured.countable
  have tracks : s.size.Tracks (s.shape.map Number.countBelow).prod :=
    (denotes_shape measured.natural).tracks_size
  have small := tracks.lt_of_countBelow_lt few
  rcases Nat.eq_zero_or_pos (s.shape.map Number.countBelow).prod with none | some_
  · rw [tracks.countBelow_eq_zero_iff.2 none] at length
    exact .inl (List.length_eq_zero_iff.1 length)
  · have denotes := tracks.denotes small some_
    rw [denotes.countBelow_eq] at length
    exact .inr (broadcast_of_length denotes small length)

theorem Kept.present {precision : Precision} {s : Signal} (kept : s.Kept precision)
    (measured : s.isView = true → s.Measured) : none ∉ s.initialValue := by
  cases isView : s.isView with
  | false => exact present_of_not_isView isView
  | true =>
    intro missing
    rcases (measured isView).broadcast_eq isView with none | areValues
    · rw [none] at missing
      cases missing
    · obtain ⟨value, isSome, -⟩ := kept _ areValues none missing
      cases isSome

end Signal

namespace MemoryLayout

open Packing

variable {layout : MemoryLayout} {signals : List Signal} {plan : Plan} {precision : Precision}
  {minibatchSize : Nat} {breaks : List Nat} {p : Packing} {s : Signal} {rows base : Rows}
  {i key : Nat} {a : PendingArray}

/-- Every value is stored at least once. -/
theorem LaidOut.mem_tile (laid : layout.LaidOut signals plan precision minibatchSize breaks p)
    (s : Signal) {α : Type} {values : List α} {v : α} (member : v ∈ values) :
    v ∈ tile values (layout.copies s) := by
  have some_ : layout.copies s ≠ 0 := by
    rw [copies]
    split
    · rw [laid.size]
      exact laid.positive.ne'
    · exact one_ne_zero
  exact List.mem_flatMap.2 ⟨v, member, List.mem_replicate.2 ⟨some_, rfl⟩⟩

/-- The check does not accept missing values. -/
theorem HasRows.present (built : layout.BuiltFrom signals plan precision minibatchSize breaks p)
    (has : HasRows precision minibatchSize p layout s rows i key a base)
    (entry : (s, rows) ∈ layout.rows) (measured : s.isView = true → s.Measured) :
    none ∉ s.initialValue := by
  cases isView : s.isView with
  | false => exact Signal.present_of_not_isView isView
  | true =>
    obtain ⟨-, values, areValues, stored⟩ := has.gathered built entry
    rw [← Signal.eq_initialValue isView (measured isView).countable areValues]
    intro missing
    have isTiled := built.mem_tile s missing
    obtain ⟨value, -, isStored_⟩ := exists_partner stored isTiled
    cases isStored_

theorem LaidOut.measured (laid : layout.LaidOut signals plan precision minibatchSize breaks p)
    (measured : ∀ op ∈ plan.flatten, ∀ t ∈ op.allSignals, t.isView = true → t.Measured)
    (entry : (s, rows) ∈ layout.rows) (isView : s.isView = true) : s.Measured := by
  obtain ⟨op, isOp, isSignal⟩ := laid.mem_plan entry isView
  exact measured op isOp s isSignal isView

/-- The signal is read back with each of its values as the storage for its type keeps it, and its
rows hold each of these values as often as it is stored. -/
def Restores (layout : MemoryLayout) (precision : Precision) (s : Signal) (rows : Rows) : Prop :=
  ∃ storage values a, s.dtype.storage precision = .ok storage ∧
    broadcast s.initialValue s.size = .ok values ∧ none ∉ values ∧
    layout.read s = .ok (values.map (Option.map storage.store)) ∧
    layout.array? rows.key = some a ∧
    rows.gather a = .ok (tile (values.map (Option.map storage.store)) (layout.copies s))

theorem BuiltFrom.restores (built : layout.BuiltFrom signals plan precision minibatchSize breaks p)
    (measured : ∀ op ∈ plan.flatten, ∀ t ∈ op.allSignals, t.isView = true → t.Measured)
    (found : layout.rows.lookup s = some rows) : layout.Restores precision s rows := by
  have entry := Assoc.mem_of_lookup found
  obtain ⟨i, key, a, base, has⟩ := built.exists_hasRows entry
  have isMeasured := built.measured measured entry
  have present := has.present built entry isMeasured
  have presents := has.presents built.toLaidOut isMeasured present
  obtain ⟨array, values, isArray, areValues, gathered, isRead⟩ :=
    presents.read_eq_ok found (built.size ▸ built.positive)
  refine ⟨a.kind.storage, values, array, (of_class?_eq_ok has.isClass).1, areValues,
    fun missing => present (mem_of_broadcast areValues none missing), isRead, isArray, gathered⟩

/-- If all stored values stay close, the check fails only on a list that would be too long. -/
theorem LaidOut.kind_of_check_eq_error_of_kept {e : Error}
    (laid : layout.LaidOut signals plan precision minibatchSize breaks p)
    (measured : ∀ op ∈ plan.flatten, ∀ t ∈ op.allSignals, t.isView = true → t.Measured)
    (kept : ∀ t, Covers signals plan t → t.Kept precision) (failure : layout.check = .error e) :
    e.kind = .capacity := by
  obtain ⟨⟨s, rows⟩, entry, failure⟩ := Except.exists_of_forM_eq_error failure
  obtain ⟨i, key, a, base, has⟩ := laid.exists_hasRows entry
  have isMeasured := laid.measured measured entry
  have presents := has.presents laid isMeasured ((kept s (laid.known _ entry)).present isMeasured)
  obtain ⟨values, -, checks⟩ := presents.checkRows_eq fun q inside => by
    obtain ⟨values, holds, -⟩ := has.exists_holds laid
    obtain ⟨v, member, isValue⟩ := holds.exists_value inside
    obtain ⟨_, isSame, stores⟩ := kept s.root (.inl (has.root_mem laid)) _ holds.read_eq (some v)
      (List.mem_map_of_mem member)
    cases isSame
    have isStorage : s.root.dtype.storage precision = .ok a.kind.storage :=
      (of_class?_eq_ok has.isClass).1
    have stored : a.kind.storage ∈ (s.root.dtype.storage precision).toOption := by
      rw [isStorage]
      rfl
    exact ⟨v, isValue, stores _ stored⟩
  exact (of_checkLength_eq_error (checks.symm.trans failure)).1

/-- A layout fails at the breaks of the order, at an input that cannot be stored, or at its check. -/
theorem of_buildFor_eq_error {size : Number} {e : Error}
    (failure : buildFor signals plan precision size = .error e) :
    Partition.breaks signals plan = .error e ∨ e.kind = .plain ∨ e.kind = .unsupported ∨
      e.kind = .capacity ∧ (∃ minibatchSize, size.Denotes minibatchSize ∧
        ((∃ s ∈ signals, ¬ s.base.Packable minibatchSize) ∨
          ¬ Roomy precision minibatchSize signals)) ∨
      ∃ (layout : MemoryLayout) (minibatchSize : Nat) (breaks : List Nat) (p : Packing),
        size.Denotes minibatchSize ∧
          layout.LaidOut signals plan precision minibatchSize breaks p ∧
          layout.check = .error e := by
  unfold buildFor at failure
  split at failure
  case h_2 =>
    cases failure
    exact .inr (.inl rfl)
  case h_1 minibatchSize isSize =>
    obtain ⟨denotes, positive⟩ := of_minibatchSize?_eq_some isSize
    rcases Except.bind_eq_error_iff.1 failure with failure | ⟨breaks, areBreaks, failure⟩
    · exact .inl failure
    refine .inr ?_
    rcases Except.bind_eq_error_iff.1 failure with failure | ⟨p, isPacking, failure⟩
    · refine (kind_of_ofSignals_eq_error positive failure).imp_right (Or.imp_right ?_)
      exact fun ⟨capacity, long⟩ => .inl ⟨capacity, minibatchSize, denotes, .inl long⟩
    rcases Except.bind_eq_error_iff.1 failure with failure | ⟨_, -, failure⟩
    · obtain ⟨capacity, crowded⟩ :=
        (packed_of_ofSignals isPacking).of_checkLengths_eq_error positive failure
      exact .inr (.inr (.inl ⟨capacity, minibatchSize, denotes, .inr crowded⟩))
    rcases Except.bind_eq_error_iff.1 failure with failure | ⟨rows, areRows, failure⟩
    · exact (kind_of_placeViews_eq_error failure).imp_right .inl
    rcases Except.bind_eq_error_iff.1 failure with failure | ⟨_, -, failure⟩
    · exact .inr (.inr (.inr ⟨_, minibatchSize, breaks, p, denotes,
        laidOut_of_stages positive areBreaks isPacking areRows, failure⟩))
    · cases failure

def reader (s : Signal) : Operator := .func 0 false [] [] [s] [] none

/-- Four rows of two numbers each. -/
def deck : Base :=
  ⟨0, "deck", .float32, [4, 2], [1, 2, 3, 4, 5, 6, 7, 8], false, false, by decide +kernel,
    .inr (by decide +kernel)⟩

/-- One and a half of these rows, that is, three elements in two rows. -/
def part : Signal :=
  ⟨deck, some ⟨1, "part", ⟨[.finite (3 / 2), 2], 0, [2, 1]⟩, rfl⟩, by decide +kernel⟩

theorem natural_extents_six : [(6 : Number)].all Number.isNatural = true := by decide

/-- Six numbers, of which the last ones are close to each other. -/
def slope : Base :=
  ⟨0, "slope", .float32, [6], [0, 0, 0, 1, .finite (1 + 1 / 2 ^ 20), .finite (1 + 1 / 2 ^ 19)],
    false, false, natural_extents_six, .inr (by decide +kernel)⟩

/-- As many elements as the slope has, but the fourth of them twice and the last one not at all. -/
def wrapped : Signal :=
  ⟨slope, some ⟨1, "wrapped", ⟨[2, .finite (3 / 2), 2], 0, [3, 2, 1]⟩, rfl⟩, by decide +kernel⟩

end MemoryLayout

end BatchGraph
