import BatchGraph.Proofs.Layout.Stored
import BatchGraph.Proofs.Number.Close

/-!
Building a layout.

A base is `Storable` if its values survive storage, can be listed, and can be counted.  For storable
bases that leave room for each other (`Packing.Roomy`) and regular views no stage of building fails:
the breaks of the order are found (`Partition.exists_breaks`), the bases are packed
(`Packing.exists_ofSignals`), every view gets rows (`exists_placeViews`), and what is built passes
its check (`MemoryLayout.exists_build`).  The layout presents every base of the order and every
signal of the plan as it was declared.
-/

namespace BatchGraph

/-! ## Bases that can be packed -/

/-- The base has a type that is stored as it is, values that are kept by the storage, and fewer than
`2 ^ 32` rows and values, each as often as it is stored, whose positions in a row of the array are
exact. -/
structure Base.Storable (precision : Precision) (minibatchSize : Nat) (b : Base) : Prop where
  dtype : b.dtype ∈ [DType.float32, .float64, .int32, .int64]
  isFinite : ∀ v ∈ b.initial, v.value?.isSome = true
  stored : ∀ storage, b.dtype.storage precision = .ok storage →
    ∀ v ∈ b.initial, storage.store v = v
  rows : b.rows < 2 ^ 32
  fits : b.extents.prod * b.copies minibatchSize < 2 ^ 32
  exact : Shape.bulk b.extents * b.copies minibatchSize < 2 ^ 53

namespace Base.Storable

variable {precision : Precision} {minibatchSize : Nat} {b : Base}

theorem exists_storage (storable : b.Storable precision minibatchSize) :
    ∃ storage, b.dtype.storage precision = .ok storage := by
  have dtype := storable.dtype
  simp only [List.mem_cons, List.not_mem_nil, or_false] at dtype
  rcases dtype with h | h | h | h <;> rw [h] <;> exact ⟨_, rfl⟩

theorem small (storable : b.Storable precision minibatchSize) (positive : 0 < minibatchSize) :
    Shape.bulk b.extents < 2 ^ 53 :=
  (Nat.le_mul_of_pos_right _ (b.copies_pos positive)).trans_lt storable.exact

theorem exists_holds (storable : b.Storable precision minibatchSize) (positive : 0 < minibatchSize) :
    ∃ values, b.Holds values :=
  b.exists_holds (storable.small positive)
    ((Nat.le_mul_of_pos_right _ (b.copies_pos positive)).trans_lt storable.fits)

end Base.Storable

namespace Packing

variable {precision : Precision} {minibatchSize : Nat} {breaks : List Nat} {p : Packing}
  {signals done : List Signal}

/-- A new base is packed. -/
theorem Packed.exists_add (packed : p.Packed precision minibatchSize breaks done) {b : Base}
    (positive : 0 < minibatchSize) (storable : b.Storable precision minibatchSize)
    (new : .ofBase b ∉ done) (i : Nat) :
    ∃ q, Packing.add precision minibatchSize breaks p (.ofBase b, i) = .ok q := by
  obtain ⟨storage, isStorage⟩ := storable.exists_storage
  obtain ⟨values, holds⟩ := storable.exists_holds positive
  have unplaced : (p.placed.lookup (.ofBase b)).isSome = false := by
    rw [Bool.eq_false_iff, Ne, List.lookup_isSome_iff]
    rintro ⟨entry, member, same⟩
    rw [← packed.keys, eq_of_beq same] at new
    exact new (List.mem_map.2 ⟨entry, member, rfl⟩)
  have isView : (Signal.ofBase b).isView = false := rfl
  have shape : (Signal.ofBase b).shape = b.shape := rfl
  have dtype : (Signal.ofBase b).dtype = b.dtype := rfl
  have size : broadcast (Signal.ofBase b).base.initial (Shape.size (Shape.normalized b.shape)) =
      .ok values := by
    rw [Shape.size_normalized]
    exact holds.broadcast_eq
  have few : checkLength (values.length *
      if (Signal.ofBase b).minibatched then minibatchSize else 1) = .ok () := by
    rw [checkLength_eq_ok_iff, holds.length_eq]
    exact storable.fits
  have rows : checkLength (Shape.leading b.shape).countBelow = .ok () := by
    rw [checkLength_eq_ok_iff, (Shape.denotes_leading b.denotes_extents).countBelow_eq]
    exact storable.rows
  unfold Packing.add
  simp only [isView, unplaced, shape, dtype, isStorage, size, few, rows, Except.ok_bind,
    Bool.false_eq_true, if_false]
  exact ⟨_, rfl⟩

theorem exists_ofSignals (breaks : List Nat) (positive : 0 < minibatchSize)
    (distinct : signals.Nodup)
    (storable : ∀ s ∈ signals, s = s.root ∧ s.base.Storable precision minibatchSize) :
    ∃ p, ofSignals precision minibatchSize breaks signals = .ok p := by
  have from_ (rest done : List Signal) (p : Packing)
      (packed : p.Packed precision minibatchSize breaks done) (distinct : (done ++ rest).Nodup)
      (storable : ∀ s ∈ rest, s = s.root ∧ s.base.Storable precision minibatchSize) :
      ∃ q, (rest.zipIdx done.length).foldlM (add precision minibatchSize breaks) p = .ok q := by
    induction rest generalizing done p with
    | nil => exact ⟨p, rfl⟩
    | cons s rest ih =>
      obtain ⟨⟨isBase, suits⟩, later⟩ := List.forall_mem_cons.1 storable
      have new : s ∉ done := by
        have apart := (List.nodup_append.1 distinct).2.2
        exact fun isDone => apart s isDone s List.mem_cons_self rfl
      obtain ⟨next, first⟩ : ∃ next, add precision minibatchSize breaks p (s, done.length) =
          .ok next := by
        rw [isBase] at new ⊢
        exact packed.exists_add positive suits new done.length
      rw [List.append_cons] at distinct
      obtain ⟨last, rest_⟩ := ih (done ++ [s]) next (packed.add first) distinct later
      rw [List.length_append, List.length_singleton] at rest_
      exact ⟨last, by rw [List.zipIdx_cons, List.foldlM_cons, first]; exact rest_⟩
  exact from_ signals [] {} packed_nil distinct storable

end Packing

/-! ## Views -/

section Views

variable {precision : Precision} {minibatchSize : Nat} {breaks : List Nat} {p : Packing}
  {signals : List Signal}

/-- A regular view of a base in the order gets rows. -/
theorem PlacesViews.exists_placeView {entries : List (Signal × Rows)}
    (places : PlacesViews p.placed entries)
    (packed : p.Packed precision minibatchSize breaks signals) (positive : 0 < minibatchSize)
    (storable : ∀ s ∈ signals, s = s.root ∧ s.base.Storable precision minibatchSize) {s : Signal}
    (known : s.root ∈ signals) (regular : s.Regular) :
    ∃ next, BatchGraph.placeView entries s = .ok next := by
  unfold BatchGraph.placeView
  split
  case isTrue => exact ⟨entries, rfl⟩
  case isFalse todo =>
    rw [Bool.or_eq_true, Bool.not_eq_true', not_or, Bool.not_eq_false] at todo
    have isStorable : s.base.Storable precision minibatchSize := (storable _ known).2
    rw [← packed.keys] at known
    obtain ⟨base, found⟩ := Assoc.mem_keys_iff.1 known
    obtain ⟨i, isAt⟩ := List.mem_iff_getElem?.1 (Assoc.mem_of_lookup found)
    obtain ⟨key, a, -, -, isBase⟩ := packed.entries i s.root base isAt
    obtain ⟨values, holds⟩ := isStorable.exists_holds positive
    obtain ⟨rows, -, success, -⟩ := regular.exists_viewRows todo.1
      (holds.shows_baseRows key _ a.kind.storage) rfl (isStorable.small positive)
    rw [places.lookup_root, found]
    simp only
    rw [isBase, success]
    exact ⟨_, rfl⟩

theorem exists_placeViews (packed : p.Packed precision minibatchSize breaks signals)
    (positive : 0 < minibatchSize)
    (storable : ∀ s ∈ signals, s = s.root ∧ s.base.Storable precision minibatchSize) {plan : Plan}
    (known : ∀ op ∈ plan.flatten, ∀ s ∈ op.allSignals, s.root ∈ signals)
    (regular : ∀ op ∈ plan.flatten, ∀ s ∈ op.allSignals, s.Regular) :
    ∃ rows, placeViews p.placed plan = .ok rows := by
  obtain ⟨rows, success, -⟩ := Except.foldlM_eq_ok (PlacesViews p.placed)
    (PlacesViews.refl (packed.keys ▸ packed.distinct)) fun entries places s member => by
      obtain ⟨op, isOp, isSignal⟩ := List.mem_flatMap.1 member
      obtain ⟨next, success⟩ := places.exists_placeView packed positive storable
        (known op isOp s isSignal) (regular op isOp s isSignal)
      exact ⟨next, success, (places.placeView success).1⟩
  exact ⟨rows, success⟩

end Views

/-! ## Layouts -/

namespace MemoryLayout

variable {layout : MemoryLayout} {precision : Precision} {minibatchSize : Nat}
  {breaks : List Nat} {p : Packing} {signals : List Signal} {plan : Plan}

section Storable

variable (laid : layout.LaidOut signals plan precision minibatchSize breaks p)
  (storable : ∀ s ∈ signals, s = s.root ∧ s.base.Storable precision minibatchSize)
  (regular : ∀ op ∈ plan.flatten, ∀ s ∈ op.allSignals, s.Regular) {s : Signal} {rows base : Rows}
  {i key : Nat} {a : PendingArray}

include laid storable regular

/-- The rows of a regular view show it, and are no more than those of its base. -/
theorem HasRows.exists_shows_of_regular
    (has : HasRows precision minibatchSize p layout s rows i key a base)
    (entry : (s, rows) ∈ layout.rows) :
    ∃ picked, rows.Shows s (Packing.rowsOf (Packing.members (p.placed.take i) key)) picked ∧
      picked.length ≤ s.base.rows := by
  have baseShows := has.base_shows laid
  rcases has.rows_eq with ⟨whole, rfl⟩ | ⟨isView, areRows⟩
  · rw [Signal.eq_ofBase_of_not_isView whole]
    exact ⟨_, baseShows, List.length_range.le⟩
  · have isStorable : s.base.Storable precision minibatchSize := (storable _ (has.root_mem laid)).2
    obtain ⟨op, isOp, isSignal⟩ := laid.mem_plan entry isView
    obtain ⟨rows', picked, success, -, shows, few⟩ := (regular op isOp s isSignal).exists_viewRows
      isView baseShows (by rw [has.base_eq]; rfl) (isStorable.small laid.positive)
    cases success.symm.trans areRows
    exact ⟨picked, shows, few⟩

/-- Signals with storable bases are presented as they were declared. -/
theorem LaidOut.presents (entry : (s, rows) ∈ layout.rows) : layout.Presents id s rows := by
  obtain ⟨i, key, a, base, has⟩ := laid.exists_hasRows entry
  have isStorable : s.base.Storable precision minibatchSize := (storable _ (has.root_mem laid)).2
  obtain ⟨picked, shows, -⟩ := has.exists_shows_of_regular laid storable regular entry
  refine (has.presents_of_shows laid shows).congr fun q inside => ?_
  obtain ⟨values, holds⟩ := isStorable.exists_holds laid.positive
  obtain ⟨v, member, isValue⟩ := holds.exists_value inside
  rw [isValue, Option.map_id, Option.map_some,
    isStorable.stored _ (Packing.of_class?_eq_ok has.isClass).1 v (holds.source v member)]
  rfl

/-- Signals with storable bases pass the check. -/
theorem LaidOut.checkRows_eq_ok_of_storable (entry : (s, rows) ∈ layout.rows) :
    layout.checkRows s rows = .ok () := by
  obtain ⟨i, key, a, base, has⟩ := laid.exists_hasRows entry
  have isStorable : s.base.Storable precision minibatchSize := (storable _ (has.root_mem laid)).2
  obtain ⟨values, areValues, checks⟩ := (laid.presents storable regular entry).checkRows_eq
    fun q inside => by
      obtain ⟨values, holds⟩ := isStorable.exists_holds laid.positive
      obtain ⟨v, member, isValue⟩ := holds.exists_value inside
      exact ⟨v, isValue, Number.isClose_self (isStorable.isFinite v (holds.source v member))⟩
  obtain ⟨picked, shows, few⟩ := has.exists_shows_of_regular laid storable regular entry
  have length : values.length = picked.length * s.base.width := by
    rw [Except.ok.inj (areValues.symm.trans shows.initial), Base.rowValues, List.length_map,
      Shape.length_rowPositions]
  have fits := isStorable.fits
  rw [s.base.prod_extents] at fits
  rw [checks, checkLength_eq_ok_iff, laid.copies_eq, length]
  exact (Nat.mul_le_mul_right _ (Nat.mul_le_mul_right _ few)).trans_lt fits

end Storable

/-- A layout is built, and it presents the bases of the order and the signals of the plan. -/
theorem exists_build (positive : 0 < minibatchSize) (distinct : signals.Nodup)
    (storable : ∀ s ∈ signals, s = s.root ∧ s.base.Storable precision minibatchSize)
    (roomy : Packing.Roomy precision minibatchSize signals) (slotted : plan.Slotted signals)
    (regular : ∀ op ∈ plan.flatten, ∀ s ∈ op.allSignals, s.Regular) :
    ∃ layout, build signals plan precision minibatchSize = .ok layout ∧
      layout.minibatchSize = minibatchSize ∧
      ∀ s, (s ∈ signals ∨ ∃ op ∈ plan.flatten, s ∈ op.allSignals) →
        ∃ rows, layout.rows.lookup s = some rows ∧ layout.Presents id s rows := by
  have covered : ∀ op ∈ plan.flatten, ∀ s ∈ op.allSignals, s.root ∈ signals := by
    intro op isOperator
    obtain ⟨group, isGroup, inGroup⟩ := List.mem_flatten.1 isOperator
    exact slotted.covered group isGroup op inGroup
  obtain ⟨breaks, areBreaks⟩ := Partition.exists_breaks slotted.aligned
  obtain ⟨p, isPacking⟩ := Packing.exists_ofSignals breaks positive distinct storable
  have packed := Packing.packed_of_ofSignals isPacking
  obtain ⟨rows, areRows⟩ := exists_placeViews packed positive storable covered regular
  have laid := laidOut_of_stages positive areBreaks isPacking areRows
  refine ⟨_, build_eq_ok areBreaks isPacking (packed.checkLengths_eq_ok positive roomy) areRows
    (Except.forM_eq_ok fun entry member =>
      laid.checkRows_eq_ok_of_storable storable regular member), rfl, fun s known => ?_⟩
  obtain ⟨rows', isEntry⟩ : ∃ rows', rows.lookup s = some rows' := by
    rcases known with isBase | ⟨op, isOp, isSignal⟩
    · exact laid.exists_rows_iff.2 (.inl isBase)
    · exact laid.exists_entry isOp isSignal (covered op isOp s isSignal)
  exact ⟨rows', isEntry, laid.presents storable regular (Assoc.mem_of_lookup isEntry)⟩

end MemoryLayout

end BatchGraph
