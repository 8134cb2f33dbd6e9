import BatchGraph.Proofs.Layout.Geometry

/-!
Failures of the stages that build a layout.

An error is `inconsistent` if a result has failed its own check.  No stage in front of the check has
such an error: what it refuses is its input.  There is one lemma for each function that can fail.
Packing runs out of space only on a base of which a list cannot hold the values or the rows
(`kind_of_ofSignals_eq_error`), or on bases that leave no room for each other
(`Packed.of_checkLengths_eq_error`).
-/

namespace BatchGraph

theorem kind_of_broadcast_eq_error {α : Type} {values : List α} {size : Number} {e : Error}
    (failure : broadcast values size = .error e) :
    e.kind = .plain ∨ e.kind = .capacity ∧ listLength? size = none := by
  unfold broadcast at failure
  split at failure
  case isTrue => cases failure
  case isFalse =>
    split at failure
    case isTrue =>
      cases failure
      exact .inl rfl
    case isFalse =>
      split at failure
      case h_1 => cases failure
      case h_2 long =>
        cases failure
        exact .inr ⟨rfl, long⟩

namespace Partition

variable {positions : List (Signal × Nat)} {e : Error}

end Partition

/-- Lists can hold what is packed of a base: its values, each as often as it is stored, and the
indices of its rows. -/
structure Base.Packable (b : Base) (minibatchSize : Nat) : Prop where
  size : listLength? b.size ≠ none
  fits : b.extents.prod * b.copies minibatchSize < 2 ^ 32
  rows : b.rows < 2 ^ 32

/-- Lists can hold the values of the signal, each as often as it is stored, and what is packed of its
base. -/
structure Signal.Listable (s : Signal) (minibatchSize : Nat) : Prop where
  base : s.base.Packable minibatchSize
  fits : s.elements.length * s.base.copies minibatchSize < 2 ^ 32

namespace Packing

variable {precision : Precision} {minibatchSize : Nat} {breaks : List Nat} {e : Error}

theorem kind_of_storage_eq_error {dtype : DType} (failure : dtype.storage precision = .error e) :
    e.kind = .unsupported := by
  unfold DType.storage at failure
  split at failure <;> cases failure
  rfl

theorem kind_of_add_eq_error {p : Packing} {entry : Signal × Nat} (positive : 0 < minibatchSize)
    (failure : add precision minibatchSize breaks p entry = .error e) :
    e.kind = .plain ∨ e.kind = .unsupported ∨
      e.kind = .capacity ∧ ¬ entry.1.base.Packable minibatchSize := by
  obtain ⟨s, i⟩ := entry
  unfold add at failure
  dsimp only at failure
  split at failure
  case isTrue =>
    cases failure
    exact .inl rfl
  case isFalse notView =>
    split at failure
    case isTrue =>
      cases failure
      exact .inl rfl
    case isFalse =>
      have shape : s.shape = s.base.shape := by
        rw [Signal.eq_ofBase_of_not_isView (Bool.eq_false_iff.2 notView)]
        rfl
      rw [shape, Shape.size_normalized] at failure
      rcases Except.bind_eq_error_iff.1 failure with failure | ⟨storage, -, failure⟩
      · exact .inr (.inl (kind_of_storage_eq_error failure))
      rcases Except.bind_eq_error_iff.1 failure with failure | ⟨values, areValues, failure⟩
      · exact (kind_of_broadcast_eq_error failure).imp_right fun ⟨capacity, long⟩ =>
          .inr ⟨capacity, fun packable => packable.size long⟩
      refine .inr (.inr ?_)
      rcases Except.bind_eq_error_iff.1 failure with failure | ⟨_, -, failure⟩
      · obtain ⟨capacity, long⟩ := of_checkLength_eq_error failure
        refine ⟨capacity, fun packable => ?_⟩
        have few : s.base.extents.prod < 2 ^ 53 :=
          ((Nat.le_mul_of_pos_right _ (s.base.copies_pos positive)).trans_lt packable.fits).trans
            (by norm_num)
        rw [(Base.sized_of_broadcast few areValues).2] at long
        exact not_lt.2 long packable.fits
      rcases Except.bind_eq_error_iff.1 failure with failure | ⟨_, -, failure⟩
      · obtain ⟨capacity, long⟩ := of_checkLength_eq_error failure
        rw [(Shape.denotes_leading s.base.denotes_extents).countBelow_eq] at long
        exact ⟨capacity, fun packable => not_lt.2 long packable.rows⟩
      · cases failure

theorem kind_of_ofSignals_eq_error {signals : List Signal} (positive : 0 < minibatchSize)
    (failure : ofSignals precision minibatchSize breaks signals = .error e) :
    e.kind = .plain ∨ e.kind = .unsupported ∨ e.kind = .capacity ∧
      ∃ s ∈ signals, ¬ s.base.Packable minibatchSize := by
  obtain ⟨p, entry, member, failure⟩ := Except.exists_of_foldlM_eq_error failure
  refine (kind_of_add_eq_error positive failure).imp_right
    (Or.imp_right fun ⟨capacity, long⟩ => ?_)
  exact ⟨capacity, entry.1, List.fst_mem_of_mem_zipIdx member, long⟩

/-- The values of an array are too many only if those of its class are. -/
theorem Packed.of_checkLengths_eq_error {p : Packing} {signals : List Signal}
    (packed : p.Packed precision minibatchSize breaks signals) (positive : 0 < minibatchSize)
    (failure : p.checkLengths = .error e) :
    e.kind = .capacity ∧ ¬ Roomy precision minibatchSize signals := by
  refine ⟨?_, fun roomy => ?_⟩
  · obtain ⟨a, -, failure⟩ := Except.exists_of_forM_eq_error failure
    exact (of_checkLength_eq_error failure).1
  · cases failure.symm.trans (packed.checkLengths_eq_ok positive roomy)

end Packing

theorem Rows.kind_of_pick_eq_error {r : Rows} {start step : Number} {k count : Nat} {e : Error}
    (failure : r.pick start step k count = .error e) : e.kind = .plain := by
  induction count generalizing k with
  | zero => cases failure
  | succ count ih =>
    rcases Except.bind_eq_error_iff.1 failure with failure | ⟨first, -, failure⟩
    · unfold index at failure
      split at failure <;> cases failure
      rfl
    rcases Except.bind_eq_error_iff.1 failure with failure | ⟨rest, -, failure⟩
    · exact ih failure
    · cases failure

theorem Signal.kind_of_viewRows_eq_error {s : Signal} {base : Rows} {e : Error}
    (failure : s.viewRows base = .error e) : e.kind = .plain ∨ e.kind = .unsupported := by
  unfold viewRows at failure
  dsimp only at failure
  split at failure
  case isTrue =>
    split at failure
    case isTrue =>
      cases failure
      exact .inr rfl
    case isFalse =>
      unfold Rows.reshape at failure
      split at failure <;> cases failure
      exact .inl rfl
  case isFalse =>
    -- Three tests of the geometry, and then the rows are picked.
    iterate 3
      split at failure
      · cases failure
        exact .inr rfl
    rcases Except.bind_eq_error_iff.1 failure with failure | ⟨indices, -, failure⟩
    · exact .inl (Rows.kind_of_pick_eq_error failure)
    · cases failure

theorem kind_of_placeViews_eq_error {placed : List (Signal × Rows)} {plan : Plan} {e : Error}
    (failure : placeViews placed plan = .error e) : e.kind = .plain ∨ e.kind = .unsupported := by
  obtain ⟨entries, s, -, failure⟩ := Except.exists_of_foldlM_eq_error failure
  unfold placeView at failure
  split at failure
  case isTrue => cases failure
  case isFalse =>
    split at failure
    case h_1 =>
      cases failure
      exact .inl rfl
    case h_2 =>
      rcases Except.bind_eq_error_iff.1 failure with failure | ⟨rows, -, failure⟩
      · exact Signal.kind_of_viewRows_eq_error failure
      · cases failure

end BatchGraph
