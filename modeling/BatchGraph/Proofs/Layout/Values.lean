import BatchGraph.Layout.Basic
import BatchGraph.Proofs.Except
import BatchGraph.Proofs.Number.Product
import BatchGraph.Proofs.Signal

/-!
Values: broadcasting, tiling and taking every n-th.

Broadcasting goes element by element, so it does not matter whether it is done before or after
values are wrapped (`broadcast_map`).  Tiling is undone by taking every n-th value
(`everyNth_tile`), and the positions of rows `copies` times as wide are those of the rows, tiled
(`map_div_rowPositions`).

The values of a base are its initial values, broadcast to its size: `Base.Holds` gathers what is
needed of them.
-/

namespace BatchGraph

variable {α β : Type}

/-! ## Tiling -/

theorem tile_map (f : α → β) (xs : List α) (count : Nat) :
    tile (xs.map f) count = (tile xs count).map f := by
  simp [tile, List.flatMap_map, List.map_flatMap]

theorem tile_one (xs : List α) : tile xs 1 = xs := by
  induction xs with
  | nil => rfl
  | cons x xs ih => exact congrArg (x :: ·) ih

theorem tile_flatMap (xs : List α) (f : α → List β) (count : Nat) :
    tile (xs.flatMap f) count = xs.flatMap fun x => tile (f x) count := List.flatMap_assoc

/-- Of copies in a row, whose positions begin at a multiple of their number, the first is taken. -/
theorem everyNth_replicate (x : α) {count start : Nat} (positive : 0 < count)
    (aligned : count ∣ start) :
    ((List.replicate count x).zipIdx start).filter (fun (_, i) => i % count = 0) =
      [(x, start)] := by
  obtain ⟨rest, rfl⟩ := Nat.exists_eq_succ_of_ne_zero positive.ne'
  have others : ((List.replicate rest x).zipIdx (start + 1)).filter
      (fun (_, i) => i % rest.succ = 0) = [] := by
    apply List.filter_eq_nil_iff.2
    intro entry member
    obtain ⟨low, high, -⟩ := List.mem_zipIdx member
    rw [List.length_replicate] at high
    rw [decide_eq_true_eq]
    intro whole
    have between : rest.succ ∣ entry.2 - start :=
      Nat.dvd_sub (Nat.dvd_of_mod_eq_zero whole) aligned
    have := Nat.le_of_dvd (by omega) between
    omega
  rw [List.replicate_succ, List.zipIdx_cons, List.filter_cons_of_pos, others]
  simpa using Nat.mod_eq_zero_of_dvd aligned

theorem everyNth_tile (xs : List α) {count : Nat} (positive : 0 < count) :
    MemoryLayout.everyNth (tile xs count) count = xs := by
  have from_ (start : Nat) (aligned : count ∣ start) :
      (((tile xs count).zipIdx start).filter fun (_, i) => i % count = 0).map (·.1) = xs := by
    induction xs generalizing start with
    | nil => rfl
    | cons x xs ih =>
      have split : tile (x :: xs) count = List.replicate count x ++ tile xs count := rfl
      rw [split, List.zipIdx_append, List.filter_append, List.map_append,
        everyNth_replicate x positive aligned, List.length_replicate,
        ih (start + count) (Nat.dvd_add aligned (Nat.dvd_refl count))]
      rfl
  exact from_ 0 (Nat.dvd_zero count)

theorem tile_range (width copies : Nat) :
    tile (List.range width) copies = (List.range (width * copies)).map (· / copies) := by
  rw [← Shape.rowPositions_range, Shape.rowPositions, List.map_flatMap, tile]
  apply List.flatMap_congr
  intro i _
  rw [List.map_map]
  refine (List.eq_replicate_iff.2 ⟨?_, ?_⟩).symm
  · rw [List.length_map, List.length_range]
  · intro q member
    obtain ⟨j, less, rfl⟩ := List.mem_map.1 member
    rw [List.mem_range] at less
    rw [Function.comp_apply, Nat.mul_comm, Nat.mul_add_div (by omega), Nat.div_eq_of_lt less,
      Nat.add_zero]

/-- Positions in rows `copies` times as wide, counted in units of `copies`. -/
theorem map_div_rowPositions (width copies : Nat) (rows : List Nat) :
    (Shape.rowPositions (width * copies) rows).map (· / copies) =
      tile (Shape.rowPositions width rows) copies := by
  rw [Shape.rowPositions, Shape.rowPositions, tile_flatMap, List.map_flatMap]
  apply List.flatMap_congr
  intro i _
  rw [tile_map, tile_range, List.map_map, List.map_map]
  apply List.map_congr_left
  intro j member
  have positive : 0 < copies := by
    rcases Nat.eq_zero_or_pos copies with rfl | positive
    · simp at member
    · exact positive
  have regroup : i * (width * copies) + j = copies * (i * width) + j := by
    rw [← Nat.mul_assoc, Nat.mul_comm]
  rw [Function.comp_apply, Function.comp_apply, regroup, Nat.mul_add_div positive]

/-! ## Broadcasting -/

theorem cycleTo_map (f : α → β) (xs : List α) (count : Nat) :
    cycleTo (xs.map f) count = (cycleTo xs count).map f := by
  unfold cycleTo
  rw [List.length_map]
  split
  · rfl
  · rw [List.map_filterMap]
    simp

theorem broadcast_map (f : α → β) (xs : List α) (size : Number) :
    broadcast (xs.map f) size = (broadcast xs size).map (List.map f) := by
  unfold broadcast
  rw [List.length_map, List.isEmpty_map]
  split
  · rfl
  · split
    · rfl
    · cases listLength? size with
      | none => rfl
      | some length => exact congrArg Except.ok (cycleTo_map f xs length)

theorem broadcast_of_length {xs : List α} {size : Number} {n : Nat} (h : size.Denotes n)
    (small : n < 2 ^ 53) (length : xs.length = n) : broadcast xs size = .ok xs :=
  if_pos (((Number.denotes_ofNat (length ▸ small)).same_iff h).2 length)

theorem broadcast_singleton (x : α) {size : Number} {n : Nat} (h : size.Denotes n)
    (small : n < 2 ^ 32) : broadcast [x] size = .ok (List.replicate n x) := by
  by_cases one : n = 1
  · subst one
    exact broadcast_of_length h (by decide) rfl
  · have differs : ¬ (Number.ofNat [x].length).same size = true := fun same =>
      one ((Number.denotes_one.same_iff h).1 same).symm
    have length : listLength? size = some n := by
      rw [listLength?, h.toNat?_eq, Option.filter_some]
      exact if_pos (decide_eq_true small)
    rw [broadcast, if_neg differs, if_neg (by simp), length]
    apply congrArg Except.ok
    rw [cycleTo, if_neg (fun same => one same.symm)]
    simp [Nat.mod_one, List.map_const']

theorem mem_of_mem_cycleTo {xs : List α} {count : Nat} {x : α} (member : x ∈ cycleTo xs count) :
    x ∈ xs := by
  unfold cycleTo at member
  split at member
  · exact member
  · obtain ⟨i, -, found⟩ := List.mem_filterMap.1 member
    exact List.mem_of_getElem? found

/-- Values are broadcast as they are if they look as many as asked for, and are repeated otherwise. -/
theorem of_broadcast_eq_ok {xs values : List α} {size : Number}
    (success : broadcast xs size = .ok values) :
    (Number.ofNat xs.length).same size = true ∧ values = xs ∨
      (Number.ofNat xs.length).same size = false ∧ size.Denotes values.length ∧
        ∀ v ∈ values, v ∈ xs := by
  unfold broadcast at success
  split at success
  case isTrue same =>
    cases success
    exact .inl ⟨same, rfl⟩
  case isFalse differ =>
    split at success
    case isTrue => cases success
    case isFalse some_ =>
      split at success
      case h_1 length isLength =>
        cases success
        refine .inr ⟨Bool.eq_false_iff.2 differ, ?_, fun v => mem_of_mem_cycleTo⟩
        rw [length_cycleTo fun none => some_ (List.isEmpty_iff.2 none)]
        exact Number.denotes_of_toNat?_eq_some (Option.filter_eq_some_iff.1 isLength).1
      case h_2 => cases success

theorem mem_of_broadcast {xs values : List α} {size : Number}
    (success : broadcast xs size = .ok values) : ∀ v ∈ values, v ∈ xs := by
  rcases of_broadcast_eq_ok success with ⟨-, rfl⟩ | ⟨-, -, source⟩
  · exact fun v member => member
  · exact source

/-- Broadcasting gives as many values as asked for, if these can be counted. -/
theorem denotes_of_broadcast {xs values : List α} {size : Number}
    (success : broadcast xs size = .ok values) (small : values.length < 2 ^ 53) :
    size.Denotes values.length := by
  rcases of_broadcast_eq_ok success with ⟨same, rfl⟩ | ⟨-, size, -⟩
  · exact (Number.denotes_ofNat small).of_same same
  · exact size

/-- As many values as asked for are broadcast as they are. -/
theorem eq_of_broadcast {xs values : List α} {size : Number}
    (success : broadcast xs size = .ok values) (length : xs.length = size.countBelow)
    (small : xs.length < 2 ^ 53) : values = xs := by
  rcases of_broadcast_eq_ok success with ⟨-, rfl⟩ | ⟨differ, denotes, -⟩
  · rfl
  · rw [denotes.countBelow_eq] at length
    rw [((Number.denotes_ofNat small).same_iff denotes).2 length] at differ
    cases differ

/-! ## Values of bases -/

/-- The initial values of a base, one for each element. -/
structure Base.Holds (b : Base) (values : List Number) : Prop where
  broadcast_eq : broadcast b.initial b.size = .ok values
  value_eq : values.map some = (List.range b.extents.prod).map b.value?
  source : ∀ v ∈ values, v ∈ b.initial

theorem Base.tracks_size (b : Base) : b.size.Tracks b.extents.prod :=
  Shape.Denotes.tracks_size b.denotes_extents

theorem Base.denotes_size (b : Base) (small : Shape.bulk b.extents < 2 ^ 53) :
    b.size.Denotes b.extents.prod := Shape.denotes_size b.denotes_extents small

/-- A base that can be broadcast has as many values as its extents say, if these can be counted. -/
theorem Base.length_of_broadcast {b : Base} {values : List Number}
    (success : broadcast b.initial b.size = .ok values) (small : values.length < 2 ^ 53) :
    values.length = b.extents.prod :=
  (b.tracks_size.eq_of_denotes (denotes_of_broadcast success small) small).symm

/-- What a base is broadcast to are its values. -/
theorem Base.holds_of_broadcast {b : Base} {values : List Number}
    (success : broadcast b.initial b.size = .ok values) (small : values.length < 2 ^ 53) :
    b.Holds values := by
  have source := mem_of_broadcast success
  have length := b.length_of_broadcast success small
  refine ⟨success, ?_, source⟩
  rw [← length]
  by_cases single : b.initial.length = 1
  · obtain ⟨x, initial⟩ := List.length_eq_one_iff.1 single
    have value : b.value? = fun _ => some x := by
      funext i
      simp [Base.value?, Base.valueAt?, initial]
    have constant : values = List.replicate values.length x := by
      refine List.eq_replicate_iff.2 ⟨rfl, fun v member => ?_⟩
      have given := source v member
      rw [initial] at given
      exact List.mem_singleton.1 given
    rw [value, List.map_const', List.length_range, constant, List.map_replicate,
      List.length_replicate]
  · have given : values = b.initial := by
      have same : (Number.ofNat b.initial.length).same b.size = true :=
        b.initial_length.resolve_left single
      rw [broadcast, if_pos same] at success
      exact (Except.ok.inj success).symm
    have value (i : Nat) : b.value? i = b.initial[i]? := by
      unfold Base.value? Base.valueAt?
      split
      case h_1 x initial => exact absurd (congrArg List.length initial) single
      case h_2 => rw [(Number.denotes_count i).toNat?_eq, Option.bind_some]
    rw [given]
    apply List.ext_getElem (by simp)
    intro i inside _
    rw [List.length_map] at inside
    simp [value, inside]

theorem Base.exists_holds (b : Base) (small : Shape.bulk b.extents < 2 ^ 53)
    (fits : b.extents.prod < 2 ^ 32) : ∃ values, b.Holds values := by
  have size := b.denotes_size small
  by_cases single : b.initial.length = 1
  · obtain ⟨x, initial⟩ := List.length_eq_one_iff.1 single
    have success := broadcast_singleton x size fits
    rw [← initial] at success
    exact ⟨_, b.holds_of_broadcast success (by rw [List.length_replicate]; omega)⟩
  · have length : b.initial.length = b.extents.prod :=
      Number.eq_of_ofNat_same size (by omega) (b.initial_length.resolve_left single)
    exact ⟨_, b.holds_of_broadcast (broadcast_of_length size (by omega) length) (by omega)⟩

theorem Base.Holds.length_eq {b : Base} {values : List Number} (holds : b.Holds values) :
    values.length = b.extents.prod := by
  have count := congrArg List.length holds.value_eq
  rwa [List.length_map, List.length_map, List.length_range] at count

/-- Every element has a value. -/
theorem Base.Holds.exists_value {b : Base} {values : List Number} (holds : b.Holds values) {q : Nat}
    (inside : q < b.extents.prod) : ∃ v ∈ values, b.value? q = some v := by
  have value := congrArg (·[q]?) holds.value_eq
  simp only [List.getElem?_map, List.getElem?_range inside, Option.map_some] at value
  obtain ⟨v, found, isValue⟩ := Option.map_eq_some_iff.1 value
  exact ⟨v, List.mem_of_getElem? found, isValue.symm⟩

/-- The copies of a value stand in its place. -/
theorem Base.Holds.getElem?_tile {b : Base} {values : List Number} (holds : b.Holds values)
    {copies q : Nat} (inside : q < b.extents.prod * copies) :
    (tile values copies)[q]? = b.value? (q / copies) := by
  have values_eq : (tile values copies).map some =
      (List.range (b.extents.prod * copies)).map fun q => b.value? (q / copies) := by
    rw [← tile_map, holds.value_eq, tile_map, tile_range, List.map_map]
    rfl
  have value := congrArg (·[q]?) values_eq
  simp only [List.getElem?_map, List.getElem?_range inside, Option.map_some] at value
  obtain ⟨v, found, isValue⟩ := Option.map_eq_some_iff.1 value
  rw [found, isValue]

/-- Broadcasting the wrapped initial values gives the wrapped values. -/
theorem Base.Holds.read_eq {b : Base} {values : List Number} (holds : b.Holds values) :
    broadcast (Signal.ofBase b).initialValue b.size = .ok (values.map some) := by
  have initial : (Signal.ofBase b).initialValue = b.initial.map some := rfl
  rw [initial, broadcast_map, holds.broadcast_eq]
  rfl

end BatchGraph
