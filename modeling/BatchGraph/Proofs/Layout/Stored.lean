import BatchGraph.Proofs.Layout.Geometry

/-!
Where the values of a base are stored.

The array of a base consists of the values of its bases, one base after the other, so those of the
base are behind those of the bases in front of it (`HasRows.stores`).  A signal whose elements all
have values is therefore presented, with its values as the array stores them (`HasRows.presents`).
-/

namespace BatchGraph

/-- All rows of a base show it. -/
theorem Base.Holds.shows_baseRows {s : Signal} {values : List Number} (holds : s.base.Holds values)
    (key start : Nat) (storage : Storage) :
    (Packing.baseRows s.root key start storage).Shows s.root start (List.range s.base.rows) := by
  have own := Shape.denotes_normalized s.base.denotes_extents
  have size : (Signal.ofBase s.base).size = s.base.size := rfl
  refine ⟨rfl, fun r member => List.mem_range.1 member, Shape.same_of_denotes own own, rfl, ?_⟩
  rw [Signal.root, size, holds.read_eq, holds.value_eq, s.base.prod_extents,
    ← Shape.rowPositions_range]
  rfl

namespace Packing

variable {precision : Precision} {minibatchSize : Nat} {breaks : List Nat} {p : Packing}
  {signals : List Signal} {key : Nat} {a : PendingArray}

/-! ## Chunks -/

/-- The chunk of a base has its values. -/
theorem IsChunk.holds {chunk : List Number} {b : Base} (isChunk : IsChunk minibatchSize chunk b)
    (positive : 0 < minibatchSize) :
    ∃ values, b.Holds values ∧ chunk = tile values (b.copies minibatchSize) := by
  obtain ⟨values, areValues, rfl, few⟩ := isChunk
  rw [length_tile] at few
  have least := Nat.le_mul_of_pos_right values.length (b.copies_pos positive)
  have small := least.trans_lt (few.trans (by norm_num : 2 ^ 32 < 2 ^ 53))
  exact ⟨values, b.holds_of_broadcast areValues small, rfl⟩

theorem members_split {i : Nat} {s : Signal} {rows : Rows} (isAt : p.placed[i]? = some (s, rows))
    (isKey : rows.key = .count key) :
    ∃ later, members p.placed key = members (p.placed.take i) key ++ s.base :: later := by
  have split : p.placed = p.placed.take (i + 1) ++ p.placed.drop (i + 1) :=
    (List.take_append_drop _ _).symm
  refine ⟨members (p.placed.drop (i + 1)) key, ?_⟩
  have all : members p.placed key =
      members (p.placed.take (i + 1)) key ++ members (p.placed.drop (i + 1)) key := by
    rw [members, members, members, ← List.map_append, ← List.filter_append, ← split]
  rw [all, members_concat_of_at isAt, if_pos isKey, List.append_assoc, List.singleton_append]

/-- The values of a base are behind those of the bases in front of it. -/
theorem getElem?_flatten_chunks {chunks : List (List Number)} {earlier later : List Base} {b : Base}
    (areChunks : List.Forall₂ (IsChunk minibatchSize) chunks (earlier ++ b :: later))
    (positive : 0 < minibatchSize) {width : Nat}
    (ofWidth : ∀ b' ∈ earlier ++ b :: later, b'.width * b'.copies minibatchSize = width)
    {q : Nat} (inside : q < b.extents.prod * b.copies minibatchSize) :
    chunks.flatten[rowsOf earlier * width + q]? = b.value? (q / b.copies minibatchSize) := by
  induction earlier generalizing chunks with
  | nil =>
    cases areChunks with
    | cons first _ =>
      obtain ⟨values, holds, rfl⟩ := first.holds positive
      have bound : q < (tile values (b.copies minibatchSize)).length := by
        rwa [length_tile, holds.length_eq]
      have start : rowsOf [] * width + q = q := by simp [rowsOf]
      rw [start, List.flatten_cons, List.getElem?_append_left bound, holds.getElem?_tile inside]
  | cons b' earlier ih =>
    rw [List.cons_append] at areChunks ofWidth
    rw [List.forall_mem_cons] at ofWidth
    cases areChunks with
    | @cons chunk _ chunks _ first rest =>
      have start : rowsOf (b' :: earlier) * width + q =
          chunk.length + (rowsOf earlier * width + q) := by
        rw [first.length positive, b'.prod_extents, Nat.mul_assoc, ofWidth.1, ← Nat.add_assoc,
          ← Nat.add_mul]
        simp [rowsOf]
      rw [start, List.flatten_cons, List.getElem?_append_right (Nat.le_add_right _ _),
        Nat.add_sub_cancel_left, ih rest ofWidth.2]

end Packing

/-! ## Entries -/

namespace MemoryLayout

open Packing

variable {layout : MemoryLayout} {signals : List Signal} {plan : Plan} {precision : Precision}
  {minibatchSize : Nat} {breaks : List Nat} {p : Packing} {s : Signal} {rows base : Rows}
  {i key : Nat} {a : PendingArray}

section Entry

variable (laid : layout.LaidOut signals plan precision minibatchSize breaks p)
  (has : HasRows precision minibatchSize p layout s rows i key a base)

include laid has in
theorem HasRows.root_mem : s.root ∈ signals := by
  rw [← laid.packed.keys]
  exact List.mem_map.2 ⟨_, List.mem_of_getElem? has.isAt, rfl⟩

include has in
/-- The base of an entry is one of those in its array. -/
theorem HasRows.split : ∃ later,
    members p.placed key = members (p.placed.take i) key ++ s.base :: later :=
  members_split (s := s.root) has.isAt (by rw [has.base_eq]; rfl)

include laid has

/-- What has been packed of a base are its values, each as often as it is stored. -/
theorem HasRows.exists_holds : ∃ values, s.base.Holds values ∧
    values.length * s.base.copies minibatchSize < 2 ^ 32 := by
  obtain ⟨later, split⟩ := has.split
  have isMember : s.base ∈ members p.placed key := by
    rw [split]
    exact List.mem_append_right _ List.mem_cons_self
  obtain ⟨chunk, -, isChunk⟩ : ∃ chunk ∈ a.chunks, IsChunk minibatchSize chunk s.base :=
    exists_partner (laid.packed.arrays key a has.array).chunks.flip isMember
  obtain ⟨values, holds, rfl⟩ := isChunk.holds laid.positive
  obtain ⟨-, -, -, few⟩ := isChunk
  exact ⟨values, holds, by rwa [length_tile] at few⟩

theorem HasRows.sized : s.base.Sized := by
  obtain ⟨values, holds, few⟩ := has.exists_holds laid
  have least := Nat.le_mul_of_pos_right values.length (s.base.copies_pos laid.positive)
  have small := least.trans_lt (few.trans (by norm_num : 2 ^ 32 < 2 ^ 53))
  have size := denotes_of_broadcast holds.broadcast_eq small
  rw [holds.length_eq] at size small
  exact ⟨size, small⟩

/-- The array of an entry has the values of its base, behind those of the bases in front of it. -/
theorem HasRows.stores : (a.toArray key minibatchSize).Stores a.kind.storage.store
    (rowsOf (members (p.placed.take i) key)) (s.base.copies minibatchSize) s.base := by
  obtain ⟨extents, copies⟩ := has.of_class laid
  have width : a.extents.prod * a.copies minibatchSize =
      s.base.width * s.base.copies minibatchSize := by
    rw [extents, copies]
    rfl
  refine ⟨fun some_ => ?_, ?_, fun q inside => ?_⟩
  · obtain ⟨values, holds, few⟩ := has.exists_holds laid
    rw [holds.length_eq, s.base.prod_extents, Nat.mul_assoc] at few
    exact (Nat.le_mul_of_pos_left _ some_).trans_lt (few.trans (by norm_num))
  · rw [← width]
    exact PendingArray.tracks_rowSize (laid.packed.arrays key a has.array).denotes key minibatchSize
  · have chunks := (laid.packed.arrays key a has.array).chunks
    have widths := laid.packed.width_eq has.array
    obtain ⟨later, split⟩ := has.split
    rw [split] at chunks widths
    have data : (a.toArray key minibatchSize).data =
        (a.chunks.flatten.map a.kind.storage.store).toArray := rfl
    rw [data, List.getElem?_toArray, List.getElem?_map, ← width,
      getElem?_flatten_chunks chunks laid.positive widths inside]

theorem HasRows.base_shows : base.Shows s.root (rowsOf (members (p.placed.take i) key))
    (List.range s.base.rows) := by
  obtain ⟨values, holds, -⟩ := has.exists_holds laid
  rw [has.base_eq]
  exact holds.shows_baseRows key _ a.kind.storage

/-- The rows of an entry show its signal, if all its elements have values. -/
theorem HasRows.exists_shows (measured : s.isView = true → s.Measured)
    (present : none ∉ s.initialValue) :
    ∃ picked, rows.Shows s (rowsOf (members (p.placed.take i) key)) picked := by
  rcases has.rows_eq with ⟨whole, rfl⟩ | ⟨isView, areRows⟩
  · rw [Signal.eq_ofBase_of_not_isView whole]
    exact ⟨_, has.base_shows laid⟩
  · exact Signal.exists_shows (measured isView) (has.sized laid) isView present has.base_eq
      areRows

/-- Where the rows of an entry show its signal, it is presented as its array stores it. -/
theorem HasRows.presents_of_shows {picked : List Nat}
    (shows : rows.Shows s (rowsOf (members (p.placed.take i) key)) picked) :
    layout.Presents a.kind.storage.store s rows := by
  have stores := has.stores laid
  rw [← laid.copies_eq] at stores
  refine ⟨_, _, picked, has.found, ?_, stores, shows⟩
  rw [has.isKey]
  exact (Number.denotes_count key).same_self

theorem HasRows.presents (measured : s.isView = true → s.Measured)
    (present : none ∉ s.initialValue) : layout.Presents a.kind.storage.store s rows := by
  obtain ⟨picked, shows⟩ := has.exists_shows laid measured present
  exact has.presents_of_shows laid shows

end Entry

end MemoryLayout

end BatchGraph
