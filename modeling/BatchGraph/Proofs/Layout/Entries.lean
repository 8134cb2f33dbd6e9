import BatchGraph.Proofs.Layout.Inversion

/-!
The entries and the arrays of a built layout.

Every entry belongs to a base of the order and to the array of its class (`exists_hasRows`).  An array
has the rows of its bases one after the other (`flatMap_indices`), and as many values as its shape
says (`size_data`).
-/

namespace BatchGraph

namespace Number

theorem Denotes.place_eq {x : Number} {n : Nat} (hx : x.Denotes n) : x.place = finite n := by
  rcases denotes_iff.1 hx with rfl | ⟨rfl, rfl⟩ <;> rfl

end Number

namespace Shape

variable {shape other : List Number} {ns ms : List Nat}

theorem map_place_eq (extents : Denotes shape ns) :
    shape.map Number.place = ns.map fun n : Nat => Number.finite (n : Rat) := by
  induction extents with
  | nil => rfl
  | cons first _ ih => rw [List.map_cons, List.map_cons, first.place_eq, ih]

theorem eq_of_same (extents : Denotes shape ns) (extents' : Denotes other ms)
    (equal : same shape other = true) : ns = ms := by
  rw [same_iff] at equal
  induction equal generalizing ns ms with
  | nil =>
    cases extents
    cases extents'
    rfl
  | cons first _ ih =>
    cases extents with
    | cons extent rest =>
      cases extents' with
      | cons extent' rest' => rw [(extent.same_iff extent').1 first, ih rest rest']

/-- Natural extents look equal exactly if they mark the same places. -/
theorem same_iff_map_place_eq (extents : Denotes shape ns) (extents' : Denotes other ms) :
    same shape other = true ↔ shape.map Number.place = other.map Number.place := by
  rw [map_place_eq extents, map_place_eq extents']
  have injective : Function.Injective fun n : Nat => Number.finite (n : Rat) := fun m n equal => by
    simpa using equal
  rw [injective.list_map.eq_iff]
  constructor
  · exact eq_of_same extents extents'
  · rintro rfl
    exact same_of_denotes extents extents'

end Shape

/-! ## Classes -/

/-- The signals have bases of one storage type, with equal extents beyond axis 0 and equal flags. -/
def Signal.SameParams (precision : Precision) (s t : Signal) : Prop :=
  s.dtype.storage precision = t.dtype.storage precision ∧
    Shape.same (Shape.tail s.base.shape) (Shape.tail t.base.shape) = true ∧
    s.trainable = t.trainable ∧ s.minibatched = t.minibatched

theorem Signal.SameParams.symm {precision : Precision} {s t : Signal}
    (params : s.SameParams precision t) : t.SameParams precision s :=
  ⟨params.1.symm, by rw [Shape.same_comm]; exact params.2.1, params.2.2.1.symm, params.2.2.2.symm⟩

namespace Packing

variable {precision : Precision} {minibatchSize : Nat} {breaks : List Nat} {p : Packing}
  {signals : List Signal}

theorem of_class?_eq_ok {s : Signal} {kind : ArrayClass} (isClass : class? precision s = .ok kind) :
    s.dtype.storage precision = .ok kind.storage ∧ kind = classOf kind.storage s.base := by
  obtain ⟨storage, isStorage, rfl⟩ := Except.map_eq_ok_iff.1 isClass
  exact ⟨isStorage, rfl⟩

/-- Signals that can be stored have equal parameters exactly if their bases have one class. -/
theorem class?_eq_iff {s t : Signal} {kind : ArrayClass} (isClass : class? precision s = .ok kind) :
    class? precision s = class? precision t ↔ s.SameParams precision t := by
  obtain ⟨isStorage, isKind⟩ := of_class?_eq_ok isClass
  have tails := Shape.same_iff_map_place_eq (Shape.denotes_tail s.base.denotes_extents)
    (Shape.denotes_tail t.base.denotes_extents)
  rw [Signal.SameParams, isStorage, tails, isClass]
  constructor
  · intro same
    obtain ⟨isStorage', isKind'⟩ := of_class?_eq_ok same.symm
    have equal := isKind.symm.trans isKind'
    simp only [classOf, Shape.tail_normalized, ArrayClass.mk.injEq] at equal
    exact ⟨isStorage'.symm, equal.2⟩
  · rintro ⟨storage, tail, trainable, minibatched⟩
    rw [class?, ← storage, isKind]
    have trainable' : s.base.trainable = t.base.trainable := trainable
    have minibatched' : s.base.minibatched = t.base.minibatched := minibatched
    simp only [Except.map, classOf, Shape.tail_normalized, tail, trainable', minibatched']

/-! ## Rows of bases -/

theorem members_concat_of_at {i : Nat} {s : Signal} {rows : Rows}
    (isAt : p.placed[i]? = some (s, rows)) (key : Nat) :
    members (p.placed.take (i + 1)) key =
      members (p.placed.take i) key ++ if rows.key = .count key then [s.base] else [] := by
  rw [List.take_add_one, isAt, Option.toList_some, members_append]

/-- The rows of the bases of an array, in their order, are all its rows. -/
theorem Packed.flatMap_indices (packed : p.Packed precision minibatchSize breaks signals)
    (key : Nat) :
    (p.placed.flatMap fun entry => if entry.2.key = .count key then entry.2.indices else []) =
      (List.range (rowsOf (members p.placed key))).map fun k => some (Number.count k) := by
  have prefix_ (n : Nat) (le : n ≤ p.placed.length) :
      ((p.placed.take n).flatMap fun entry =>
          if entry.2.key = .count key then entry.2.indices else []) =
        (List.range (rowsOf (members (p.placed.take n) key))).map
          fun k => some (Number.count k) := by
    induction n with
    | zero => rfl
    | succ n ih =>
      have isAt := List.getElem?_eq_getElem (l := p.placed) le
      obtain ⟨⟨s, rows⟩, isEntry⟩ : ∃ entry, entry = p.placed[n] := ⟨_, rfl⟩
      rw [← isEntry] at isAt
      obtain ⟨key', a, array, isClass, areRows⟩ := packed.entries n s rows isAt
      rw [members_concat_of_at isAt, List.take_add_one, isAt, Option.toList_some,
        List.flatMap_append, ih (Nat.le_of_succ_le le), List.flatMap_singleton]
      split
      case isTrue same =>
        have same' : key' = key := Number.count_inj.1 (by rw [← same, areRows]; rfl)
        subst same'
        have indices : rows.indices = (List.range s.base.rows).map fun k =>
            some (Number.count (rowsOf (members (p.placed.take n) key') + k)) := by rw [areRows]; rfl
        have total : rowsOf (members (p.placed.take n) key' ++ [s.base]) =
            rowsOf (members (p.placed.take n) key') + s.base.rows := by simp [rowsOf]
        rw [indices, total, List.range_add, List.map_append, List.map_map]
        rfl
      case isFalse => rw [List.append_nil, List.append_nil]
  have all := prefix_ p.placed.length le_rfl
  rwa [List.take_length] at all

/-- The bases in an array have its class. -/
theorem Packed.of_mem_members (packed : p.Packed precision minibatchSize breaks signals) {key : Nat}
    {a : PendingArray} (array : p.arrays[key]? = some a) {b : Base}
    (member : b ∈ members p.placed key) :
    .ofBase b ∈ signals ∧ class? precision (.ofBase b) = .ok a.kind := by
  obtain ⟨⟨s, rows⟩, isEntry, rfl⟩ := List.mem_map.1 member
  obtain ⟨isPlaced, isKey⟩ := List.mem_filter.1 isEntry
  obtain ⟨i, isAt⟩ := List.mem_iff_getElem?.1 isPlaced
  obtain ⟨key', a', array', isClass, areRows⟩ := packed.entries i s rows isAt
  have same : key' = key :=
    Number.count_inj.1 (by rw [← of_decide_eq_true isKey, areRows]; rfl)
  rw [same, array] at array'
  cases array'
  have known : s ∈ signals := packed.keys ▸ List.mem_map.2 ⟨_, isPlaced, rfl⟩
  rw [← Signal.eq_ofBase_of_not_isView (packed.whole s known)]
  exact ⟨known, isClass⟩

end Packing

/-! ## Sizes -/

namespace Number

theorem ne_zero_of_isMultiple {x unit : Number} {n : Nat} (multiple : x.isMultiple unit = true)
    (tracks : unit.Tracks n) : n ≠ 0 := by
  rintro rfl
  cases tracks with
  | exact denotes =>
    rcases denotes_iff.1 denotes with rfl | ⟨rfl, -⟩ <;> cases x <;>
      simp [isMultiple, isZero, value?] at multiple
  | large _ large => exact absurd large (by norm_num)
  | lost noValue =>
    subst noValue
    cases x <;> cases multiple

end Number

namespace PendingArray

variable {minibatchSize : Nat} {a : PendingArray}

theorem copies_pos (a : PendingArray) (positive : 0 < minibatchSize) :
    0 < a.copies minibatchSize := by
  unfold copies
  split
  · exact positive
  · exact one_pos

theorem tracks_rowSize (denotes : Shape.Denotes a.tail a.extents) (key minibatchSize : Nat) :
    (a.toArray key minibatchSize).rowSize.Tracks (a.extents.prod * a.copies minibatchSize) := by
  have tail : Shape.tail (a.shape minibatchSize) =
      a.tail ++ if a.kind.minibatched then [Number.ofNat minibatchSize] else [] := rfl
  have extents := denotes.imp fun _ _ extent => extent.tracks
  rw [BackingArray.rowSize, toArray, tail]
  unfold copies
  split
  case isTrue =>
    have size := Shape.tracks_size
      (List.rel_append extents (.cons (Number.tracks_ofNat minibatchSize) .nil))
    rwa [List.prod_append, List.prod_singleton] at size
  case isFalse =>
    rw [List.append_nil, Nat.mul_one]
    exact Shape.tracks_size extents

/-- The extents of the shape multiply to the number of values in whole rows, if that is small. -/
theorem prod_shape (positive : 0 < minibatchSize)
    (small : a.rows * (a.extents.prod * a.copies minibatchSize) < 2 ^ 53) :
    ((a.shape minibatchSize).map Number.countBelow).prod =
      a.rows * (a.extents.prod * a.copies minibatchSize) := by
  have shape : ((a.shape minibatchSize).map Number.countBelow).prod =
      (Number.ofNat a.rows).countBelow * (a.extents.prod *
        if a.kind.minibatched then (Number.ofNat minibatchSize).countBelow else 1) := by
    unfold PendingArray.shape extents
    split <;> simp
  have rows := Number.tracks_ofNat a.rows
  rw [shape]
  rcases Nat.eq_zero_or_pos (a.rows * a.extents.prod) with none | some_
  · have none' : (Number.ofNat a.rows).countBelow * a.extents.prod = 0 := by
      rcases Nat.mul_eq_zero.1 none with noRows | noWidth
      · rw [rows.countBelow_eq_zero_iff.2 noRows, Nat.zero_mul]
      · rw [noWidth, Nat.mul_zero]
    rw [← Nat.mul_assoc, ← Nat.mul_assoc, none, none', Nat.zero_mul, Nat.zero_mul]
  · have someCopies := a.copies_pos positive
    have least : a.rows ≤ a.rows * (a.extents.prod * a.copies minibatchSize) :=
      Nat.le_mul_of_pos_right _ (Nat.mul_pos (Nat.pos_of_mul_pos_left some_) someCopies)
    rw [rows.countBelow_eq (least.trans_lt small)]
    unfold copies at small ⊢
    split
    case isTrue minibatched =>
      rw [if_pos minibatched, ← Nat.mul_assoc] at small
      have least := Nat.le_mul_of_pos_left minibatchSize some_
      rw [(Number.tracks_ofNat minibatchSize).countBelow_eq (least.trans_lt small)]
    case isFalse => rfl

end PendingArray

namespace Packing

variable {precision : Precision} {minibatchSize : Nat} {breaks : List Nat} {p : Packing}
  {signals : List Signal} {key : Nat} {a : PendingArray}

/-- An array has the extents beyond axis 0 and the copies of the bases of its class. -/
theorem Consists.of_class {bases : List Base} (consists : Consists minibatchSize a bases) {b : Base}
    (isClass : class? precision (.ofBase b) = .ok a.kind) :
    a.extents = Shape.tail b.extents ∧ a.copies minibatchSize = b.copies minibatchSize := by
  obtain ⟨-, isKind⟩ := of_class?_eq_ok isClass
  constructor
  · have tail := consists.kind
    rw [isKind] at tail
    have below := congrArg (List.map Number.countBelow) tail
    simp only [classOf, Shape.tail_normalized, List.map_map, Function.comp_def,
      Number.countBelow_place] at below
    rw [PendingArray.extents, ← below]
    exact Shape.map_countBelow (Shape.denotes_tail b.denotes_extents)
  · rw [PendingArray.copies, isKind]
    rfl

/-- How many values are stored for some bases together. -/
def valuesOf (minibatchSize : Nat) (bases : List Base) : Nat :=
  (bases.map fun b => b.extents.prod * b.copies minibatchSize).sum

theorem IsChunk.length {chunk : List Number} {b : Base} (isChunk : IsChunk minibatchSize chunk b)
    (positive : 0 < minibatchSize) : chunk.length = b.extents.prod * b.copies minibatchSize := by
  obtain ⟨values, areValues, rfl, few⟩ := isChunk
  rw [length_tile] at few ⊢
  have least := Nat.le_mul_of_pos_right values.length (b.copies_pos positive)
  rw [b.length_of_broadcast areValues (least.trans_lt (few.trans (by norm_num)))]

theorem length_flatten_chunks {chunks : List (List Number)} {bases : List Base}
    (areChunks : List.Forall₂ (IsChunk minibatchSize) chunks bases)
    (positive : 0 < minibatchSize) : chunks.flatten.length = valuesOf minibatchSize bases := by
  induction areChunks with
  | nil => rfl
  | cons first _ ih =>
    rw [List.flatten_cons, List.length_append, first.length positive, ih]
    rfl

/-- Bases with rows of one width have as many values as their rows together. -/
theorem valuesOf_eq {bases : List Base} {width : Nat}
    (ofWidth : ∀ b ∈ bases, b.width * b.copies minibatchSize = width) :
    valuesOf minibatchSize bases = rowsOf bases * width := by
  induction bases with
  | nil => simp [valuesOf, rowsOf]
  | cons b bases ih =>
    rw [List.forall_mem_cons] at ofWidth
    have rows : rowsOf (b :: bases) = b.rows + rowsOf bases := by simp [rowsOf]
    have values : valuesOf minibatchSize (b :: bases) =
        b.extents.prod * b.copies minibatchSize + valuesOf minibatchSize bases := by simp [valuesOf]
    rw [values, ih ofWidth.2, b.prod_extents, Nat.mul_assoc, ofWidth.1, rows, Nat.add_mul]

/-- The bases of an array have rows of one width. -/
theorem Packed.width_eq (packed : p.Packed precision minibatchSize breaks signals)
    (array : p.arrays[key]? = some a) :
    ∀ b ∈ members p.placed key,
      b.width * b.copies minibatchSize = a.extents.prod * a.copies minibatchSize := by
  intro b member
  obtain ⟨extents, copies⟩ :=
    (packed.arrays key a array).of_class (packed.of_mem_members array member).2
  rw [extents, copies]
  rfl

/-- An array has whole rows. -/
theorem Packed.length_chunks (packed : p.Packed precision minibatchSize breaks signals)
    (positive : 0 < minibatchSize) (array : p.arrays[key]? = some a) :
    a.chunks.flatten.length = a.rows * (a.extents.prod * a.copies minibatchSize) := by
  have consists := packed.arrays key a array
  rw [length_flatten_chunks consists.chunks positive, valuesOf_eq (packed.width_eq array),
    consists.rows]

/-- An array has as many values as its shape says. -/
theorem Packed.size_data (packed : p.Packed precision minibatchSize breaks signals)
    (positive : 0 < minibatchSize) (array : p.arrays[key]? = some a)
    (small : (a.toArray key minibatchSize).data.size < 2 ^ 53) :
    (a.toArray key minibatchSize).data.size =
      ((a.toArray key minibatchSize).shape.map Number.countBelow).prod := by
  have size : (a.toArray key minibatchSize).data.size = a.chunks.flatten.length :=
    Storage.size_allocate _ _
  rw [size] at small ⊢
  have length := packed.length_chunks positive array
  rw [length] at small ⊢
  exact (PendingArray.prod_shape positive small).symm

/-! ## Space -/

/-- The bases of a class have so few values together, each as often as it is stored, that a list
holds all that is stored in one array. -/
def Roomy (precision : Precision) (minibatchSize : Nat) (signals : List Signal) : Prop :=
  ∀ kind, valuesOf minibatchSize
    ((signals.filter fun s => class? precision s = .ok kind).map Signal.base) < 2 ^ 32

theorem Roomy.of_perm {signals' : List Signal} (roomy : Roomy precision minibatchSize signals)
    (perm : signals'.Perm signals) : Roomy precision minibatchSize signals' := by
  intro kind
  have same := ((perm.filter fun s => class? precision s = .ok kind).map Signal.base).map
    fun b => b.extents.prod * b.copies minibatchSize
  rw [valuesOf, same.sum_eq]
  exact roomy kind

/-- An array takes some of the bases of its class. -/
theorem Packed.members_sublist (packed : p.Packed precision minibatchSize breaks signals)
    (array : p.arrays[key]? = some a) :
    (members p.placed key).Sublist
      ((signals.filter fun s => class? precision s = .ok a.kind).map Signal.base) := by
  have isClass : ∀ entry ∈ p.placed.filter (·.2.key = .count key),
      class? precision entry.1 = .ok a.kind := by
    intro entry member
    obtain ⟨known, isClass⟩ := packed.of_mem_members array (List.mem_map_of_mem member)
    exact isClass
  have ofClass := (List.filter_sublist (p := (·.2.key = .count key)) (l := p.placed)).filter
    fun entry => class? precision entry.1 = .ok a.kind
  rw [List.filter_eq_self.2 fun entry member => decide_eq_true (isClass entry member)] at ofClass
  rw [← packed.keys, List.filter_map, List.map_map]
  exact ofClass.map fun entry => entry.1.base

/-- The values of an array can be listed. -/
theorem Packed.checkLengths_eq_ok (packed : p.Packed precision minibatchSize breaks signals)
    (positive : 0 < minibatchSize) (roomy : Roomy precision minibatchSize signals) :
    p.checkLengths = .ok () := by
  refine Except.forM_eq_ok fun a member => checkLength_eq_ok_iff.2 ?_
  obtain ⟨key, array⟩ := List.mem_iff_getElem?.1 member
  rw [length_flatten_chunks (packed.arrays key a array).chunks positive]
  refine lt_of_le_of_lt ?_ (roomy a.kind)
  exact ((packed.members_sublist array).map _).sum_le_sum fun _ _ => Nat.zero_le _

end Packing

/-! ## Entries -/

namespace MemoryLayout

open Packing

variable {layout : MemoryLayout} {signals : List Signal} {plan : Plan} {precision : Precision}
  {minibatchSize : Nat} {breaks : List Nat} {p : Packing}

/-- Every base of the order has an entry, in the order of the bases. -/
theorem LaidOut.exists_base (laid : layout.LaidOut signals plan precision minibatchSize breaks p)
    {i : Nat} {s : Signal} (isAt : signals[i]? = some s) :
    ∃ rows, p.placed[i]? = some (s, rows) ∧ layout.rows.lookup s = some rows := by
  rw [← laid.packed.keys, List.getElem?_map, Option.map_eq_some_iff] at isAt
  obtain ⟨⟨s, rows⟩, isAt, rfl⟩ := isAt
  refine ⟨rows, isAt, (Assoc.lookup_eq_some_iff_mem laid.views.distinct).2 ?_⟩
  obtain ⟨views, isAll, -⟩ := laid.views.views
  rw [isAll]
  exact List.mem_append_left _ (List.mem_of_getElem? isAt)

/-- The views of a layout are views of the plan. -/
theorem LaidOut.mem_plan (laid : layout.LaidOut signals plan precision minibatchSize breaks p)
    {s : Signal} {rows : Rows} (entry : (s, rows) ∈ layout.rows) (isView : s.isView = true) :
    ∃ op ∈ plan.flatten, s ∈ op.allSignals := by
  rcases laid.known _ entry with isBase | ⟨-, inPlan⟩
  · rw [laid.packed.whole s isBase] at isView
    cases isView
  · exact inPlan

/-- A layout has rows for what it covers, and for nothing else. -/
theorem LaidOut.exists_rows_iff
    (laid : layout.LaidOut signals plan precision minibatchSize breaks p) {s : Signal} :
    (∃ rows, layout.rows.lookup s = some rows) ↔ Covers signals plan s := by
  constructor
  · rintro ⟨rows, found⟩
    exact laid.known _ (Assoc.mem_of_lookup found)
  · rintro (isBase | ⟨isView, op, isOp, isSignal⟩)
    · obtain ⟨i, isAt⟩ := List.mem_iff_getElem?.1 isBase
      obtain ⟨rows, -, found⟩ := laid.exists_base isAt
      exact ⟨rows, found⟩
    · exact laid.entered op isOp s isSignal isView

/-- A signal of the plan whose base is in the order has an entry. -/
theorem LaidOut.exists_entry (laid : layout.LaidOut signals plan precision minibatchSize breaks p)
    {op : Operator} (isOp : op ∈ plan.flatten) {s : Signal} (isSignal : s ∈ op.allSignals)
    (known : s.root ∈ signals) : ∃ rows, layout.rows.lookup s = some rows := by
  refine laid.exists_rows_iff.2 ?_
  cases isView : s.isView with
  | true => exact .inr ⟨isView, op, isOp, isSignal⟩
  | false =>
    rw [Signal.eq_ofBase_of_not_isView isView]
    exact .inl known

/-- The rows of a signal come from those of its base, which are in an array of its class. -/
structure HasRows (precision : Precision) (minibatchSize : Nat) (p : Packing)
    (layout : MemoryLayout) (s : Signal) (rows : Rows) (i key : Nat) (a : PendingArray)
    (base : Rows) : Prop where
  isAt : p.placed[i]? = some (s.root, base)
  array : p.arrays[key]? = some a
  isClass : class? precision s.root = .ok a.kind
  base_eq : base = baseRows s.root key (rowsOf (members (p.placed.take i) key)) a.kind.storage
  rows_eq : s.isView = false ∧ rows = base ∨ s.isView = true ∧ s.viewRows base = .ok rows
  isKey : rows.key = .count key
  found : layout.array? rows.key = some (a.toArray key minibatchSize)

theorem LaidOut.exists_hasRows (laid : layout.LaidOut signals plan precision minibatchSize breaks p)
    {s : Signal} {rows : Rows} (entry : (s, rows) ∈ layout.rows) :
    ∃ i key a base, HasRows precision minibatchSize p layout s rows i key a base := by
  obtain ⟨views, isAll, areViews⟩ := laid.views.views
  obtain ⟨i, base, isAt, rows_eq⟩ : ∃ i base, p.placed[i]? = some (s.root, base) ∧
      (s.isView = false ∧ rows = base ∨ s.isView = true ∧ s.viewRows base = .ok rows) := by
    rw [isAll, List.mem_append] at entry
    rcases entry with isBase | isView
    · have known : s ∈ signals := laid.packed.keys ▸ List.mem_map.2 ⟨_, isBase, rfl⟩
      have whole := laid.packed.whole s known
      obtain ⟨i, isAt⟩ := List.mem_iff_getElem?.1 isBase
      refine ⟨i, rows, ?_, .inl ⟨whole, rfl⟩⟩
      have root : s.root = s := (Signal.eq_ofBase_of_not_isView whole).symm
      rw [root, isAt]
    · obtain ⟨isView, base, isBase, areRows⟩ := areViews _ isView
      obtain ⟨i, isAt⟩ := List.mem_iff_getElem?.1 (Assoc.mem_of_lookup isBase)
      exact ⟨i, base, isAt, .inr ⟨isView, areRows⟩⟩
  obtain ⟨key, a, array, isClass, base_eq⟩ := laid.packed.entries i s.root base isAt
  have isKey : rows.key = .count key := by
    have baseKey : base.key = .count key := by rw [base_eq]; rfl
    rcases rows_eq with ⟨-, rfl⟩ | ⟨-, areRows⟩
    · exact baseKey
    · rcases Signal.of_viewRows_eq_ok areRows with reshapes | slices
      · rw [reshapes.rows_eq]
        exact baseKey
      · rw [slices.rows_eq]
        exact baseKey
  refine ⟨i, key, a, base, isAt, array, isClass, base_eq, rows_eq, isKey, ?_⟩
  rw [array?, laid.arrays, isKey]
  exact find?_backingArrays array

/-- An array has the class of the bases in it. -/
theorem HasRows.of_class (laid : layout.LaidOut signals plan precision minibatchSize breaks p)
    {s : Signal} {rows base : Rows} {i key : Nat} {a : PendingArray}
    (has : HasRows precision minibatchSize p layout s rows i key a base) :
    a.extents = Shape.tail s.base.extents ∧
      a.copies minibatchSize = s.base.copies minibatchSize :=
  (laid.packed.arrays key a has.array).of_class has.isClass

/-- What the check has gathered for an entry. -/
theorem HasRows.gathered (built : layout.BuiltFrom signals plan precision minibatchSize breaks p)
    {s : Signal} {rows base : Rows} {i key : Nat} {a : PendingArray}
    (has : HasRows precision minibatchSize p layout s rows i key a base)
    (entry : (s, rows) ∈ layout.rows) :
    Shape.same rows.shape (Shape.normalized s.shape) = true ∧ ∃ values,
      broadcast s.initialValue s.size = .ok values ∧
        List.Forall₂ (fun value stored => isStored value stored = true)
          (tile values (layout.copies s))
          (rows.indices.flatMap (a.toArray key minibatchSize).row) := by
  obtain ⟨shape, a', actual, values, isArray, gathered, areValues, stored⟩ :=
    of_checkRows_eq_ok (built.checked _ entry)
  refine ⟨shape, values, areValues, ?_⟩
  rw [has.found, Option.some.injEq] at isArray
  subst isArray
  unfold Rows.gather at gathered
  split at gathered
  case isTrue => cases gathered
  case isFalse =>
    cases gathered
    exact stored

/-- Every index of an entry is that of a row of its array. -/
theorem HasRows.exists_index (built : layout.BuiltFrom signals plan precision minibatchSize breaks p)
    {s : Signal} {rows base : Rows} {i key : Nat} {a : PendingArray}
    (has : HasRows precision minibatchSize p layout s rows i key a base)
    (entry : (s, rows) ∈ layout.rows) :
    ∀ index ∈ rows.indices, ∃ k < a.rows, index = some (Number.count k) := by
  have ofBase : ∀ index ∈ base.indices, ∃ k < a.rows, index = some (Number.count k) := by
    intro index member
    have inArray : index ∈ p.placed.flatMap fun entry =>
        if entry.2.key = .count key then entry.2.indices else [] := by
      refine List.mem_flatMap.2 ⟨_, List.mem_of_getElem? has.isAt, ?_⟩
      have isKey : base.key = .count key := by rw [has.base_eq]; rfl
      rwa [if_pos isKey]
    rw [built.packed.flatMap_indices, ← (built.packed.arrays key a has.array).rows] at inArray
    obtain ⟨k, inside, rfl⟩ := List.mem_map.1 inArray
    exact ⟨k, List.mem_range.1 inside, rfl⟩
  rcases has.rows_eq with ⟨-, rfl⟩ | ⟨-, areRows⟩
  · exact ofBase
  rcases Signal.of_viewRows_eq_ok areRows with reshapes | slices
  · rw [reshapes.rows_eq]
    exact ofBase
  intro index member
  rcases Rows.of_pick_eq_ok slices.picked index member with rfl | isBase
  · -- A missing row has missing values, which the check does not accept.
    exfalso
    obtain ⟨extents, copies⟩ := has.of_class built.toLaidOut
    have rowSize := PendingArray.tracks_rowSize
      (built.packed.arrays key a has.array).denotes key minibatchSize
    rw [extents, copies] at rowSize
    have width : (Shape.tail s.base.extents).prod ≠ 0 :=
      Number.ne_zero_of_isMultiple slices.offset
        (Shape.tracks_size ((Shape.denotes_tail s.base.denotes_extents).imp
          fun _ _ extent => extent.tracks))
    have some_ : (a.toArray key minibatchSize).rowSize.countBelow ≠ 0 := fun none =>
      Nat.mul_ne_zero width (s.base.copies_pos built.positive).ne'
        (rowSize.countBelow_eq_zero_iff.1 none)
    have missing : none ∈ rows.indices.flatMap (a.toArray key minibatchSize).row :=
      List.mem_flatMap.2 ⟨none, member,
        List.mem_map.2 ⟨0, List.mem_range.2 (Nat.pos_of_ne_zero some_), rfl⟩⟩
    obtain ⟨-, values, -, stored⟩ := has.gathered built entry
    obtain ⟨value, -, isStored_⟩ := exists_partner stored.flip missing
    cases value <;> cases isStored_
  · exact ofBase index isBase

end MemoryLayout

end BatchGraph
