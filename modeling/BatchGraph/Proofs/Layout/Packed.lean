import BatchGraph.Proofs.Layout.Partition
import BatchGraph.Proofs.Layout.Read

/-!
What a packing is made of, whatever the bases.

Packing may fail, but where it succeeds the walk over the order has left every base in an array of
its class.  `Packing.Packed` describes the state after a prefix of the order: two bases are in one
array exactly if they have the same class and no break lies between them (`together`), and an array
consists of the chunks of its bases, whose rows follow each other (`arrays`, `entries`).  Packing one
more base keeps this (`Packed.add`), so it holds of the whole order (`packed_of_ofSignals`).
-/

namespace BatchGraph

/-- The elements of a list with one more at its end. -/
theorem getElem?_concat_eq_some_iff {α : Type} {xs : List α} {x y : α} {i : Nat} :
    (xs ++ [x])[i]? = some y ↔ i < xs.length ∧ xs[i]? = some y ∨ i = xs.length ∧ y = x := by
  rcases Nat.lt_trichotomy i xs.length with less | rfl | greater
  · simp [List.getElem?_append_left less, less, less.ne]
  · simp [eq_comm]
  · simp only [List.getElem?_append_right greater.le]
    simp [greater.ne', not_lt.2 greater.le, Nat.sub_eq_zero_iff_le, not_le.2 greater]

/-! ## Bases and pending arrays -/

/-- How often each value of a base is stored. -/
def Base.copies (b : Base) (minibatchSize : Nat) : Nat := if b.minibatched then minibatchSize else 1

theorem Base.copies_pos (b : Base) {minibatchSize : Nat} (positive : 0 < minibatchSize) :
    0 < b.copies minibatchSize := by
  unfold copies
  split
  · exact positive
  · exact one_pos

namespace PendingArray

/-- The extents beyond axis 0, the minibatch left out. -/
def extents (a : PendingArray) : List Nat := a.tail.map Number.countBelow

def copies (a : PendingArray) (minibatchSize : Nat) : Nat :=
  if a.kind.minibatched then minibatchSize else 1

/-- Appending a chunk of whole rows. -/
def grow (a : PendingArray) (chunk : List Number) (count : Nat) : PendingArray :=
  { a with chunks := a.chunks ++ [chunk], rows := a.rows + count }

end PendingArray

namespace Packing

open BatchGraph.Partition (Unbroken)

variable {precision : Precision} {minibatchSize : Nat} {breaks : List Nat} {p q : Packing}

/-! ## Bases and their arrays -/

/-- The packing in which a base is placed: all arrays are closed in front of a break. -/
def before (p : Packing) (breaks : List Nat) (i : Nat) : Packing :=
  if breaks.contains i then { p with current := [] } else p

/-- The class of the arrays that take a base. -/
def classOf (storage : Storage) (b : Base) : ArrayClass :=
  ⟨storage, (Shape.tail (Shape.normalized b.shape)).map Number.place, b.trainable, b.minibatched⟩

/-- The class of the arrays that take a signal, if its type can be stored. -/
def class? (precision : Precision) (s : Signal) : Except Error ArrayClass :=
  (s.dtype.storage precision).map (classOf · s.base)

/-- The bases in the array of a number, in their order. -/
def members (entries : List (Signal × Rows)) (key : Nat) : List Base :=
  (entries.filter fun entry => entry.2.key = .count key).map fun entry => entry.1.base

/-- The rows of some bases together. -/
def rowsOf (bases : List Base) : Nat := (bases.map Base.rows).sum

theorem members_append (entries : List (Signal × Rows)) (s : Signal) (rows : Rows) (key : Nat) :
    members (entries ++ [(s, rows)]) key =
      members entries key ++ if rows.key = .count key then [s.base] else [] := by
  unfold members
  rw [List.filter_append, List.map_append, List.filter_singleton]
  congr 1
  split <;> simp_all

/-- The values that are stored for a base. -/
def IsChunk (minibatchSize : Nat) (chunk : List Number) (b : Base) : Prop :=
  ∃ values, broadcast b.initial b.size = .ok values ∧
    chunk = tile values (b.copies minibatchSize) ∧ chunk.length < 2 ^ 32

/-- The array has natural extents and the chunks of the given bases. -/
structure Consists (minibatchSize : Nat) (a : PendingArray) (bases : List Base) : Prop where
  kind : a.kind.tail = a.tail.map Number.place
  denotes : Shape.Denotes a.tail a.extents
  chunks : List.Forall₂ (IsChunk minibatchSize) a.chunks bases
  rows : a.rows = rowsOf bases

/-- The rows of a base that follows others in its array. -/
def baseRows (s : Signal) (key start : Nat) (storage : Storage) : Rows where
  indices := (List.range s.base.rows).map fun k => some (Number.count (start + k))
  key := .count key
  storage := storage
  shape := Shape.normalized s.shape
  minibatched := s.minibatched
  label := s.name

/-! ## The state after a prefix of the order -/

/-- The bases of `done` are packed: each has an array of its class and the rows behind those of the
bases before it, the arrays consist of their bases, and the open arrays are those of the bases
behind the last break. -/
structure Packed (precision : Precision) (minibatchSize : Nat) (breaks : List Nat) (p : Packing)
    (done : List Signal) : Prop where
  keys : p.placed.map (·.1) = done
  distinct : done.Nodup
  whole : ∀ s ∈ done, s.isView = false
  entries : ∀ (i : Nat) (s : Signal) (rows : Rows), p.placed[i]? = some (s, rows) →
    ∃ key a, p.arrays[key]? = some a ∧ class? precision s = .ok a.kind ∧
      rows = baseRows s key (rowsOf (members (p.placed.take i) key)) a.kind.storage
  arrays : ∀ (key : Nat) (a : PendingArray), p.arrays[key]? = some a →
    Consists minibatchSize a (members p.placed key)
  together : ∀ (i j : Nat) (e f : Signal × Rows), i ≤ j → p.placed[i]? = some e →
    p.placed[j]? = some f →
    (e.2.key = f.2.key ↔
      class? precision e.1 = class? precision f.1 ∧ Unbroken breaks i (j + 1))
  current : ∀ (kind : ArrayClass) (key : Nat), p.current.lookup kind = some key ↔
    ∃ i e, p.placed[i]? = some e ∧ class? precision e.1 = .ok kind ∧ e.2.key = .count key ∧
      Unbroken breaks i done.length

theorem packed_nil : Packed precision minibatchSize breaks {} [] where
  keys := rfl
  distinct := List.nodup_nil
  whole _ member := nomatch member
  entries _ _ _ found := nomatch found
  arrays _ _ found := nomatch found
  together _ _ _ _ _ found := nomatch found
  current kind key := by simp

/-! ## Packing one more base -/

/-- What a step of packing has checked, and what it makes. -/
theorem of_add_eq_ok {s : Signal} {i : Nat}
    (success : add precision minibatchSize breaks p (s, i) = .ok q) :
    s.isView = false ∧ p.placed.lookup s = none ∧
      ∃ storage values, s.dtype.storage precision = .ok storage ∧
        broadcast s.base.initial s.base.size = .ok values ∧
        values.length * s.base.copies minibatchSize < 2 ^ 32 ∧
        q = ((p.before breaks i).array (classOf storage s.base)
              (Shape.tail (Shape.normalized s.base.shape))).2.append
            ((p.before breaks i).array (classOf storage s.base)
              (Shape.tail (Shape.normalized s.base.shape))).1
            (classOf storage s.base) s (tile values (s.base.copies minibatchSize)) := by
  unfold add at success
  dsimp only at success
  split at success
  case isTrue => cases success
  case isFalse notView =>
    split at success
    case isTrue => cases success
    case isFalse new =>
      obtain ⟨storage, isStorage, success⟩ := Except.bind_eq_ok_iff.1 success
      obtain ⟨values, areValues, success⟩ := Except.bind_eq_ok_iff.1 success
      obtain ⟨_, few, success⟩ := Except.bind_eq_ok_iff.1 success
      obtain ⟨_, -, success⟩ := Except.bind_eq_ok_iff.1 success
      have isWhole := Bool.eq_false_iff.2 notView
      have shape : s.shape = s.base.shape := by
        rw [Signal.eq_ofBase_of_not_isView isWhole]
        rfl
      rw [shape, Shape.size_normalized] at areValues
      refine ⟨isWhole, Option.not_isSome_iff_eq_none.1 new, storage, values, isStorage, areValues,
        checkLength_eq_ok_iff.1 few, ?_⟩
      cases success
      have copies : tile values (s.base.copies minibatchSize) =
          if s.minibatched then tile values minibatchSize else values := by
        unfold Base.copies
        split
        · rename_i minibatched
          exact (if_pos minibatched).symm
        · rename_i single
          rw [tile_one]
          exact (if_neg single).symm
      rw [copies, shape]
      rfl

/-- An array of the class is open under the number `key`, and is new if no array of the class was
open. -/
structure Opens (p : Packing) (kind : ArrayClass) (tail : List Number) (key : Nat) (q : Packing) :
    Prop where
  placed : q.placed = p.placed
  current : ∀ kind', q.current.lookup kind' =
    if kind' = kind then some key else p.current.lookup kind'
  arrays : q.arrays = p.arrays ∧ p.current.lookup kind = some key ∨
    q.arrays = p.arrays ++ [⟨kind, tail, [], 0⟩] ∧ p.current.lookup kind = none ∧
      key = p.arrays.length

theorem array_opens (p : Packing) (kind : ArrayClass) (tail : List Number) :
    Opens p kind tail (p.array kind tail).1 (p.array kind tail).2 := by
  unfold array
  split
  case h_1 key found =>
    refine ⟨rfl, fun kind' => ?_, .inl ⟨rfl, found⟩⟩
    split
    case isTrue same => rw [same, found]
    case isFalse => rfl
  case h_2 missing =>
    refine ⟨rfl, fun kind' => ?_, .inr ⟨rfl, missing, rfl⟩⟩
    dsimp only
    rw [List.lookup_append, List.lookup_cons, List.lookup_nil]
    by_cases same : kind' = kind
    · simp [same, missing]
    · simp [same, beq_false_of_ne same]

theorem Opens.getElem?_arrays {kind : ArrayClass} {tail : List Number} {key key' : Nat}
    (opens : p.Opens kind tail key q) {a : PendingArray} (array : p.arrays[key']? = some a) :
    q.arrays[key']? = some a := by
  rcases opens.arrays with ⟨kept, -⟩ | ⟨grown, -⟩
  · rw [kept, array]
  · rw [grown, List.getElem?_append_left (List.getElem?_eq_some_iff.1 array).1, array]

section Step

variable {done : List Signal} {s : Signal}

theorem Packed.length_placed (packed : p.Packed precision minibatchSize breaks done) :
    p.placed.length = done.length := by
  rw [← packed.keys, List.length_map]

theorem arrays_before (p : Packing) (breaks : List Nat) (i : Nat) :
    (p.before breaks i).arrays = p.arrays := by
  unfold before
  split <;> rfl

theorem placed_before (p : Packing) (breaks : List Nat) (i : Nat) :
    (p.before breaks i).placed = p.placed := by
  unfold before
  split <;> rfl

/-- In front of the next base the open arrays are those of the bases that no break separates from
it. -/
theorem Packed.current_before (packed : p.Packed precision minibatchSize breaks done)
    (kind : ArrayClass) (key : Nat) :
    (p.before breaks done.length).current.lookup kind = some key ↔
      ∃ i e, p.placed[i]? = some e ∧ class? precision e.1 = .ok kind ∧ e.2.key = .count key ∧
        Unbroken breaks i (done.length + 1) := by
  have inside {i : Nat} {e : Signal × Rows} (found : p.placed[i]? = some e) : i < done.length := by
    rw [← packed.length_placed]
    exact (List.getElem?_eq_some_iff.1 found).1
  unfold before
  cases isBreak : breaks.contains done.length with
  | true =>
    refine iff_of_false (by simp) ?_
    rintro ⟨i, e, found, -, -, unbroken⟩
    rw [Unbroken.succ_iff (inside found), isBreak] at unbroken
    cases unbroken.2
  | false =>
    have same := packed.current kind key
    simp only [Bool.false_eq_true, if_false, same]
    refine exists_congr fun i => exists_congr fun e => ?_
    refine and_congr_right fun found => and_congr_right fun _ => and_congr_right fun _ => ?_
    rw [Unbroken.succ_iff (inside found), isBreak]
    simp

/-- A base placed before has a number below that of the next array. -/
theorem Packed.key_lt (packed : p.Packed precision minibatchSize breaks done) {e : Signal × Rows}
    (member : e ∈ p.placed) : ∃ key < p.arrays.length, e.2.key = .count key := by
  obtain ⟨i, found⟩ := List.mem_iff_getElem?.1 member
  obtain ⟨key, a, array, -, rows⟩ := packed.entries i e.1 e.2 found
  exact ⟨key, (List.getElem?_eq_some_iff.1 array).1, by rw [rows]; rfl⟩

/-- Bases in one array have one class. -/
theorem Packed.class_eq_of_key (packed : p.Packed precision minibatchSize breaks done)
    {e f : Signal × Rows} (isE : e ∈ p.placed) (isF : f ∈ p.placed) (same : e.2.key = f.2.key) :
    class? precision e.1 = class? precision f.1 := by
  obtain ⟨i, foundE⟩ := List.mem_iff_getElem?.1 isE
  obtain ⟨j, foundF⟩ := List.mem_iff_getElem?.1 isF
  rcases Nat.le_total i j with le | le
  · exact ((packed.together i j e f le foundE foundF).1 same).1
  · exact ((packed.together j i f e le foundF foundE).1 same.symm).1.symm

/-- A base shares the array that the next one gets exactly if both have the same class and no break
separates them. -/
theorem Packed.key_eq_iff (packed : p.Packed precision minibatchSize breaks done)
    {kind : ArrayClass} {tail : List Number} {key : Nat}
    (opens : (p.before breaks done.length).Opens kind tail key q) {i : Nat} {e : Signal × Rows}
    (found : p.placed[i]? = some e) :
    e.2.key = .count key ↔
      class? precision e.1 = .ok kind ∧ Unbroken breaks i (done.length + 1) := by
  rcases opens.arrays with ⟨-, isOpen⟩ | ⟨-, missing, fresh⟩
  · obtain ⟨i', e', found', isClass', key', unbroken'⟩ := (packed.current_before kind key).1 isOpen
    constructor
    · intro isKey
      have same : e.2.key = e'.2.key := isKey.trans key'.symm
      have sameClass := packed.class_eq_of_key (List.mem_of_getElem? found)
        (List.mem_of_getElem? found') same
      refine ⟨sameClass.trans isClass', ?_⟩
      rcases Nat.le_total i i' with le | le
      · exact ((packed.together i i' e e' le found found').1 same).2.trans unbroken'
      · exact unbroken'.mono le le_rfl
    · rintro ⟨isClass, unbroken⟩
      obtain ⟨key'', -, isKey⟩ := packed.key_lt (List.mem_of_getElem? found)
      have isOpen' := (packed.current_before kind key'').2 ⟨i, e, found, isClass, isKey, unbroken⟩
      rw [isKey, Option.some.inj (isOpen'.symm.trans isOpen)]
  · obtain ⟨key', less, isKey⟩ := packed.key_lt (List.mem_of_getElem? found)
    refine iff_of_false ?_ ?_
    · rw [isKey, fresh, arrays_before, Number.count_inj]
      omega
    · rintro ⟨isClass, unbroken⟩
      have isOpen := (packed.current_before kind key').2 ⟨i, e, found, isClass, isKey, unbroken⟩
      rw [missing] at isOpen
      cases isOpen

/-- The arrays consist of their bases also after one has been opened. -/
theorem Packed.opened_arrays (packed : p.Packed precision minibatchSize breaks done)
    {kind : ArrayClass} {tail : List Number} {key : Nat}
    (opens : (p.before breaks done.length).Opens kind tail key q)
    (isTail : kind.tail = tail.map Number.place) {ns : List Nat}
    (denotes : Shape.Denotes tail ns) {key' : Nat} {a : PendingArray}
    (array : q.arrays[key']? = some a) :
    Consists minibatchSize a (members p.placed key') ∧ (key' = key → a.kind = kind) := by
  rcases opens.arrays with ⟨kept, isOpen⟩ | ⟨grown, -, fresh⟩
  · rw [kept, arrays_before] at array
    refine ⟨packed.arrays key' a array, fun same => ?_⟩
    subst same
    obtain ⟨i, e, found, isClass, isKey, -⟩ := (packed.current_before kind key').1 isOpen
    obtain ⟨key'', a', array', isClass', rows⟩ := packed.entries i e.1 e.2 found
    have same : key'' = key' := Number.count_inj.1 (by rw [← isKey, rows]; rfl)
    subst same
    cases array.symm.trans array'
    exact Except.ok.inj (isClass'.symm.trans isClass)
  · rw [grown, arrays_before] at array
    rw [arrays_before] at fresh
    subst fresh
    rcases Nat.lt_or_ge key' p.arrays.length with old | new
    · rw [List.getElem?_append_left old] at array
      exact ⟨packed.arrays key' a array, fun same => absurd same old.ne⟩
    · have isLast : key' = p.arrays.length := by
        have := (List.getElem?_eq_some_iff.1 array).1
        simp only [List.length_append, List.length_singleton] at this
        omega
      subst isLast
      rw [List.getElem?_concat_length, Option.some.injEq] at array
      subst array
      have none : members p.placed p.arrays.length = [] := by
        rw [members, List.map_eq_nil_iff, List.filter_eq_nil_iff]
        intro e member
        obtain ⟨key, less, isKey⟩ := packed.key_lt member
        rw [decide_eq_true_eq, isKey, Number.count_inj]
        omega
      rw [none]
      refine ⟨⟨isTail, ?_, .nil, rfl⟩, fun _ => rfl⟩
      have extents : tail.map Number.countBelow = ns := Shape.map_countBelow denotes
      rw [PendingArray.extents, extents]
      exact denotes

/-- The array that the next base gets. -/
theorem Packed.exists_opened (packed : p.Packed precision minibatchSize breaks done)
    {kind : ArrayClass} {tail : List Number} {key : Nat}
    (opens : (p.before breaks done.length).Opens kind tail key q)
    (isTail : kind.tail = tail.map Number.place) {ns : List Nat}
    (denotes : Shape.Denotes tail ns) :
    ∃ a, q.arrays[key]? = some a ∧ a.kind = kind ∧
      Consists minibatchSize a (members p.placed key) := by
  have inside : key < q.arrays.length := by
    rcases opens.arrays with ⟨kept, isOpen⟩ | ⟨grown, -, fresh⟩
    · obtain ⟨i, e, found, -, isKey, -⟩ := (packed.current_before kind key).1 isOpen
      obtain ⟨key', less, isKey'⟩ := packed.key_lt (List.mem_of_getElem? found)
      rw [kept, arrays_before, Number.count_inj.1 (isKey.symm.trans isKey')]
      exact less
    · rw [grown, fresh, List.length_append]
      exact Nat.lt_succ_self _
  have array := List.getElem?_eq_getElem inside
  obtain ⟨consists, isKind⟩ := packed.opened_arrays opens isTail denotes array
  exact ⟨_, array, isKind rfl, consists⟩

end Step

/-! ## Appending -/

section Append

variable {b : Base} {kind : ArrayClass} {key : Nat} {chunk : List Number}

/-- Only the array that is appended to grows. -/
theorem getElem?_arrays_append (p : Packing) (key : Nat) (kind : ArrayClass) (b : Base)
    (chunk : List Number) (i : Nat) :
    (p.append key kind (.ofBase b) chunk).arrays[i]? =
      (p.arrays[i]?).map fun a => if key = i then a.grow chunk b.rows else a := by
  have rows : (Shape.leading b.shape).countBelow = b.rows :=
    (Shape.denotes_leading b.denotes_extents).countBelow_eq
  have grown : (p.append key kind (.ofBase b) chunk).arrays =
      p.arrays.modify key (·.grow chunk b.rows) := by
    rw [← rows]
    rfl
  rw [grown, List.getElem?_modify]
  rfl

theorem placed_append {a : PendingArray} (array : p.arrays[key]? = some a) :
    (p.append key kind (.ofBase b) chunk).placed =
      p.placed ++ [(.ofBase b, ⟨(List.range b.rows).map fun r => some (Number.count (a.rows + r)),
        .count key, kind.storage, Shape.normalized b.shape, b.minibatched, b.name⟩)] := by
  have rows : (Shape.leading b.shape).countBelow = b.rows :=
    (Shape.denotes_leading b.denotes_extents).countBelow_eq
  have start : (p.arrays[key]?).elim 0 PendingArray.rows = a.rows := by rw [array]; rfl
  rw [← rows, ← start]
  rfl

theorem Consists.grow {a : PendingArray} {bases : List Base}
    (consists : Consists minibatchSize a bases) (isChunk : IsChunk minibatchSize chunk b) :
    Consists minibatchSize (a.grow chunk b.rows) (bases ++ [b]) where
  kind := consists.kind
  denotes := consists.denotes
  chunks := List.rel_append consists.chunks (.cons isChunk .nil)
  rows := by
    have rows : (a.grow chunk b.rows).rows = a.rows + b.rows := rfl
    rw [rows, consists.rows, rowsOf, rowsOf, List.map_append, List.sum_append]
    rfl

section Appended

variable {done : List Signal} {tail : List Number} {a : PendingArray}
  (packed : p.Packed precision minibatchSize breaks done)
  (opens : (p.before breaks done.length).Opens kind tail key q)
  (array : q.arrays[key]? = some a)

include opens array in
theorem Opens.placed_append : (q.append key kind (.ofBase b) chunk).placed =
    p.placed ++ [(.ofBase b, baseRows (.ofBase b) key a.rows kind.storage)] := by
  rw [Packing.placed_append array, opens.placed, placed_before]
  rfl

include packed opens array

/-- A place after appending is one of before or that of the base. -/
theorem Packed.getElem?_placed_append {i : Nat} {e : Signal × Rows} :
    (q.append key kind (.ofBase b) chunk).placed[i]? = some e ↔
      i < done.length ∧ p.placed[i]? = some e ∨
        i = done.length ∧ e = (.ofBase b, baseRows (.ofBase b) key a.rows kind.storage) := by
  rw [opens.placed_append array, getElem?_concat_eq_some_iff, packed.length_placed]

theorem Packed.entries_append (isClass : class? precision (.ofBase b) = .ok kind)
    (isKind : a.kind = kind) (consists : Consists minibatchSize a (members p.placed key))
    {i : Nat} {s : Signal} {rows : Rows}
    (found : (q.append key kind (.ofBase b) chunk).placed[i]? = some (s, rows)) :
    ∃ key' a', (q.append key kind (.ofBase b) chunk).arrays[key']? = some a' ∧
      class? precision s = .ok a'.kind ∧
      rows = baseRows s key' (rowsOf (members
        ((q.append key kind (.ofBase b) chunk).placed.take i) key')) a'.kind.storage := by
  have place := (packed.getElem?_placed_append opens array).1 found
  have inside : i ≤ p.placed.length := by
    rw [packed.length_placed]
    rcases place with ⟨less, -⟩ | ⟨rfl, -⟩ <;> omega
  rw [opens.placed_append array, List.take_append_of_le_length inside]
  simp only [getElem?_arrays_append]
  rcases place with ⟨-, found⟩ | ⟨rfl, same⟩
  · obtain ⟨key', a', array', isClass', isRows⟩ := packed.entries i s rows found
    rw [← arrays_before p breaks done.length] at array'
    refine ⟨key', if key = key' then a'.grow chunk b.rows else a', ?_, ?_, ?_⟩
    · rw [opens.getElem?_arrays array', Option.map_some]
    · rw [isClass']
      split <;> rfl
    · rw [isRows]
      split <;> rfl
  · cases same
    refine ⟨key, a.grow chunk b.rows, ?_, ?_, ?_⟩
    · rw [array, Option.map_some, if_pos rfl]
    · rw [isClass, ← isKind]
      rfl
    · rw [← packed.length_placed, List.take_length, ← consists.rows, ← isKind]
      rfl

theorem Packed.arrays_append (isTail : kind.tail = tail.map Number.place) {ns : List Nat}
    (denotes : Shape.Denotes tail ns) (isChunk : IsChunk minibatchSize chunk b) {key' : Nat}
    {a' : PendingArray}
    (array' : (q.append key kind (.ofBase b) chunk).arrays[key']? = some a') :
    Consists minibatchSize a'
      (members (q.append key kind (.ofBase b) chunk).placed key') := by
  rw [getElem?_arrays_append, Option.map_eq_some_iff] at array'
  obtain ⟨old, isOld, rfl⟩ := array'
  have consists := (packed.opened_arrays opens isTail denotes isOld).1
  rw [opens.placed_append array, members_append]
  split
  case isTrue same =>
    subst same
    cases array.symm.trans isOld
    have isMember : (baseRows (.ofBase b) key a.rows kind.storage).key = .count key := rfl
    rw [if_pos isMember]
    exact consists.grow isChunk
  case isFalse differ =>
    have notMember : ¬ (baseRows (.ofBase b) key a.rows kind.storage).key = .count key' :=
      fun same => differ (Number.count_inj.1 same)
    rw [if_neg notMember, List.append_nil]
    exact consists

theorem Packed.together_append (isClass : class? precision (.ofBase b) = .ok kind) {i j : Nat}
    {e f : Signal × Rows} (le : i ≤ j)
    (foundE : (q.append key kind (.ofBase b) chunk).placed[i]? = some e)
    (foundF : (q.append key kind (.ofBase b) chunk).placed[j]? = some f) :
    e.2.key = f.2.key ↔
      class? precision e.1 = class? precision f.1 ∧ Unbroken breaks i (j + 1) := by
  rcases (packed.getElem?_placed_append opens array).1 foundE with ⟨_, oldE⟩ | ⟨isLast, isE⟩ <;>
    rcases (packed.getElem?_placed_append opens array).1 foundF with ⟨less, oldF⟩ | ⟨rfl, rfl⟩
  · exact packed.together i j e f le oldE oldF
  · rw [isClass]
    exact packed.key_eq_iff opens oldE
  · omega
  · subst isLast isE
    rw [isClass]
    exact iff_of_true rfl ⟨rfl, .succ _⟩

theorem Packed.current_append (isClass : class? precision (.ofBase b) = .ok kind)
    (kind' : ArrayClass) (key' : Nat) :
    (q.append key kind (.ofBase b) chunk).current.lookup kind' = some key' ↔
      ∃ i e, (q.append key kind (.ofBase b) chunk).placed[i]? = some e ∧
        class? precision e.1 = .ok kind' ∧ e.2.key = .count key' ∧
        Unbroken breaks i (done.length + 1) := by
  have lookup : (q.append key kind (.ofBase b) chunk).current.lookup kind' =
      if kind' = kind then some key else (p.before breaks done.length).current.lookup kind' :=
    opens.current kind'
  simp only [lookup, packed.getElem?_placed_append opens array]
  split
  case isTrue same =>
    subst same
    rw [Option.some.injEq]
    constructor
    · rintro rfl
      exact ⟨_, _, .inr ⟨rfl, rfl⟩, isClass, rfl, .succ _⟩
    · rintro ⟨i, e, ⟨-, found⟩ | ⟨-, rfl⟩, isClass', isKey, unbroken⟩
      · have same := (packed.key_eq_iff opens found).2 ⟨isClass', unbroken⟩
        exact Number.count_inj.1 (same.symm.trans isKey)
      · exact Number.count_inj.1 isKey
  case isFalse differ =>
    rw [packed.current_before]
    constructor
    · rintro ⟨i, e, found, rest⟩
      have less : i < done.length :=
        packed.length_placed ▸ (List.getElem?_eq_some_iff.1 found).1
      exact ⟨i, e, .inl ⟨less, found⟩, rest⟩
    · rintro ⟨i, e, ⟨-, found⟩ | ⟨-, rfl⟩, isClass', rest⟩
      · exact ⟨i, e, found, isClass', rest⟩
      · exact absurd (Except.ok.inj (isClass'.symm.trans isClass)) differ

end Appended

/-- Appending puts the base behind the others of its array and leaves the rest as it is. -/
theorem Packed.append {done : List Signal} (packed : p.Packed precision minibatchSize breaks done)
    (new : p.placed.lookup (.ofBase b) = none) (isClass : class? precision (.ofBase b) = .ok kind)
    {tail : List Number} (opens : (p.before breaks done.length).Opens kind tail key q)
    (isTail : kind.tail = tail.map Number.place) {ns : List Nat}
    (denotes : Shape.Denotes tail ns) (isChunk : IsChunk minibatchSize chunk b) :
    (q.append key kind (.ofBase b) chunk).Packed precision minibatchSize breaks
      (done ++ [.ofBase b]) := by
  obtain ⟨a, array, isKind, consists⟩ := packed.exists_opened opens isTail denotes
  have fresh : Signal.ofBase b ∉ done := by
    rw [← packed.keys, List.mem_map]
    rintro ⟨e, member, same⟩
    exact bne_iff_ne.1 (List.lookup_eq_none_iff.1 new e member) same.symm
  exact {
    keys := by
      rw [opens.placed_append array, List.map_append, packed.keys]
      rfl
    distinct := by
      rw [← List.concat_eq_append]
      exact packed.distinct.concat fresh
    whole := List.forall_mem_append.2 ⟨packed.whole, List.forall_mem_singleton.2 rfl⟩
    entries := fun _ _ _ found => packed.entries_append opens array isClass isKind consists found
    arrays := fun _ _ array' => packed.arrays_append opens array isTail denotes isChunk array'
    together := fun _ _ _ _ le foundE foundF =>
      packed.together_append opens array isClass le foundE foundF
    current := fun kind' key' => by
      rw [List.length_append, List.length_singleton]
      exact packed.current_append opens array isClass kind' key' }

end Append

theorem Packed.add {done : List Signal} (packed : p.Packed precision minibatchSize breaks done)
    {s : Signal} (success : add precision minibatchSize breaks p (s, done.length) = .ok q) :
    q.Packed precision minibatchSize breaks (done ++ [s]) := by
  obtain ⟨whole, new, storage, values, isStorage, areValues, few, rfl⟩ := of_add_eq_ok success
  obtain ⟨b, rfl⟩ : ∃ b, s = .ofBase b := ⟨_, Signal.eq_ofBase_of_not_isView whole⟩
  have isClass : class? precision (.ofBase b) = .ok (classOf storage b) := by
    have isStorage' : (Signal.ofBase b).dtype.storage precision = .ok storage := isStorage
    rw [class?, isStorage']
    rfl
  have denotes : Shape.Denotes (Shape.tail (Shape.normalized b.shape)) (Shape.tail b.extents) := by
    rw [Shape.tail_normalized]
    exact Shape.denotes_tail b.denotes_extents
  exact packed.append new isClass (array_opens _ _ _) rfl denotes
    ⟨values, areValues, rfl, by rwa [length_tile]⟩

/-- A packing of an order. -/
theorem packed_of_ofSignals {signals : List Signal}
    (success : ofSignals precision minibatchSize breaks signals = .ok p) :
    p.Packed precision minibatchSize breaks signals := by
  have from_ (rest done : List Signal) (p q : Packing)
      (packed : p.Packed precision minibatchSize breaks done)
      (success : (rest.zipIdx done.length).foldlM (Packing.add precision minibatchSize breaks) p =
        .ok q) : q.Packed precision minibatchSize breaks (done ++ rest) := by
    induction rest generalizing done p with
    | nil =>
      cases success
      rwa [List.append_nil]
    | cons s rest ih =>
      rw [List.zipIdx_cons, List.foldlM_cons] at success
      obtain ⟨next, first, later⟩ := Except.bind_eq_ok_iff.1 success
      rw [List.append_cons]
      refine ih (done ++ [s]) next (packed.add first) ?_
      rwa [List.length_append, List.length_singleton]
  exact from_ signals [] {} p packed_nil success

end Packing

end BatchGraph
