import BatchGraph.Proofs.Layout.Entries
import BatchGraph.Proofs.Merge

/-!
The arrays of a memory layout.

Whenever a layout is built, its arrays are packed: two bases are rows of one array exactly if they
have the same parameters and no break lies between them, and the rows of the bases of an array are
all its rows, each once (`buildFor_packs`).  In particular the bases at one slot of a group of
mergeable operators are in one array (`Packs.key_eq_of_slot`), and so are the signals there, so that
the group can run as one batch (`slots_share_array`).
-/

namespace BatchGraph

/-! ## Mergeable operators -/

section Mergeable

variable {a b : Operator} {slot : Nat} {s t : Signal}

/-- Mergeable operators have the same slots. -/
theorem Operator.lt_length_of_mergeable (merges : a ≠ b → mergeablePair a b = true)
    (isT : b.allSignals[slot]? = some t) : slot < a.allSignals.length := by
  obtain ⟨inside, -⟩ := List.getElem?_eq_some_iff.1 isT
  by_cases same : a = b
  · rwa [same]
  · rwa [(mergeablePair_iff.1 (merges same)).1.signals.length_eq]

theorem Signal.compatible_of_mergeable (merges : mergeablePair a b = true)
    (isS : a.allSignals[slot]? = some s) (isT : b.allSignals[slot]? = some t) :
    s.compatible t = true := by
  obtain ⟨inside, rfl⟩ := List.getElem?_eq_some_iff.1 isS
  obtain ⟨inside', rfl⟩ := List.getElem?_eq_some_iff.1 isT
  exact (mergeablePair_iff.1 merges).1.signals.get inside inside'

/-- Signals of mergeable operators at one slot have bases that can share an array. -/
theorem Signal.sameParams_of_mergeable (merges : a ≠ b → mergeablePair a b = true)
    (precision : Precision) (isS : a.allSignals[slot]? = some s)
    (isT : b.allSignals[slot]? = some t) : s.root.SameParams precision t.root := by
  by_cases same : a = b
  · subst same
    cases isS.symm.trans isT
    have tail := Shape.denotes_tail s.base.denotes_extents
    exact ⟨rfl, Shape.same_of_denotes tail tail, rfl, rfl⟩
  · obtain ⟨dtype, whole, -, trainable, minibatched⟩ :=
      compatible_iff.1 (compatible_of_mergeable (merges same) isS isT)
    exact ⟨congrArg (DType.storage · precision) dtype, whole, trainable, minibatched⟩

end Mergeable

/-! ## Packed bases -/

namespace MemoryLayout

variable {layout : MemoryLayout} {signals : List Signal} {plan : Plan} {precision : Precision}

/-- The indices of the rows of those bases that are in the array of a key, one base after the
other. -/
def indicesIn (layout : MemoryLayout) (signals : List Signal) (key : Number) :
    List (Option Number) :=
  signals.flatMap fun s => match layout.rows.lookup s with
    | some rows => if rows.key = key then rows.indices else []
    | none => []

/-- The bases of an order are packed into arrays without gap, overlap or mixing. -/
structure Packs (layout : MemoryLayout) (signals : List Signal) (precision : Precision)
    (breaks : List Nat) : Prop where
  keys : layout.arrays.map BackingArray.key = (List.range layout.arrays.length).map Number.count
  entered : ∀ s ∈ signals, ∃ rows, layout.rows.lookup s = some rows
  /-- Bases share an array exactly if they have equal parameters and no break lies between them. -/
  shared : ∀ (i j : Nat) (s t : Signal) (rows rows' : Rows), i ≤ j → signals[i]? = some s →
    signals[j]? = some t → layout.rows.lookup s = some rows → layout.rows.lookup t = some rows' →
    (rows.key = rows'.key ↔
      s.SameParams precision t ∧ ∀ b ∈ breaks, ¬ (i < b ∧ b ≤ j))
  /-- The rows of the bases of an array are all its rows, and no entry has any other. -/
  covered : ∀ a ∈ layout.arrays, ∃ rows, a.shape.head? = some (Number.ofNat rows) ∧
    layout.indicesIn signals a.key = (List.range rows).map (fun k => some (Number.count k)) ∧
    ∀ entry ∈ layout.rows, entry.2.key = a.key →
      ∀ index ∈ entry.2.indices, ∃ k < rows, index = some (Number.count k)
  located : ∀ entry ∈ layout.rows, ∃ a ∈ layout.arrays, a.key = entry.2.key
  /-- An array has as many values as its shape says; none has `2 ^ 53` values or more. -/
  sized : ∀ a ∈ layout.arrays, a.data.size < 2 ^ 53 →
    a.data.size = (a.shape.map Number.countBelow).prod

namespace BuiltFrom

variable {minibatchSize : Nat} {breaks : List Nat} {p : Packing}

theorem keys_eq (built : layout.BuiltFrom signals plan precision minibatchSize breaks p) :
    layout.arrays.map BackingArray.key =
      (List.range layout.arrays.length).map Number.count := by
  rw [built.arrays]
  apply List.ext_getElem (by simp)
  intro key _ _
  simp [Packing.backingArrays, PendingArray.toArray]

theorem exists_of_mem_arrays
    (built : layout.BuiltFrom signals plan precision minibatchSize breaks p) {a : BackingArray}
    (member : a ∈ layout.arrays) :
    ∃ (key : Nat) (pending : PendingArray), p.arrays[key]? = some pending ∧
      a = pending.toArray key minibatchSize := by
  rw [built.arrays, Packing.backingArrays, List.mem_mapIdx] at member
  obtain ⟨key, inside, rfl⟩ := member
  exact ⟨key, _, List.getElem?_eq_getElem inside, rfl⟩

theorem indicesIn_eq (built : layout.BuiltFrom signals plan precision minibatchSize breaks p)
    (key : Nat) :
    layout.indicesIn signals (.count key) =
      (List.range (Packing.rowsOf (Packing.members p.placed key))).map
        fun k => some (Number.count k) := by
  rw [← built.packed.flatMap_indices, indicesIn]
  have keys := built.packed.keys
  rw [← keys, List.flatMap_map]
  refine List.flatMap_congr fun (s, rows) member => ?_
  obtain ⟨i, isAt⟩ := List.mem_iff_getElem?.1 member
  have isSignal : signals[i]? = some s := by rw [← keys, List.getElem?_map, isAt]; rfl
  obtain ⟨rows', isAt', found⟩ := built.exists_base isSignal
  cases isAt.symm.trans isAt'
  simp only [found]

theorem key_eq_iff (built : layout.BuiltFrom signals plan precision minibatchSize breaks p)
    {i j : Nat} {e f : Signal × Rows} (le : i ≤ j) (isE : p.placed[i]? = some e)
    (isF : p.placed[j]? = some f) :
    e.2.key = f.2.key ↔
      e.1.SameParams precision f.1 ∧ Partition.Unbroken breaks i (j + 1) := by
  obtain ⟨_, _, _, isClass, _⟩ := built.packed.entries i e.1 e.2 isE
  rw [built.packed.together i j e f le isE isF, Packing.class?_eq_iff isClass]

theorem packs (built : layout.BuiltFrom signals plan precision minibatchSize breaks p) :
    layout.Packs signals precision breaks := by
  refine ⟨built.keys_eq, ?entered, ?shared, ?covered, ?located, ?sized⟩
  case entered =>
    intro s member
    obtain ⟨i, isAt⟩ := List.mem_iff_getElem?.1 member
    obtain ⟨rows, -, found⟩ := built.exists_base isAt
    exact ⟨rows, found⟩
  case shared =>
    intro i j s t rows rows' le isS isT found found'
    obtain ⟨_, isAt, found_⟩ := built.exists_base isS
    cases found.symm.trans found_
    obtain ⟨_, isAt', found_⟩ := built.exists_base isT
    cases found'.symm.trans found_
    rw [built.key_eq_iff le isAt isAt']
    refine and_congr_right fun _ => forall₂_congr fun b _ => ?_
    omega
  case covered =>
    intro a member
    obtain ⟨key, pending, array, rfl⟩ := built.exists_of_mem_arrays member
    refine ⟨pending.rows, rfl, ?_, fun entry isEntry isKey => ?_⟩
    · rw [(built.packed.arrays key pending array).rows]
      exact built.indicesIn_eq key
    · obtain ⟨i, key', a', base, has⟩ := built.exists_hasRows isEntry
      have same : key' = key := Number.count_inj.1 (has.isKey.symm.trans isKey)
      subst same
      cases array.symm.trans has.array
      exact has.exists_index built isEntry
  case located =>
    intro entry isEntry
    obtain ⟨i, key, a, base, has⟩ := built.exists_hasRows isEntry
    refine ⟨_, List.mem_of_find?_eq_some has.found, ?_⟩
    rw [has.isKey]
    rfl
  case sized =>
    intro a member small
    obtain ⟨key, pending, array, rfl⟩ := built.exists_of_mem_arrays member
    exact built.packed.size_data built.positive array small

end BuiltFrom

/-- Every layout that is built packs its bases, cut at the breaks of the order. -/
theorem buildFor_packs {size : Number}
    (success : buildFor signals plan precision size = .ok layout) :
    ∃ breaks, Partition.breaks signals plan = .ok breaks ∧
      layout.Packs signals precision breaks := by
  obtain ⟨minibatchSize, breaks, p, -, built⟩ := of_buildFor_eq_ok success
  exact ⟨breaks, built.cut, built.packs⟩

/-- A row of two numbers. -/
def strip (id : Nat) : Signal :=
  .ofBase ⟨id, "strip", .float32, [1, 2], [5, 7], false, false, by decide +kernel,
    .inr (by decide +kernel)⟩

def taker (id : Nat) : Operator := .func id false [] [] [strip id] [] none

/-- Two strips in one array, the second one first. -/
def strips : MemoryLayout where
  arrays := [⟨.count 0, .float .single, [2, 2], #[5, 7, 5, 7], false, false⟩]
  rows := [(strip 1, ⟨[some (.count 0)], .count 0, .float .single, [1, 2], false, "strip"⟩),
    (strip 0, ⟨[some (.count 1)], .count 0, .float .single, [1, 2], false, "strip"⟩)]
  minibatchSize := 1

/-- The strips that one group reads are packed into one array. -/
theorem buildFor_packs_strips :
    buildFor [strip 1, strip 0] [[taker 0, taker 1]] .single 1 = .ok strips ∧
      ∃ breaks, Partition.breaks [strip 1, strip 0] [[taker 0, taker 1]] = .ok breaks ∧
        strips.Packs [strip 1, strip 0] .single breaks := by
  have success : buildFor [strip 1, strip 0] [[taker 0, taker 1]] .single 1 = .ok strips := by
    decide +kernel
  exact ⟨success, buildFor_packs success⟩

/-! ## Slots of a group -/

section Slots

variable {breaks : List Nat} {group : List Operator} {first a b : Operator} {slot : Nat}
  {s t : Signal} {rows rows' : Rows}

/-- The bases at one slot of a group of mergeable operators are in one array. -/
theorem Packs.key_eq_of_slot (packs : layout.Packs signals precision breaks)
    (distinct : signals.Nodup) (cut : Partition.breaks signals plan = .ok breaks)
    (isGroup : group ∈ plan)
    (merges : ∀ a ∈ group, ∀ b ∈ group, a ≠ b → mergeablePair a b = true)
    (isFirst : first ∈ group.head?) (notReset : first.action.builder ≠ .reset) (isA : a ∈ group)
    (isB : b ∈ group) (isS : a.allSignals[slot]? = some s) (isT : b.allSignals[slot]? = some t)
    (found : layout.rows.lookup s.root = some rows)
    (found' : layout.rows.lookup t.root = some rows') : rows.key = rows'.key := by
  have inside := Operator.lt_length_of_mergeable (merges first (List.mem_of_mem_head? isFirst) a isA)
    isS
  have params := Signal.sameParams_of_mergeable (merges a isA b isB) precision isS isT
  obtain ⟨i, j, isAt, isAt', forwards⟩ := Partition.unbroken_of_slot distinct cut isGroup isFirst
    notReset inside isA isB isS isT
  obtain ⟨j', i', isAt₂', isAt₂, backwards⟩ := Partition.unbroken_of_slot distinct cut isGroup
    isFirst notReset inside isB isA isT isS
  cases Distinct.eq_of_getElem? distinct isAt₂ isAt
  cases Distinct.eq_of_getElem? distinct isAt₂' isAt'
  rcases Nat.le_total i j with le | le
  · refine (packs.shared i j _ _ _ _ le isAt isAt' found found').2 ⟨params, fun p isBreak => ?_⟩
    have := forwards le p isBreak
    omega
  · refine ((packs.shared j i _ _ _ _ le isAt' isAt found' found).2
      ⟨params.symm, fun p isBreak => ?_⟩).symm
    have := backwards le p isBreak
    omega

namespace BuiltFrom

variable {minibatchSize : Nat} {p : Packing}
  (built : layout.BuiltFrom signals plan precision minibatchSize breaks p)

include built

/-- An entry has the extents of its signal beyond axis 0. -/
theorem tail_shape (entry : (s, rows) ∈ layout.rows) :
    Shape.same (Shape.tail rows.shape) (Shape.tail s.shape) = true := by
  have shape := (of_checkRows_eq_ok (built.checked _ entry)).1
  rw [Shape.same_iff] at shape ⊢
  rw [← Shape.tail_normalized s.shape]
  exact List.forall₂_drop 1 shape

/-- An entry is in the array of its base. -/
theorem exists_root (entry : (s, rows) ∈ layout.rows) :
    ∃ base, layout.rows.lookup s.root = some base ∧ base.key = rows.key := by
  obtain ⟨i, key, a, base, has⟩ := built.exists_hasRows entry
  have isAt : signals[i]? = some s.root := by
    rw [← built.packed.keys, List.getElem?_map, has.isAt]
    rfl
  obtain ⟨base', isAt', found⟩ := built.exists_base isAt
  cases has.isAt.symm.trans isAt'
  refine ⟨base, found, ?_⟩
  rw [has.base_eq, has.isKey]
  rfl

end BuiltFrom

/-- The signals at one slot of a group of mergeable operators are rows of one array, of equal
shape, unless the group starts with a reset. -/
theorem slots_share_array {size : Number}
    (success : buildFor signals plan precision size = .ok layout)
    {group : List Operator} (isGroup : group ∈ plan)
    (merges : ∀ a ∈ group, ∀ b ∈ group, a ≠ b → mergeablePair a b = true)
    {first : Operator} (isFirst : first ∈ group.head?)
    (notReset : first.action.builder ≠ .reset) {a b : Operator} (isA : a ∈ group) (isB : b ∈ group)
    {slot : Nat} {s t : Signal} (isS : a.allSignals[slot]? = some s)
    (isT : b.allSignals[slot]? = some t) :
    ∃ rows rows', layout.rows.lookup s = some rows ∧ layout.rows.lookup t = some rows' ∧
      rows.key = rows'.key ∧ Shape.same (Shape.tail rows.shape) (Shape.tail rows'.shape) = true := by
  obtain ⟨minibatchSize, breaks, p, -, built⟩ := of_buildFor_eq_ok success
  have distinct := built.packed.distinct
  have inside := Operator.lt_length_of_mergeable (merges first (List.mem_of_mem_head? isFirst) a isA)
    isS
  have inPlan {op : Operator} (isOp : op ∈ group) : op ∈ plan.flatten :=
    List.mem_flatten.2 ⟨group, isGroup, isOp⟩
  obtain ⟨i, j, isAt, isAt', -⟩ := Partition.unbroken_of_slot distinct built.cut isGroup isFirst
    notReset inside isA isB isS isT
  obtain ⟨rows, found⟩ := built.exists_entry (inPlan isA) (List.mem_of_getElem? isS)
    (List.mem_of_getElem? isAt)
  obtain ⟨rows', found'⟩ := built.exists_entry (inPlan isB) (List.mem_of_getElem? isT)
    (List.mem_of_getElem? isAt')
  refine ⟨rows, rows', found, found', ?key, ?shape⟩
  case key =>
    obtain ⟨base, isBase, key⟩ := built.exists_root (Assoc.mem_of_lookup found)
    obtain ⟨base', isBase', key'⟩ := built.exists_root (Assoc.mem_of_lookup found')
    rw [← key, ← key']
    exact built.packs.key_eq_of_slot distinct built.cut isGroup merges isFirst notReset isA isB isS
      isT isBase isBase'
  case shape =>
    have shape := built.tail_shape (Assoc.mem_of_lookup found)
    have shape' := built.tail_shape (Assoc.mem_of_lookup found')
    rw [Shape.same_comm] at shape'
    by_cases same : a = b
    · subst same
      cases isS.symm.trans isT
      exact Shape.same_trans shape shape'
    · obtain ⟨-, -, own, -⟩ := Signal.compatible_iff.1
        (Signal.compatible_of_mergeable (merges a isA b isB same) isS isT)
      exact Shape.same_trans (Shape.same_trans shape own) shape'

end Slots

theorem slots_share_array_strips :
    buildFor [strip 1, strip 0] [[taker 0, taker 1]] .single 1 = .ok strips ∧
      ∃ rows rows', strips.rows.lookup (strip 0) = some rows ∧
        strips.rows.lookup (strip 1) = some rows' ∧ rows.key = rows'.key ∧
        Shape.same (Shape.tail rows.shape) (Shape.tail rows'.shape) = true := by
  have success : buildFor [strip 1, strip 0] [[taker 0, taker 1]] .single 1 = .ok strips := by
    decide +kernel
  have merges : ∀ a ∈ [taker 0, taker 1], ∀ b ∈ [taker 0, taker 1], a ≠ b →
      mergeablePair a b = true := by decide +kernel
  have isS : (taker 0).allSignals[0]? = some (strip 0) := rfl
  have isT : (taker 1).allSignals[0]? = some (strip 1) := rfl
  exact ⟨success, slots_share_array success (List.mem_singleton_self _) merges rfl (by decide)
    List.mem_cons_self (List.mem_cons_of_mem _ List.mem_cons_self) isS isT⟩

end MemoryLayout

end BatchGraph
