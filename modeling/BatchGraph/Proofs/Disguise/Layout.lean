import BatchGraph.Proofs.Disguise.Order
import BatchGraph.Proofs.Layout.Inversion

/-!
Layouts in disguise.

Values and names do not decide where the order is cut (`breaks_carries`).  The precision and the
minibatch size do change the arrays, but not their numbers, nor the rows that signals have in them:
two packings that both succeed mirror each other (`Packing.Mirrors`), also under different
precisions and minibatch sizes, and so do the rows of the views (`buildFor_places`).
-/

namespace BatchGraph

/-- The array of some rows, their indices and their shape. -/
def Rows.geometry (r : Rows) : Number × List (Option Number) × List Number :=
  (r.key, r.indices, r.shape)

/-! ## Precisions -/

/-- The storage type for the same element type under another precision. -/
def Storage.under (precision : Precision) : Storage → Storage
  | .float _ => .float precision
  | .int32 => .int32

@[simp] theorem Storage.under_under (precision precision' : Precision) (storage : Storage) :
    (storage.under precision').under precision = storage.under precision := by
  cases storage <;> rfl

theorem DType.storage_under {dtype : DType} {precision : Precision} {storage : Storage}
    (success : dtype.storage precision = .ok storage) (precision' : Precision) :
    dtype.storage precision' = .ok (storage.under precision') := by
  cases dtype <;> cases success <;> rfl

/-- The class for the same signals under another precision. -/
def ArrayClass.under (precision : Precision) (kind : ArrayClass) : ArrayClass :=
  { kind with storage := kind.storage.under precision }

namespace Disguise

variable (d : Disguise)

/-! ## Breaks -/

section Partition

open BatchGraph.Partition

theorem placeOf_carries (positions : List (Signal × Nat)) (s : Signal) :
    Except.Carries id (position positions s) (position (d.numbered positions) (d.signal s)) := by
  unfold position
  rw [d.lookup_numbered]
  cases positions.lookup s with
  | none => exact .error _ _
  | some i => exact .ok i

theorem slotBases_carries (ops : List Operator) (slot : Nat) :
    Except.Carries (List.map d.signal) (slotBases ops slot)
      (slotBases (ops.map d.operator) slot) := by
  refine Except.Carries.mapM fun op _ => ?_
  rw [d.allSignals_operator, List.getElem?_map]
  cases op.allSignals[slot]? with
  | none => exact .error _ _
  | some s => exact .ok s.root

theorem span_carries (positions : List (Signal × Nat)) (bases : List Signal) :
    Except.Carries (List.map (Prod.map d.signal d.signal)) (span positions bases)
      (span (d.numbered positions) (bases.map d.signal)) := by
  refine (Except.Carries.mapM_id fun s _ => d.placeOf_carries positions s).bind fun places _ => ?_
  have found (place? : Option Nat) :
      (place?.bind fun place => ((bases.map d.signal).zip places).find? (·.2 = place)) =
        (place?.bind fun place => (bases.zip places).find? (·.2 = place)).map
          (Prod.map d.signal id) := by
    cases place? with
    | none => rfl
    | some place =>
      rw [List.zip_map_left, Option.bind_some, Option.bind_some, List.find?_map]
      rfl
  dsimp only [id]
  rw [found, found]
  cases places.min?.bind _ with
  | none => exact .ok []
  | some first =>
    cases places.max?.bind _ with
    | none => exact .ok []
    | some last => exact .ok [(first.1, last.1)]

theorem groupSpans_carries (positions : List (Signal × Nat)) (ops : List Operator) :
    Except.Carries (List.map (Prod.map d.signal d.signal)) (groupSpans positions ops)
      (groupSpans (d.numbered positions) (ops.map d.operator)) := by
  cases ops with
  | nil => exact .error _ _
  | cons first ops =>
    unfold groupSpans
    simp only [List.map_cons, d.action_operator, builder_map, d.allSignals_operator,
      List.length_map]
    split
    · exact .ok []
    · refine (Except.Carries.mapM_same fun slot _ =>
        (d.slotBases_carries (first :: ops) slot).bind fun bases _ =>
          d.span_carries positions bases).bind fun spans _ => ?_
      rw [← List.map_flatten]
      exact .ok _

theorem closings_map (spans : List (Signal × Signal)) (signals : List Signal) (i : Nat)
    (before : Int) :
    closings (spans.map (Prod.map d.signal d.signal)) (signals.map d.signal) i before =
      closings spans signals i before := by
  have opened (s : Signal) :
      opened (spans.map (Prod.map d.signal d.signal)) (d.signal s) = opened spans s := by
    simp [opened, List.countP_map, Function.comp_def, d.signal_injective.eq_iff]
  induction signals generalizing i before with
  | nil => rfl
  | cons s signals ih => rw [List.map_cons, closings, closings, opened, ih]

theorem breaks_carries (signals : List Signal) (plan : Plan) :
    Except.Carries id (breaks signals plan) (breaks (signals.map d.signal) (d.plan plan)) := by
  unfold breaks
  rw [Assoc.lastPositions_map d.signal_injective]
  refine (Except.Carries.mapM fun ops _ => d.groupSpans_carries _ ops).bind fun spans _ => ?_
  rw [← List.map_flatten, d.closings_map]
  exact .ok _

end Partition

end Disguise

/-! ## Packing -/

/-- The places of signals, each of them seen through `f`: the array, the indices and the shape of
their rows, which values and precisions leave as they are. -/
abbrev places (f : Signal → Signal) (entries : List (Signal × Rows)) :
    List (Signal × Number × List (Option Number) × List Number) :=
  entries.map (Prod.map f Rows.geometry)

theorem places_append (f : Signal → Signal) (entries entries' : List (Signal × Rows)) :
    places f (entries ++ entries') = places f entries ++ places f entries' := List.map_append

theorem map_places (f g : Signal → Signal) (entries : List (Signal × Rows)) :
    (places f entries).map (Prod.map g id) = places (g ∘ f) entries := by
  rw [places, List.map_map, Prod.map_comp_map, Function.id_comp]

namespace Packing

variable {d : Disguise} {precision precision' : Precision} {minibatchSize minibatchSize' : Nat}
  {breaks : List Nat} {p p' q q' : Packing}

theorem rows_eq (arrays : List PendingArray) (key : Nat) :
    arrays[key]?.elim 0 PendingArray.rows = ((arrays.map (·.rows))[key]?).getD 0 := by
  rw [List.getElem?_map]
  cases arrays[key]? <;> rfl

theorem rows_modify (arrays : List PendingArray) (key count : Nat) (chunk : List Number) :
    (arrays.modify key (·.grow chunk count)).map (·.rows) =
      (arrays.map (·.rows)).modify key (· + count) := by
  apply List.ext_getElem?
  intro i
  rw [List.getElem?_map, List.getElem?_modify, List.getElem?_modify, List.getElem?_map]
  cases arrays[i]? with
  | none => rfl
  | some a => by_cases same : key = i <;> simp [same, PendingArray.grow]

/-- Two packings have the same arrays but for their contents and their precision, and the same rows
in them. -/
structure Mirrors (d : Disguise) (precision precision' : Precision) (p p' : Packing) : Prop where
  current : p'.current = p.current.map (Prod.map (ArrayClass.under precision') id)
  stored : ∀ entry ∈ p.current, entry.1.under precision = entry.1
  rows : p'.arrays.map (·.rows) = p.arrays.map (·.rows)
  placed : places id p'.placed = places d.signal p.placed

namespace Mirrors

theorem lookup_current (mirrors : Mirrors d precision precision' p p') {kind : ArrayClass}
    (stored : kind.under precision = kind) :
    p'.current.lookup (kind.under precision') = p.current.lookup kind := by
  have back (kind : ArrayClass) :
      (kind.under precision').under precision = kind.under precision := by
    simp [ArrayClass.under]
  rw [mirrors.current, Assoc.lookup_map, Option.map_id, id]
  -- Classes that differ only in their precision would fall together, but here all have the same.
  intro entry member same
  rw [← stored, ← mirrors.stored entry member, ← back kind, ← back entry.1, same]

theorem before (mirrors : Mirrors d precision precision' p p') (breaks : List Nat) (i : Nat) :
    Mirrors d precision precision' (p.before breaks i) (p'.before breaks i) := by
  unfold Packing.before
  split
  · exact ⟨rfl, fun _ member => (nomatch member), mirrors.rows, mirrors.placed⟩
  · exact mirrors

theorem array (mirrors : Mirrors d precision precision' p p') {kind : ArrayClass}
    (stored : kind.under precision = kind) (tail tail' : List Number) :
    (p'.array (kind.under precision') tail').1 = (p.array kind tail).1 ∧
      Mirrors d precision precision' (p.array kind tail).2
        (p'.array (kind.under precision') tail').2 := by
  have count : p'.arrays.length = p.arrays.length := by
    simpa using congrArg List.length mirrors.rows
  unfold Packing.array
  rw [mirrors.lookup_current stored]
  cases p.current.lookup kind with
  | some key => exact ⟨rfl, mirrors⟩
  | none =>
    refine ⟨count, ⟨?_, ?_, ?_, mirrors.placed⟩⟩
    · simp [mirrors.current, count]
    · exact List.forall_mem_append.2 ⟨mirrors.stored, by simpa using stored⟩
    · simp [mirrors.rows]

theorem append (mirrors : Mirrors d precision precision' p p') (key : Nat)
    (kind kind' : ArrayClass) (s : Signal) (values values' : List Number) :
    Mirrors d precision precision' (p.append key kind s values)
      (p'.append key kind' (d.signal s) values') := by
  have start : p'.arrays[key]?.elim 0 PendingArray.rows =
      p.arrays[key]?.elim 0 PendingArray.rows := by
    rw [rows_eq, rows_eq, mirrors.rows]
  unfold Packing.append
  rw [d.shape_signal, start]
  refine ⟨mirrors.current, mirrors.stored, ?_, ?_⟩
  · exact (rows_modify _ _ _ _).trans (mirrors.rows ▸ (rows_modify _ _ _ _).symm)
  · dsimp only
    rw [places_append, places_append, mirrors.placed]
    rfl

theorem add (mirrors : Mirrors d precision precision' p p') {s : Signal} {i : Nat}
    (success : p.add precision minibatchSize breaks (s, i) = .ok q)
    (success' : p'.add precision' minibatchSize' breaks (d.signal s, i) = .ok q') :
    Mirrors d precision precision' q q' := by
  obtain ⟨-, -, storage, values, isStorage, -, -, rfl⟩ := of_add_eq_ok success
  obtain ⟨-, -, storage', values', isStorage', -, -, rfl⟩ := of_add_eq_ok success'
  have stored : storage.under precision = storage :=
    Except.ok.inj ((DType.storage_under isStorage precision).symm.trans isStorage)
  have same : storage' = storage.under precision' := by
    rw [d.dtype_signal, DType.storage_under isStorage] at isStorage'
    exact (Except.ok.inj isStorage').symm
  have class' : classOf storage' (d.signal s).base = (classOf storage s.base).under precision' := by
    simp [classOf, ArrayClass.under, same]
  have fixed : (classOf storage s.base).under precision = classOf storage s.base := by
    simp [classOf, ArrayClass.under, stored]
  obtain ⟨key, mirrors⟩ := (mirrors.before breaks i).array fixed
    (Shape.tail (Shape.normalized s.base.shape))
    (Shape.tail (Shape.normalized (d.signal s).base.shape))
  rw [class', key]
  exact mirrors.append _ _ _ s _ _

end Mirrors

theorem mirrors_of_ofSignals {signals : List Signal}
    (success : ofSignals precision minibatchSize breaks signals = .ok p)
    (success' : ofSignals precision' minibatchSize' breaks (signals.map d.signal) = .ok p') :
    Mirrors d precision precision' p p' := by
  unfold ofSignals at success success'
  rw [List.zipIdx_map] at success'
  refine Except.foldlM_induction (Mirrors d precision precision') ?_ ?_ success success'
  · exact ⟨rfl, by simp, rfl, rfl⟩
  · exact fun p p' mirrors entry _ q q' first second => mirrors.add first second

end Packing

/-! ## Views -/

namespace Disguise

variable (d : Disguise) {placed placed' next next' : List (Signal × Rows)} {s : Signal}
  {rows rows' base base' : Rows}

theorem index_carries (same : base'.indices = base.indices) (position : Number) :
    Except.Carries id (base.index position) (base'.index position) := by
  unfold Rows.index Rows.count
  rw [same]
  split
  · exact .error _ _
  · exact .ok _

theorem pick_carries (same : base'.indices = base.indices) (start step : Number)
    (k count : Nat) :
    Except.Carries id (base.pick start step k count) (base'.pick start step k count) := by
  induction count generalizing k with
  | zero => exact .ok []
  | succ count ih =>
    exact (index_carries same _).bind fun i _ => (ih (k + 1)).bind fun rest _ => .ok _

theorem viewRows_geometry (same : base'.geometry = base.geometry)
    (success : s.viewRows base = .ok rows) (success' : (d.signal s).viewRows base' = .ok rows') :
    rows'.geometry = rows.geometry := by
  have size : (d.signal s).size.same (d.signal s).root.size = s.size.same s.root.size := by simp
  rw [Rows.geometry, Rows.geometry, Prod.mk.injEq, Prod.mk.injEq] at same
  obtain ⟨key, indices, shape⟩ := same
  rcases Signal.of_viewRows_eq_ok success with whole | some_
  · rcases Signal.of_viewRows_eq_ok success' with whole' | some_'
    · rw [whole.rows_eq, whole'.rows_eq]
      simp [Rows.geometry, key, indices]
    · have contra := some_'.size
      rw [size, whole.size] at contra
      cases contra
  · rcases Signal.of_viewRows_eq_ok success' with whole' | some_'
    · have contra := whole'.size
      rw [size, some_.size] at contra
      cases contra
    · have picked := pick_carries indices _ _ _ _ _ some_.picked
      have picked' := some_'.picked
      simp only [base_signal, d.offset_signal, d.strides_signal, d.shape_signal, d.shape_base]
        at picked'
      rw [picked] at picked'
      rw [some_.rows_eq, some_'.rows_eq]
      have indices : rows.indices = rows'.indices := Except.ok.inj picked'
      simp [Rows.geometry, key, shape, indices]

/-- Signals that have the same places are found at the same places. -/
theorem lookup_places (same : places id placed' = places d.signal placed) (s : Signal) :
    (placed'.lookup (d.signal s)).map Rows.geometry = (placed.lookup s).map Rows.geometry := by
  have left :=
    Assoc.lookup_map_of_injective Function.injective_id Rows.geometry placed' (d.signal s)
  have right := Assoc.lookup_map_of_injective d.signal_injective Rows.geometry placed s
  rw [← left, ← right, ← places, ← places, same, id]

theorem placeView_places (same : places id placed' = places d.signal placed)
    (success : placeView placed s = .ok next)
    (success' : placeView placed' (d.signal s) = .ok next') :
    places id next' = places d.signal next := by
  have known : (placed'.lookup (d.signal s)).isSome = (placed.lookup s).isSome := by
    simpa using congrArg Option.isSome (d.lookup_places same s)
  have found := d.lookup_places same s.root
  unfold placeView at success success'
  rw [d.isView_signal, known] at success'
  split at success
  case isTrue done =>
    rw [if_pos done] at success'
    cases success
    cases success'
    exact same
  case isFalse todo =>
    rw [if_neg todo, d.root_signal] at success'
    cases isBase : placed.lookup s.root with
    | none =>
      rw [isBase] at success
      cases success
    | some base =>
      cases isBase' : placed'.lookup (d.signal s.root) with
      | none =>
        rw [isBase'] at success'
        cases success'
      | some base' =>
        rw [isBase] at success found
        rw [isBase'] at success' found
        obtain ⟨rows, areRows, success⟩ := Except.bind_eq_ok_iff.1 success
        obtain ⟨rows', areRows', success'⟩ := Except.bind_eq_ok_iff.1 success'
        cases success
        cases success'
        rw [places_append, places_append, same]
        have geometry := d.viewRows_geometry (Option.some.inj found) areRows areRows'
        exact congrArg (_ ++ [·]) (Prod.ext rfl geometry)

theorem placeViews_places {plan : Plan} (same : places id placed' = places d.signal placed)
    (success : placeViews placed plan = .ok next)
    (success' : placeViews placed' (d.plan plan) = .ok next') :
    places id next' = places d.signal next := by
  have signals : (d.plan plan).flatten.flatMap Operator.allSignals =
      (plan.flatten.flatMap Operator.allSignals).map d.signal := by
    simp [← List.map_flatten, List.flatMap_map, List.map_flatMap]
  unfold placeViews at success success'
  rw [signals] at success'
  refine Except.foldlM_induction (fun placed placed' => places id placed' = places d.signal placed)
    same ?_ success success'
  exact fun p p' same s _ q q' first second => d.placeView_places same first second

/-! ## Layouts -/

theorem build_places {signals : List Signal} {plan : Plan} {precision precision' : Precision}
    {minibatchSize minibatchSize' : Nat} {layout layout' : MemoryLayout}
    (success : MemoryLayout.build signals plan precision minibatchSize = .ok layout)
    (success' : MemoryLayout.build (signals.map d.signal) (d.plan plan) precision' minibatchSize' =
      .ok layout') : places id layout'.rows = places d.signal layout.rows := by
  obtain ⟨breaks, p, rows, areBreaks, isPacking, areRows, rfl, -⟩ :=
    MemoryLayout.stages_of_build_eq_ok success
  obtain ⟨breaks', p', rows', areBreaks', isPacking', areRows', rfl, -⟩ :=
    MemoryLayout.stages_of_build_eq_ok success'
  rw [d.breaks_carries signals plan breaks areBreaks] at areBreaks'
  cases areBreaks'
  have mirrors := Packing.mirrors_of_ofSignals isPacking isPacking'
  exact d.placeViews_places mirrors.placed areRows areRows'

/-- Layouts under any precisions and minibatch sizes give signals the same places. -/
theorem buildFor_places {signals : List Signal} {plan : Plan} {precision precision' : Precision}
    {size size' : Number} {layout layout' : MemoryLayout}
    (success : MemoryLayout.buildFor signals plan precision size = .ok layout)
    (success' : MemoryLayout.buildFor (signals.map d.signal) (d.plan plan) precision' size' =
      .ok layout') : places id layout'.rows = places d.signal layout.rows := by
  unfold MemoryLayout.buildFor at success success'
  split at success
  case h_1 =>
    split at success'
    case h_1 => exact d.build_places success success'
    case h_2 => cases success'
  case h_2 => cases success

end Disguise

end BatchGraph
