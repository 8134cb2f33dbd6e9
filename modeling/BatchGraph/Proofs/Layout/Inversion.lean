import BatchGraph.Proofs.Layout.Packed
import BatchGraph.Proofs.Number.Product

/-!
What is known of a layout that has been built.

Each stage of `MemoryLayout.build` is taken apart: the packed bases (`Packing.Packed`), the views
behind them (`PlacesViews`), whose rows come from `Signal.viewRows` in one of two ways
(`viewRows_cases`, `of_viewRows_eq_ok`), and the check, which every entry has passed (`of_checkRows_eq_ok`).
`of_build_eq_ok` puts them together.
-/

namespace BatchGraph

/-! ## Rows of views -/

namespace Signal

/-- The view has as many elements as its base, without gaps from the first one on. -/
structure IsWhole (s : Signal) : Prop where
  size : s.size.same s.root.size = true
  offset : s.offset.same 0 = true
  contiguous : s.isContiguous = true

/-- The view consists of whole rows of its base. -/
structure Aligned (s : Signal) : Prop where
  size : s.size.same s.root.size = false
  tail : Shape.same (Shape.tail s.shape) (Shape.tail s.base.shape) = true
  inner : Shape.same (s.strides.drop 1) (s.root.strides.drop 1) = true
  offset : s.offset.isMultiple (Shape.size (Shape.tail s.base.shape)) = true
  stride : (s.strides.headD (Shape.size (Shape.tail s.base.shape))).isMultiple
    (Shape.size (Shape.tail s.base.shape)) = true

/-- The rows of the base under the shape of a view that has as many elements. -/
structure Reshapes (s : Signal) (base rows : Rows) : Prop extends s.IsWhole where
  rows_eq : rows = { base with shape := Shape.normalized s.shape, label := s.name }

/-- Rows of the base for a view that steps over whole rows. -/
structure Slices (s : Signal) (base rows : Rows) : Prop extends s.Aligned where
  picked : base.pick (s.offset / Shape.size (Shape.tail s.base.shape))
    (s.strides.headD (Shape.size (Shape.tail s.base.shape)) / Shape.size (Shape.tail s.base.shape))
    0 (Shape.leading s.shape).countBelow = .ok rows.indices
  rows_eq : rows = { base with
    indices := rows.indices
    shape := Shape.leading s.shape :: Shape.tail base.shape
    label := s.name }

theorem IsWhole.viewRows_eq {s : Signal} (whole : s.IsWhole) (base : Rows) :
    s.viewRows base = base.reshape (Shape.normalized s.shape) s.name := by
  simp only [viewRows, whole.size, whole.offset, whole.contiguous]
  rfl

theorem Aligned.viewRows_eq {s : Signal} (aligned : s.Aligned) (base : Rows) :
    s.viewRows base = base.sliceRows (s.offset / Shape.size (Shape.tail s.base.shape))
      (s.strides.headD (Shape.size (Shape.tail s.base.shape)) /
        Shape.size (Shape.tail s.base.shape)) (Shape.leading s.shape) s.name := by
  have shape : s.root.shape = s.base.shape := rfl
  simp only [viewRows, shape, aligned.size, aligned.tail, aligned.inner, aligned.offset,
    aligned.stride]
  rfl

/-- A view is placed in one of two ways, or refused as unsupported. -/
theorem viewRows_cases (s : Signal) (base : Rows) :
    s.IsWhole ∨ s.Aligned ∨ ∃ e, s.viewRows base = .error e ∧ e.kind = .unsupported := by
  unfold viewRows
  dsimp only
  split
  case isTrue size =>
    split
    case isTrue => exact .inr (.inr ⟨_, rfl, rfl⟩)
    case isFalse whole =>
      rw [Bool.or_eq_true, not_or, Bool.not_eq_true', Bool.not_eq_false, Bool.not_eq_true',
        Bool.not_eq_false] at whole
      exact .inl ⟨size, whole.1, whole.2⟩
  case isFalse size =>
    split
    case isTrue => exact .inr (.inr ⟨_, rfl, rfl⟩)
    case isFalse tail =>
      split
      case isTrue => exact .inr (.inr ⟨_, rfl, rfl⟩)
      case isFalse inner =>
        split
        case isTrue => exact .inr (.inr ⟨_, rfl, rfl⟩)
        case isFalse aligned =>
          rw [Bool.or_eq_true, not_or, Bool.not_eq_true', Bool.not_eq_false, Bool.not_eq_true',
            Bool.not_eq_false] at aligned
          rw [Bool.not_eq_true', Bool.not_eq_false] at tail inner
          exact .inr (.inl ⟨Bool.eq_false_iff.2 size, tail, inner, aligned.1, aligned.2⟩)

theorem of_viewRows_eq_ok {s : Signal} {base rows : Rows} (success : s.viewRows base = .ok rows) :
    s.Reshapes base rows ∨ s.Slices base rows := by
  rcases s.viewRows_cases base with whole | aligned | ⟨e, refused, -⟩
  · rw [whole.viewRows_eq] at success
    unfold Rows.reshape at success
    split at success <;> cases success
    exact .inl ⟨whole, rfl⟩
  · rw [aligned.viewRows_eq] at success
    obtain ⟨indices, picked, success⟩ := Except.bind_eq_ok_iff.1 success
    cases success
    exact .inr ⟨aligned, picked, rfl⟩
  · cases refused.symm.trans success

end Signal

namespace Rows

/-- A picked index is one of the rows that are picked from, or there is none. -/
theorem of_pick_eq_ok {r : Rows} {start step : Number} {k count : Nat}
    {indices : List (Option Number)} (success : r.pick start step k count = .ok indices) :
    ∀ i ∈ indices, i = none ∨ i ∈ r.indices := by
  induction count generalizing k indices with
  | zero =>
    cases success
    exact fun i member => nomatch member
  | succ count ih =>
    obtain ⟨first, isFirst, success⟩ := Except.bind_eq_ok_iff.1 success
    obtain ⟨rest, areRest, success⟩ := Except.bind_eq_ok_iff.1 success
    cases success
    refine List.forall_mem_cons.2 ⟨?_, ih areRest⟩
    unfold index at isFirst
    split at isFirst
    case isTrue => cases isFirst
    case isFalse =>
      cases isFirst
      cases found : (start + Number.ofNat k * step).toNat?.bind (r.indices[·]?) with
      | none => exact .inl rfl
      | some i =>
        obtain ⟨n, -, isAt⟩ := Option.bind_eq_some_iff.1 found
        exact .inr (List.mem_of_getElem? isAt)

end Rows

/-! ## Entries of views -/

/-- Views follow the bases: each has the rows that follow from those of its base, and no signal is
entered twice. -/
structure PlacesViews (placed entries : List (Signal × Rows)) : Prop where
  views : ∃ views, entries = placed ++ views ∧ ∀ entry ∈ views, entry.1.isView = true ∧
    ∃ base, placed.lookup entry.1.root = some base ∧ entry.1.viewRows base = .ok entry.2
  distinct : (entries.map (·.1)).Nodup

namespace PlacesViews

variable {placed entries next : List (Signal × Rows)} {s : Signal}

theorem refl (distinct : (placed.map (·.1)).Nodup) : PlacesViews placed placed :=
  ⟨⟨[], (List.append_nil _).symm, fun _ member => nomatch member⟩, distinct⟩

/-- Bases are found among the bases. -/
theorem lookup_root (places : PlacesViews placed entries) (s : Signal) :
    entries.lookup s.root = placed.lookup s.root := by
  obtain ⟨views, rfl, areViews⟩ := places.views
  have absent : views.lookup s.root = none := by
    rw [List.lookup_eq_none_iff]
    intro entry member
    refine bne_iff_ne.2 fun same => ?_
    have isView := (areViews entry member).1
    rw [← same] at isView
    cases isView
  rw [List.lookup_append, absent, Option.or_none]

theorem placeView (places : PlacesViews placed entries)
    (success : BatchGraph.placeView entries s = .ok next) :
    PlacesViews placed next ∧ (∃ new, next = entries ++ new ∧ ∀ entry ∈ new, entry.1 = s) ∧
      (s.isView = true → ∃ rows, next.lookup s = some rows) := by
  unfold BatchGraph.placeView at success
  split at success
  case isTrue done =>
    cases success
    refine ⟨places, ⟨[], (List.append_nil _).symm, fun _ member => nomatch member⟩, fun isView => ?_⟩
    rw [isView] at done
    exact Option.isSome_iff_exists.1 (by simpa using done)
  case isFalse todo =>
    rw [Bool.or_eq_true, Bool.not_eq_true', not_or, Bool.not_eq_false] at todo
    have absent : entries.lookup s = none := Option.not_isSome_iff_eq_none.1 todo.2
    split at success
    case h_1 => cases success
    case h_2 base isBase =>
      obtain ⟨rows, areRows, success⟩ := Except.bind_eq_ok_iff.1 success
      cases success
      rw [places.lookup_root] at isBase
      refine ⟨⟨?_, ?_⟩, ⟨[(s, rows)], rfl, by simp⟩, fun _ => ⟨rows, ?_⟩⟩
      · obtain ⟨views, rfl, areViews⟩ := places.views
        refine ⟨views ++ [(s, rows)], List.append_assoc _ _ _, ?_⟩
        refine List.forall_mem_append.2 ⟨areViews, fun entry member => ?_⟩
        rw [List.mem_singleton.1 member]
        exact ⟨todo.1, base, isBase, areRows⟩
      · rw [List.map_append]
        refine List.nodup_append.2 ⟨places.distinct, List.nodup_singleton _,
          fun t isEntered t' isNew => ?_⟩
        obtain ⟨entry, member, rfl⟩ := List.mem_map.1 isEntered
        rw [List.mem_singleton.1 isNew]
        exact fun same => bne_iff_ne.1 (List.lookup_eq_none_iff.1 absent entry member) same.symm
      · rw [List.lookup_append, absent, Option.none_or, List.lookup_cons_self]

theorem foldlM_placeView {met : List Signal} (places : PlacesViews placed entries)
    (success : met.foldlM BatchGraph.placeView entries = .ok next) :
    PlacesViews placed next ∧ (∃ new, next = entries ++ new ∧ ∀ entry ∈ new, entry.1 ∈ met) ∧
      ∀ s ∈ met, s.isView = true → ∃ rows, next.lookup s = some rows := by
  induction met generalizing entries with
  | nil =>
    cases success
    exact ⟨places, ⟨[], (List.append_nil _).symm, fun _ member => nomatch member⟩,
      fun s member => nomatch member⟩
  | cons s met ih =>
    rw [List.foldlM_cons] at success
    obtain ⟨mid, first, later⟩ := Except.bind_eq_ok_iff.1 success
    obtain ⟨places', ⟨new, rfl, isNew⟩, entered⟩ := places.placeView first
    obtain ⟨last, ⟨new', rfl, areNew⟩, entered'⟩ := ih places' later
    refine ⟨last, ⟨new ++ new', List.append_assoc _ _ _, ?_⟩, ?_⟩
    · refine List.forall_mem_append.2 ⟨fun entry member => ?_, fun entry member => ?_⟩
      · exact List.mem_cons.2 (.inl (isNew entry member))
      · exact List.mem_cons_of_mem s (areNew entry member)
    refine List.forall_mem_cons.2 ⟨fun isView => ?_, entered'⟩
    obtain ⟨rows, found⟩ := entered isView
    exact ⟨rows, by rw [List.lookup_append, found, Option.some_or]⟩

end PlacesViews

/-! ## Built layouts -/

namespace Packing

variable {minibatchSize : Nat} {p : Packing}

/-- The arrays of a layout, by number. -/
def backingArrays (p : Packing) (minibatchSize : Nat) : List BackingArray :=
  p.arrays.mapIdx fun key a => a.toArray key minibatchSize

theorem find?_backingArrays {key : Nat} {a : PendingArray} (array : p.arrays[key]? = some a) :
    (p.backingArrays minibatchSize).find? (·.key = .count key) =
      some (a.toArray key minibatchSize) := by
  obtain ⟨inside, isAt⟩ := List.getElem?_eq_some_iff.1 array
  refine List.find?_eq_some_iff_getElem.2 ⟨?_, key, ?_, ?_, fun j before => ?_⟩
  · simp [PendingArray.toArray]
  · rwa [backingArrays, List.length_mapIdx]
  · simp [backingArrays, isAt]
  · have differ : j ≠ key := before.ne
    simp [backingArrays, PendingArray.toArray, Number.count, differ]

end Packing

namespace MemoryLayout

variable {layout : MemoryLayout} {s : Signal} {rows : Rows}

/-- The check has compared the shape of an entry with that of its signal, and every value that is
stored for it with the expected one. -/
theorem of_checkRows_eq_ok (success : layout.checkRows s rows = .ok ()) :
    Shape.same rows.shape (Shape.normalized s.shape) = true ∧
      ∃ a actual values, layout.array? rows.key = some a ∧ rows.gather a = .ok actual ∧
        broadcast s.initialValue s.size = .ok values ∧
        List.Forall₂ (fun value stored => isStored value stored = true)
          (tile values (layout.copies s)) actual := by
  unfold checkRows at success
  dsimp only at success
  split at success
  case isTrue => cases success
  case isFalse shape =>
    rw [Bool.not_eq_true', Bool.not_eq_false] at shape
    refine ⟨shape, ?_⟩
    split at success
    case h_1 => cases success
    case h_2 a isArray =>
      obtain ⟨actual, gathered, success⟩ := Except.bind_eq_ok_iff.1 success
      obtain ⟨_, -, success⟩ := Except.bind_eq_ok_iff.1 success
      obtain ⟨values, areValues, success⟩ := Except.bind_eq_ok_iff.1 success
      refine ⟨a, actual, values, isArray, gathered, areValues, ?_⟩
      split at success
      case isTrue => cases success
      case isFalse length =>
        split at success
        case h_1 => cases success
        case h_2 none =>
          rw [List.findIdx?_eq_none_iff] at none
          refine List.forall₂_iff_zip.2 ⟨(not_not.1 length).symm, fun member => ?_⟩
          simpa using none _ member

/-- The signals that a layout has rows for: the bases of the order and the views of the plan. -/
def Covers (signals : List Signal) (plan : Plan) (s : Signal) : Prop :=
  s ∈ signals ∨ s.isView = true ∧ ∃ op ∈ plan.flatten, s ∈ op.allSignals

/-- The layout has the arrays of a packing of the order and the rows of its bases and of the views
of the plan. -/
structure LaidOut (layout : MemoryLayout) (signals : List Signal) (plan : Plan)
    (precision : Precision) (minibatchSize : Nat) (breaks : List Nat) (p : Packing) : Prop where
  positive : 0 < minibatchSize
  cut : Partition.breaks signals plan = .ok breaks
  packed : p.Packed precision minibatchSize breaks signals
  arrays : layout.arrays = p.backingArrays minibatchSize
  views : PlacesViews p.placed layout.rows
  entered : ∀ op ∈ plan.flatten, ∀ s ∈ op.allSignals, s.isView = true →
    ∃ rows, layout.rows.lookup s = some rows
  known : ∀ entry ∈ layout.rows, Covers signals plan entry.1
  size : layout.minibatchSize = minibatchSize

theorem LaidOut.copies_eq {layout : MemoryLayout} {signals : List Signal} {plan : Plan}
    {precision : Precision} {minibatchSize : Nat} {breaks : List Nat} {p : Packing}
    (laid : layout.LaidOut signals plan precision minibatchSize breaks p) (s : Signal) :
    layout.copies s = s.base.copies minibatchSize := by
  rw [copies, laid.size]
  rfl

/-- The layout is laid out, and every entry has passed the check. -/
structure BuiltFrom (layout : MemoryLayout) (signals : List Signal) (plan : Plan)
    (precision : Precision) (minibatchSize : Nat) (breaks : List Nat) (p : Packing) : Prop
    extends layout.LaidOut signals plan precision minibatchSize breaks p where
  checked : ∀ entry ∈ layout.rows, layout.checkRows entry.1 entry.2 = .ok ()

variable {signals : List Signal} {plan : Plan} {precision : Precision}

theorem laidOut_of_stages {minibatchSize : Nat} {breaks : List Nat} {p : Packing}
    {rows : List (Signal × Rows)} (positive : 0 < minibatchSize)
    (areBreaks : Partition.breaks signals plan = .ok breaks)
    (isPacking : Packing.ofSignals precision minibatchSize breaks signals = .ok p)
    (areRows : placeViews p.placed plan = .ok rows) :
    (⟨p.backingArrays minibatchSize, rows, minibatchSize⟩ : MemoryLayout).LaidOut signals plan
      precision minibatchSize breaks p := by
  have packed := Packing.packed_of_ofSignals isPacking
  obtain ⟨views, ⟨new, grown, areNew⟩, entered⟩ :=
    (PlacesViews.refl (packed.keys ▸ packed.distinct)).foldlM_placeView areRows
  refine ⟨positive, areBreaks, packed, rfl, views, fun op isOp s isSignal => ?_,
    fun entry member => ?_, rfl⟩
  · exact entered s (List.mem_flatMap.2 ⟨op, isOp, isSignal⟩)
  · obtain ⟨new', grown', areViews⟩ := views.views
    cases List.append_cancel_left (grown.symm.trans grown')
    have isEntry : entry ∈ p.placed ++ new := grown ▸ member
    rcases List.mem_append.1 isEntry with isBase | isNew
    · rw [Covers, ← packed.keys]
      exact .inl (List.mem_map_of_mem isBase)
    · exact .inr ⟨(areViews entry isNew).1, List.mem_flatMap.1 (areNew entry isNew)⟩

theorem build_eq_ok {minibatchSize : Nat} {breaks : List Nat} {p : Packing}
    {rows : List (Signal × Rows)} (areBreaks : Partition.breaks signals plan = .ok breaks)
    (isPacking : Packing.ofSignals precision minibatchSize breaks signals = .ok p)
    (listed : p.checkLengths = .ok ()) (areRows : placeViews p.placed plan = .ok rows)
    (checked : (⟨p.backingArrays minibatchSize, rows, minibatchSize⟩ : MemoryLayout).check = .ok ()) :
    build signals plan precision minibatchSize =
      .ok ⟨p.backingArrays minibatchSize, rows, minibatchSize⟩ := by
  rw [build, areBreaks, Except.ok_bind, isPacking, Except.ok_bind, listed, Except.ok_bind, areRows,
    Except.ok_bind]
  exact congrArg (· >>= fun _ => Except.ok _) checked

/-- A layout that has been built has passed through every stage. -/
theorem stages_of_build_eq_ok {minibatchSize : Nat}
    (success : build signals plan precision minibatchSize = .ok layout) :
    ∃ breaks p rows, Partition.breaks signals plan = .ok breaks ∧
      Packing.ofSignals precision minibatchSize breaks signals = .ok p ∧
        placeViews p.placed plan = .ok rows ∧
          layout = ⟨p.backingArrays minibatchSize, rows, minibatchSize⟩ ∧ layout.check = .ok () := by
  obtain ⟨breaks, areBreaks, success⟩ := Except.bind_eq_ok_iff.1 success
  obtain ⟨p, isPacking, success⟩ := Except.bind_eq_ok_iff.1 success
  obtain ⟨_, -, success⟩ := Except.bind_eq_ok_iff.1 success
  obtain ⟨rows, areRows, success⟩ := Except.bind_eq_ok_iff.1 success
  obtain ⟨_, checked, success⟩ := Except.bind_eq_ok_iff.1 success
  cases success
  exact ⟨breaks, p, rows, areBreaks, isPacking, areRows, rfl, checked⟩

theorem of_build_eq_ok {minibatchSize : Nat} (positive : 0 < minibatchSize)
    (success : build signals plan precision minibatchSize = .ok layout) :
    ∃ breaks p, layout.BuiltFrom signals plan precision minibatchSize breaks p := by
  obtain ⟨breaks, p, rows, areBreaks, isPacking, areRows, rfl, checked⟩ :=
    stages_of_build_eq_ok success
  exact ⟨breaks, p, laidOut_of_stages positive areBreaks isPacking areRows,
    Except.of_forM_eq_ok checked⟩

theorem of_minibatchSize?_eq_some {size : Number} {n : Nat}
    (success : minibatchSize? size = some n) : size.Denotes n ∧ 0 < n := by
  obtain ⟨isNat, positive⟩ := Option.filter_eq_some_iff.1 success
  exact ⟨Number.denotes_of_toNat?_eq_some isNat, of_decide_eq_true positive⟩

/-- A layout comes from a packing, if it is built at all. -/
theorem of_buildFor_eq_ok {size : Number}
    (success : buildFor signals plan precision size = .ok layout) :
    ∃ minibatchSize breaks p, size.Denotes minibatchSize ∧
      layout.BuiltFrom signals plan precision minibatchSize breaks p := by
  unfold buildFor at success
  split at success
  case h_1 minibatchSize isSize =>
    obtain ⟨denotes, positive⟩ := of_minibatchSize?_eq_some isSize
    obtain ⟨breaks, p, built⟩ := of_build_eq_ok positive success
    exact ⟨minibatchSize, breaks, p, denotes, built⟩
  case h_2 => cases success

end MemoryLayout

end BatchGraph
