import BatchGraph.Proofs.Compile
import BatchGraph.Proofs.Readback

/-!
What a compilation refuses, and why.

A stage either refuses its input or succeeds and meets its contract, so the checks that follow the
planner and the ordering never fail.  The check of the layout compares values, and finds a layout
inconsistent only if the storage has moved some value too far; and lists become too long only for
the rows or the values of some signal (`compileGraph_fails`).  Both can happen to signals that their
declarations have accepted (`compileGraph_inconsistent`).
-/

namespace BatchGraph

/-! ## Dependencies -/

namespace DependencyGraph

variable {g : DependencyGraph} {ops : List Operator} {e : Error}

theorem kind_of_checkSingleWriter_eq_error {role : Role}
    (failure : checkSingleWriter role ops = .error e) : e.kind = .plain := by
  unfold checkSingleWriter at failure
  dsimp only at failure
  split at failure <;> cases failure
  rfl

theorem kind_of_derive_eq_error (failure : derive ops = .error e) : e.kind = .plain := by
  rcases Except.bind_eq_error_iff.1 failure with failure | ⟨_, -, failure⟩
  · exact kind_of_checkSingleWriter_eq_error failure
  rcases Except.bind_eq_error_iff.1 failure with failure | ⟨_, -, failure⟩
  · exact kind_of_checkSingleWriter_eq_error failure
  · cases failure

theorem kind_of_edges_eq_error (failure : g.edges ops = .error e) :
    e.kind = .plain ∨ e.kind = .cycle := by
  rcases Except.bind_eq_error_iff.1 failure with failure | ⟨_, -, failure⟩
  · obtain ⟨⟨op, successors⟩, -, failure⟩ := Except.exists_of_mapM_eq_error failure
    dsimp only at failure
    split at failure
    case h_1 =>
      cases failure
      exact .inl rfl
    case h_2 =>
      obtain ⟨successor, -, failure⟩ := Except.exists_of_mapM_eq_error failure
      split at failure
      case h_1 =>
        cases failure
        exact .inl rfl
      case h_2 =>
        split at failure <;> cases failure
        exact .inr rfl
  · cases failure

end DependencyGraph

namespace OperatorGraph

variable {ops : List Operator} {graph : DependencyGraph} {e : Error}

theorem kind_of_ofDependencies_eq_error (failure : ofDependencies ops (some graph) = .error e) :
    e.kind = .plain ∨ e.kind = .cycle := by
  unfold ofDependencies at failure
  split at failure
  case h_1 =>
    cases failure
    exact .inl rfl
  case h_2 =>
    rw [Option.elim_some, Except.ok_bind] at failure
    rcases Except.bind_eq_error_iff.1 failure with failure | ⟨edges, -, failure⟩
    · exact DependencyGraph.kind_of_edges_eq_error failure
    · cases failure

end OperatorGraph

/-! ## Plans -/

namespace Compile

variable {options : Options} {ops : List Operator} {graph : DependencyGraph} {e : Error}

theorem feasible_of_plan_eq_ok {planned : Plan} (success : plan options ops graph = .ok planned) :
    planned.Feasible ops graph ∧ ∀ group ∈ planned, group ≠ [] := by
  have isPlan := of_plan_eq_ok success
  obtain ⟨g, isGraph, -⟩ := Except.bind_eq_ok_iff.1 isPlan
  obtain ⟨distinct, isOver⟩ := OperatorGraph.of_ofDependencies_eq_ok isGraph
  exact options.planner.feasible_of_plan_eq_ok distinct isOver isPlan

/-- Planning refuses its input; what it makes passes the check. -/
theorem kind_of_plan_eq_error (failure : plan options ops graph = .error e) :
    e.kind = .plain ∨ e.kind = .cycle := by
  rcases Except.bind_eq_error_iff.1 failure with failure | ⟨planned, isPlan, failure⟩
  · rcases Except.bind_eq_error_iff.1 failure with failure | ⟨g, isGraph, failure⟩
    · exact OperatorGraph.kind_of_ofDependencies_eq_error failure
    · obtain ⟨distinct, isOver⟩ := OperatorGraph.of_ofDependencies_eq_ok isGraph
      obtain ⟨g', isGraph', represents⟩ := OperatorGraph.exists_represents distinct isOver
      cases isGraph.symm.trans isGraph'
      obtain ⟨stuck, rfl⟩ :=
        (Planner.schedule_planned represents.toWellFormed options.planner).fails e failure
      exact .inr rfl
  · obtain ⟨g, isGraph, -⟩ := Except.bind_eq_ok_iff.1 isPlan
    obtain ⟨distinct, isOver⟩ := OperatorGraph.of_ofDependencies_eq_ok isGraph
    obtain ⟨feasible, nonempty⟩ := options.planner.feasible_of_plan_eq_ok distinct isOver isPlan
    rw [Plan.check_eq_ok distinct isOver feasible nonempty] at failure
    split at failure <;> cases failure

end Compile

/-! ## Layouts -/

/-- A view is refused only where it has no values, however its size is rounded. -/
theorem Signal.kind_of_broadcast_eq_error {s : Signal} {e : Error} (isView : s.isView = true)
    (measured : s.Measured) (failure : broadcast s.initialValue s.size = .error e) :
    e.kind = .plain := by
  rcases measured.broadcast_eq isView with none | areValues
  · rw [none] at failure
    unfold broadcast at failure
    split at failure <;> cases failure
    rfl
  · cases failure.symm.trans areValues

namespace MemoryLayout

variable {layout : MemoryLayout} {signals : List Signal} {plan : Plan} {precision : Precision}
  {minibatchSize : Nat} {breaks : List Nat} {p : Packing} {e : Error}

/-- The values of a signal that has been laid out need no more space. -/
theorem HasRows.kind_of_broadcast_eq_error {s : Signal} {rows base : Rows} {i key : Nat}
    {a : PendingArray} (laid : layout.LaidOut signals plan precision minibatchSize breaks p)
    (has : HasRows precision minibatchSize p layout s rows i key a base)
    (measured : s.isView = true → s.Measured)
    (failure : broadcast s.initialValue s.size = .error e) : e.kind = .plain := by
  cases isView : s.isView with
  | true => exact Signal.kind_of_broadcast_eq_error isView (measured isView) failure
  | false =>
    obtain ⟨later, split⟩ := has.split
    have isMember : s.base ∈ Packing.members p.placed key := by
      rw [split]
      exact List.mem_append_right _ List.mem_cons_self
    obtain ⟨chunk, -, values, areValues, -⟩ : ∃ chunk ∈ a.chunks,
        Packing.IsChunk minibatchSize chunk s.base :=
      exists_partner (laid.packed.arrays key a has.array).chunks.flip isMember
    have initial : s.initialValue = s.base.initial.map some := by
      rw [Signal.eq_ofBase_of_not_isView isView]
      rfl
    have size : s.size = s.base.size := by
      rw [Signal.eq_ofBase_of_not_isView isView]
      rfl
    rw [initial, size, broadcast_map, areValues] at failure
    cases failure

/-- Gathered rows have all values of the rows that are picked. -/
theorem HasRows.length_gathered {s : Signal} {rows base : Rows} {i key : Nat} {a : PendingArray}
    (laid : layout.LaidOut signals plan precision minibatchSize breaks p)
    (has : HasRows precision minibatchSize p layout s rows i key a base) {picked : List Nat}
    (indices : rows.indices = picked.map fun r =>
      some (Number.count (Packing.rowsOf (Packing.members (p.placed.take i) key) + r)))
    (inside : ∀ r ∈ picked, r < s.base.rows) {actual : List (Option Number)}
    (gathered : rows.gather (a.toArray key minibatchSize) = .ok actual) :
    actual.length = picked.length * s.base.width * s.base.copies minibatchSize := by
  have sameKey : (a.toArray key minibatchSize).key.same rows.key = true := by
    rw [has.isKey]
    exact (Number.denotes_count key).same_self
  rw [(has.stores laid).gather_eq_ok sameKey indices inside] at gathered
  rw [← Except.ok.inj gathered, length_tile, List.length_map, Base.rowValues, List.length_map,
    Shape.length_rowPositions]

/-- What is gathered is too long only for a view that is itself too long. -/
theorem HasRows.long_of_gathered {s : Signal} {rows base : Rows} {i key : Nat} {a : PendingArray}
    (laid : layout.LaidOut signals plan precision minibatchSize breaks p)
    (has : HasRows precision minibatchSize p layout s rows i key a base)
    (measured : s.isView = true → s.Measured) {actual : List (Option Number)}
    (gathered : rows.gather (a.toArray key minibatchSize) = .ok actual)
    (long : 2 ^ 32 ≤ actual.length) :
    s.isView = true ∧ 2 ^ 32 ≤ s.elements.length * s.base.copies minibatchSize := by
  rcases has.rows_eq with ⟨-, rfl⟩ | ⟨isView, areRows⟩
  · have shows := has.base_shows laid
    obtain ⟨values, holds, few⟩ := has.exists_holds laid
    rw [holds.length_eq, s.base.prod_extents] at few
    rw [has.length_gathered laid shows.indices shows.inside gathered, List.length_range] at long
    exact absurd few (not_lt.2 long)
  · refine ⟨isView, ?_⟩
    rcases Signal.exists_addresses (measured isView) (has.sized laid) isView has.base_eq with
      ⟨e, refused, -⟩ | ⟨rows', picked, success, -, -, addresses⟩
    · cases refused.symm.trans areRows
    · cases success.symm.trans areRows
      rwa [has.length_gathered laid addresses.indices addresses.inside gathered,
        ← Shape.length_rowPositions, ← addresses.elements.length_eq] at long

/-- The check fails on inconsistencies, on a signal that has no values to compare with, or on a view
whose values cannot be listed. -/
theorem LaidOut.kind_of_check_eq_error
    (laid : layout.LaidOut signals plan precision minibatchSize breaks p)
    (measured : ∀ op ∈ plan.flatten, ∀ t ∈ op.allSignals, t.isView = true → t.Measured)
    (failure : layout.check = .error e) :
    e.kind = .plain ∨ e.kind = .inconsistent ∨
      e.kind = .capacity ∧ ∃ op ∈ plan.flatten, ∃ s ∈ op.allSignals,
        2 ^ 32 ≤ s.elements.length * s.base.copies minibatchSize := by
  obtain ⟨⟨s, rows⟩, entry, failure⟩ := Except.exists_of_forM_eq_error failure
  obtain ⟨i, key, a, base, has⟩ := laid.exists_hasRows entry
  have isMeasured := laid.measured measured entry
  unfold checkRows at failure
  dsimp only at failure
  split at failure
  case isTrue =>
    cases failure
    exact .inr (.inl rfl)
  case isFalse =>
    rw [has.found] at failure
    dsimp only at failure
    rcases Except.bind_eq_error_iff.1 failure with failure | ⟨actual, gathered, failure⟩
    · unfold Rows.gather at failure
      split at failure <;> cases failure
      exact .inl rfl
    rcases Except.bind_eq_error_iff.1 failure with failure | ⟨_, -, failure⟩
    · obtain ⟨capacity, long⟩ := of_checkLength_eq_error failure
      obtain ⟨isView, isLong⟩ := has.long_of_gathered laid isMeasured gathered long
      obtain ⟨op, isOp, isSignal⟩ := laid.mem_plan entry isView
      exact .inr (.inr ⟨capacity, op, isOp, s, isSignal, isLong⟩)
    rcases Except.bind_eq_error_iff.1 failure with failure | ⟨values, -, failure⟩
    · exact .inl (has.kind_of_broadcast_eq_error laid isMeasured failure)
    · split at failure
      case isTrue =>
        cases failure
        exact .inr (.inl rfl)
      case isFalse =>
        split at failure <;> cases failure
        exact .inr (.inl rfl)

/-- What the check has accepted is kept close. -/
theorem BuiltFrom.kept {s : Signal} {rows : Rows}
    (built : layout.BuiltFrom signals plan precision minibatchSize breaks p)
    (measured : ∀ op ∈ plan.flatten, ∀ t ∈ op.allSignals, t.isView = true → t.Measured)
    (found : layout.rows.lookup s = some rows) : s.Kept precision := by
  have entry := Assoc.mem_of_lookup found
  obtain ⟨i, key, a, base, has⟩ := built.exists_hasRows entry
  obtain ⟨storage, values, array, isStorage, areValues, -, -, isArray, gathered⟩ :=
    built.restores measured found
  obtain ⟨-, values', areValues', stored⟩ := has.gathered built entry
  cases areValues.symm.trans areValues'
  cases isArray.symm.trans has.found
  have read : rows.indices.flatMap (a.toArray key minibatchSize).row =
      (tile values (layout.copies s)).map (Option.map storage.store) := by
    unfold Rows.gather at gathered
    split at gathered
    case isTrue => cases gathered
    case isFalse => rw [Except.ok.inj gathered, tile_map]
  rw [read, List.forall₂_map_right_iff, List.forall₂_same] at stored
  intro given areGiven v member
  cases areValues.symm.trans areGiven
  have close := stored v (built.mem_tile s member)
  cases v with
  | none => cases close
  | some value =>
    refine ⟨value, rfl, fun storage' isStored => ?_⟩
    rw [isStorage] at isStored
    cases isStored
    exact close

end MemoryLayout

/-! ## The whole compilation -/

/-- What the stages before the layout have made of some operators. -/
structure Compile.Ordered (ops : List Operator) (ordered : SignalOrder) : Prop where
  distinct : ordered.signals.Nodup
  slotted : ordered.plan.Slotted ordered.signals
  mem_signals : ∀ s, s ∈ ordered.signals ↔ ∃ op ∈ ops, ∃ t ∈ op.allSignals, t.root = s
  mem_plan : ∀ op, op ∈ ordered.plan.flatten ↔ op ∈ ops

/-- Whatever can be planned can be ordered. -/
theorem Compile.exists_ordered {options : Options} {ops : List Operator} {graph : DependencyGraph}
    {planned : Plan} (built : ∀ op ∈ ops, op.Built)
    (isPlan : plan options ops graph = .ok planned) :
    ∃ ordered, order options planned = .ok ordered ∧ Ordered ops ordered := by
  obtain ⟨feasible, nonempty⟩ := feasible_of_plan_eq_ok isPlan
  obtain ⟨ordered, isOrder, perm, same⟩ := exists_order options (feasible.alike built)
  have feasible' := feasible.regroup same
  have mem_signals (s : Signal) :
      s ∈ ordered.signals ↔ ∃ op ∈ ops, ∃ t ∈ op.allSignals, t.root = s := by
    rw [perm.mem_iff, Plan.mem_bases]
    exact exists_congr fun op => and_congr_left fun _ => feasible.complete.mem_iff
  refine ⟨ordered, isOrder, perm.nodup_iff.2 (Distinct.nodup_eraseDups _), ?_, mem_signals,
    fun op => feasible'.complete.mem_iff⟩
  exact feasible'.slotted (Plan.nonempty_of_sameGroups nonempty same) fun op isOp s isSignal =>
    (mem_signals _).2 ⟨op, isOp, s, isSignal, rfl⟩

namespace Compile.Ordered

open MemoryLayout

variable {options : Options} {ops : List Operator} {ordered : SignalOrder}

/-- The conditions on the signals of the operators are met by what is laid out. -/
theorem roomy {m : Nat} (known : Ordered ops ordered)
    (roomy : Packing.Roomy options.precision m
      (ops.flatMap fun op => op.allSignals.map Signal.root).eraseDups) :
    Packing.Roomy options.precision m ordered.signals := by
  refine roomy.of_perm ((List.perm_ext_iff_of_nodup known.distinct
    (Distinct.nodup_eraseDups _)).2 fun s => ?_)
  simp only [known.mem_signals, List.mem_eraseDups, List.mem_flatMap, List.mem_map]

theorem measured (known : Ordered ops ordered)
    (measured : ∀ op ∈ ops, ∀ s ∈ op.allSignals, s.isView = true → s.Measured) :
    ∀ op ∈ ordered.plan.flatten, ∀ s ∈ op.allSignals, s.isView = true → s.Measured :=
  fun op isOp => measured op ((known.mem_plan op).1 isOp)

theorem kind_of_layout_eq_error {e : Error} (known : Ordered ops ordered)
    (roomy : ∀ m, options.minibatchSize.Denotes m → Packing.Roomy options.precision m
      (ops.flatMap fun op => op.allSignals.map Signal.root).eraseDups)
    (measured : ∀ op ∈ ops, ∀ s ∈ op.allSignals, s.isView = true → s.Measured)
    (failure : layout options ordered = .error e) :
    e.kind = .plain ∨ e.kind = .unsupported ∨
      e.kind = .capacity ∧ (∃ m, options.minibatchSize.Denotes m ∧
        ∃ op ∈ ops, ∃ s ∈ op.allSignals, ¬ s.Listable m) ∨
      e.kind = .inconsistent ∧ ∃ op ∈ ops, ∃ s ∈ op.allSignals,
        ¬ (s.Kept options.precision ∧ s.root.Kept options.precision) := by
  have measured' := known.measured measured
  rcases of_buildFor_eq_error failure with uncut | plain | unsupported |
    ⟨capacity, m, denotes, ⟨s, member, long⟩ | crowded⟩ | ⟨found, m, breaks, p, denotes, laid, failed⟩
  · obtain ⟨breaks, cut⟩ := Partition.exists_breaks known.slotted.aligned
    cases uncut.symm.trans cut
  · exact .inl plain
  · exact .inr (.inl unsupported)
  · obtain ⟨op, isOp, t, isSignal, rfl⟩ := (known.mem_signals s).1 member
    exact .inr (.inr (.inl ⟨capacity, m, denotes, op, isOp, t, isSignal,
      fun listable => long listable.base⟩))
  · exact absurd (known.roomy (roomy m denotes)) crowded
  · rcases laid.kind_of_check_eq_error measured' failed with
      plain | kind | ⟨capacity, op, isOp, s, isSignal, long⟩
    · exact .inl plain
    · refine .inr (.inr (.inr ⟨kind, ?_⟩))
      by_contra none
      have kept (op : Operator) (isOp : op ∈ ops) (s : Signal) (isSignal : s ∈ op.allSignals) :
          s.Kept options.precision ∧ s.root.Kept options.precision :=
        by_contra fun lost => none ⟨op, isOp, s, isSignal, lost⟩
      have covered : ∀ s, Covers ordered.signals ordered.plan s → s.Kept options.precision := by
        rintro s (isBase | ⟨-, op, isOp, isSignal⟩)
        · obtain ⟨op, isOp, t, isSignal, rfl⟩ := (known.mem_signals s).1 isBase
          exact (kept op isOp t isSignal).2
        · exact (kept op ((known.mem_plan op).1 isOp) s isSignal).1
      cases (laid.kind_of_check_eq_error_of_kept measured' covered failed).symm.trans kind
    · exact .inr (.inr (.inl ⟨capacity, m, denotes, op, (known.mem_plan op).1 isOp, s, isSignal,
        fun listable => not_lt.2 long listable.fits⟩))

theorem kept_of_layout_eq_ok {found : MemoryLayout} (known : Ordered ops ordered)
    (measured : ∀ op ∈ ops, ∀ s ∈ op.allSignals, s.isView = true → s.Measured)
    (success : layout options ordered = .ok found) :
    ∀ op ∈ ops, ∀ s ∈ op.allSignals,
      s.Kept options.precision ∧ s.root.Kept options.precision := by
  obtain ⟨m, breaks, p, denotes, built⟩ := of_buildFor_eq_ok success
  intro op isOp s isSignal
  have inPlan := (known.mem_plan op).2 isOp
  have isBase := (known.mem_signals s.root).2 ⟨op, isOp, s, isSignal, rfl⟩
  have kept (t : Signal) (entered : ∃ rows, found.rows.lookup t = some rows) :
      t.Kept options.precision := by
    obtain ⟨rows, isEntry⟩ := entered
    exact built.kept (known.measured measured) isEntry
  exact ⟨kept s (built.exists_entry inPlan isSignal isBase),
    kept s.root (built.exists_rows_iff.2 (.inl isBase))⟩

end Compile.Ordered

/-- Planning and ordering refuse their inputs, and storing refuses signals that it does not support
or that lists cannot hold, minibatch included.  An inconsistency is found only if the storage does
not keep the values of some signal, and what has been compiled is kept. -/
theorem compileGraph_fails {env : Environment} {settings : Settings} {options : Options}
    {ops : List Operator} {graph? : Option DependencyGraph} (selects : settings.Selects env options)
    (built : ∀ op ∈ ops, op.Built)
    (roomy : ∀ m, options.minibatchSize.Denotes m → Packing.Roomy options.precision m
      (ops.flatMap fun op => op.allSignals.map Signal.root).eraseDups)
    (measured : ∀ op ∈ ops, ∀ s ∈ op.allSignals, s.isView = true → s.Measured) :
    (∀ e, compileGraph env settings ops graph? = .error e →
      e.kind = .plain ∨ e.kind = .cycle ∨ e.kind = .unsupported ∨
        e.kind = .capacity ∧ (∃ m, options.minibatchSize.Denotes m ∧
          ∃ op ∈ ops, ∃ s ∈ op.allSignals, ¬ s.Listable m) ∨
        e.kind = .inconsistent ∧ ∃ op ∈ ops, ∃ s ∈ op.allSignals,
          ¬ (s.Kept options.precision ∧ s.root.Kept options.precision)) ∧
    ∀ compiled, compileGraph env settings ops graph? = .ok compiled →
      ∀ op ∈ ops, ∀ s ∈ op.allSignals, s.Kept options.precision ∧ s.root.Kept options.precision := by
  rw [compileGraph, Options.resolve_eq_ok selects, Except.ok_bind]
  constructor
  case left =>
    intro e failure
    rcases Except.bind_eq_error_iff.1 failure with failure | ⟨graph, -, failure⟩
    · cases graph? with
      | none => exact .inl (DependencyGraph.kind_of_derive_eq_error failure)
      | some graph => cases failure
    rcases Except.bind_eq_error_iff.1 failure with failure | ⟨planned, isPlan, failure⟩
    · exact (Compile.kind_of_plan_eq_error failure).imp_right .inl
    obtain ⟨ordered, isOrder, known⟩ := Compile.exists_ordered built isPlan
    rw [isOrder, Except.ok_bind] at failure
    rcases Except.bind_eq_error_iff.1 failure with failure | ⟨layout, -, failure⟩
    · rcases known.kind_of_layout_eq_error roomy measured failure with
        plain | unsupported | long | inconsistent
      · exact .inl plain
      · exact .inr (.inr (.inl unsupported))
      · exact .inr (.inr (.inr (.inl long)))
      · exact .inr (.inr (.inr (.inr inconsistent)))
    · cases failure
  case right =>
    intro compiled success
    obtain ⟨graph, -, success⟩ := Except.bind_eq_ok_iff.1 success
    obtain ⟨planned, isPlan, success⟩ := Except.bind_eq_ok_iff.1 success
    obtain ⟨ordered, isOrder, known⟩ := Compile.exists_ordered built isPlan
    rw [isOrder, Except.ok_bind] at success
    obtain ⟨layout, isLayout, -⟩ := Except.bind_eq_ok_iff.1 success
    exact known.kept_of_layout_eq_ok measured isLayout

namespace Compile

/-- A number that takes more than 32 bits, of a type that has it. -/
def wide : Signal :=
  .ofBase ⟨0, "wide", .int64, [1], [Number.ofNat (2 ^ 31)], false, false, by decide +kernel,
    .inl rfl⟩

/-- A number beyond all numbers of single precision. -/
def large : Signal :=
  .ofBase ⟨0, "large", .float64, [1], [Number.ofNat (10 ^ 39)], false, false, by decide +kernel,
    .inl rfl⟩

def ramp : Base :=
  ⟨0, "ramp", .float32, [4], [1, 2, 3, 4], false, false, by decide +kernel, .inr (by decide +kernel)⟩

def minusTwo : Number := Number.ofInt (-2)

/-- As many elements as the ramp has, all of which are its first. -/
def mirrored : Signal :=
  ⟨ramp, some ⟨1, "mirrored", ⟨[minusTwo, minusTwo], 0, [minusTwo, 1]⟩, rfl⟩, by decide +kernel⟩

/-- Signals that are declared, settings under which they cannot be compiled, and why. -/
def refused : List (Signal × Settings × ErrorKind) :=
  [(wide, {}, .inconsistent), (large, {}, .inconsistent), (mirrored, {}, .inconsistent),
    (ranks, {}, .capacity), (sample, flood, .capacity)]

theorem exists_of_refused : ∀ entry ∈ refused,
    ∃ e, compileGraph {} entry.2.1 [reader entry.1] none = .error e ∧ e.kind = entry.2.2 := by
  have failed : ∀ entry ∈ refused,
      (match compileGraph {} entry.2.1 [reader entry.1] none with
        | .error e => decide (e.kind = entry.2.2)
        | .ok _ => false) = true := by decide +kernel
  intro entry member
  have fails := failed entry member
  split at fails
  case h_1 e isError => exact ⟨e, isError, of_decide_eq_true fails⟩
  case h_2 => cases fails

end Compile

open Compile

/-- Declarations accept signals that storing does not keep, and a view for which there are no rows;
compiling them fails at the check of the layout.  They also accept signals that lists cannot hold. -/
theorem compileGraph_inconsistent :
    Signal.declare 0 "wide" { dtype := .int64, initial := [Number.ofNat (2 ^ 31)] } = .ok wide ∧
    Signal.declare 0 "large" { initial := [Number.ofNat (10 ^ 39)] } = .ok large ∧
    (Signal.ofBase ramp).view 1 [minusTwo, minusTwo] 0 none (some "mirrored") = .ok mirrored ∧
    ∀ entry ∈ refused, (reader entry.1).Built ∧
      ∃ e, compileGraph {} entry.2.1 [reader entry.1] none = .error e ∧ e.kind = entry.2.2 :=
  ⟨by decide +kernel, by decide +kernel, by decide +kernel, fun entry member =>
    ⟨.func 2 false [] [] [entry.1] [] none, exists_of_refused entry member⟩⟩

/-- The number that takes more than 32 bits is not kept. -/
theorem compileGraph_fails_wide :
    ({} : Settings).Selects {} defaults ∧ (∀ op ∈ [reader wide], op.Built) ∧
    (∀ m, defaults.minibatchSize.Denotes m → Packing.Roomy .single m [wide]) ∧
    (∀ op ∈ [reader wide], ∀ s ∈ op.allSignals, s.isView = true → s.Measured) ∧
    ∃ op ∈ [reader wide], ∃ s ∈ op.allSignals, ¬ (s.Kept .single ∧ s.root.Kept .single) := by
  have built : ∀ op ∈ [reader wide], op.Built := by
    intro op isReader
    rw [List.mem_singleton.1 isReader]
    exact .func 2 false [] [] [wide] [] none
  have roomy : ∀ m, defaults.minibatchSize.Denotes m → Packing.Roomy .single m [wide] := by
    intro m isSize kind
    rw [isSize.unique Number.denotes_one, List.filter_singleton]
    cases decide (Packing.class? .single wide = .ok kind) <;> decide +kernel
  have measured : ∀ op ∈ [reader wide], ∀ s ∈ op.allSignals, s.isView = true → s.Measured := by
    intro op isReader s isSignal isView
    rw [List.mem_singleton.1 isReader] at isSignal
    rw [List.mem_singleton.1 isSignal] at isView
    cases isView
  refine ⟨selects_defaults, built, roomy, measured, ?_⟩
  obtain ⟨e, isError, kind⟩ := exists_of_refused (wide, {}, .inconsistent) List.mem_cons_self
  rcases (compileGraph_fails selects_defaults built roomy measured).1 e isError with
    plain | cycle | unsupported | ⟨capacity, -⟩ | ⟨-, lost⟩
  · cases plain.symm.trans kind
  · cases cycle.symm.trans kind
  · cases unsupported.symm.trans kind
  · cases capacity.symm.trans kind
  · exact lost

end BatchGraph
