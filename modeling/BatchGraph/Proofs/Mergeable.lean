import BatchGraph.Proofs.Merge
import BatchGraph.Proofs.Signal

/-!
Being mergeable is a partial equivalence, so the first member of a group stands for all of it.

Symmetry and transitivity hold without exception.  An operator is mergeable with itself unless it is
a node, or some extent that is compared is `nan`, which differs from itself
(`mergeablePair_self_iff`).  Views accept such extents, and so do slices between infinite bounds
(`mergeable_irreflexive`); they do not come about otherwise: the extents of a base are natural
numbers, a reshaped signal has a size, and rows between finite bounds can be counted, however large
the bounds (`Declared.nan_not_mem`).
-/

namespace BatchGraph

/-! ## Numbers that differ from themselves -/

namespace Number

theorem same_self_iff {x : Number} : x.same x = true ↔ x ≠ nan := by
  cases x with
  | nan => simp [same, le]
  | infinity negative => cases negative <;> simp [same, le]
  | negativeZero => simp [same, le]
  | finite q => simp [same, le]

/-- Rounding always gives a number. -/
theorem ofRat_ne_nan (q : Rat) : ofRat q ≠ nan := by
  unfold ofRat Format.round
  dsimp only
  repeat' split
  all_goals exact Number.noConfusion

theorem sub_ne_nan {x y : Number} {p q : Rat} (hx : x.value? = some p) (hy : y.value? = some q) :
    x - y ≠ nan := by
  change x + y.neg ≠ nan
  rcases add_eq hx (value?_neg hy) with sum | ⟨sum, -⟩
  · exact sum ▸ ofRat_ne_nan _
  · exact sum ▸ Number.noConfusion

theorem div_ne_nan {x y : Number} {q : Rat} (hx : x ≠ nan) (hy : y.value? = some q)
    (positive : 0 < q) : x / y ≠ nan := by
  obtain rfl : y = finite q := by
    cases y with
    | nan => cases hy
    | infinity negative => cases hy
    | negativeZero => exact absurd (Option.some.inj hy) positive.ne
    | finite p => rw [Option.some.inj hy]
  have notZero : ¬ (finite q).isZero = true := by simpa [isZero, value?] using positive.ne'
  have zero_ne_nan (negative : Bool) : zero negative ≠ nan := by
    cases negative <;> exact Number.noConfusion
  change Number.div x (finite q) ≠ nan
  cases x with
  | nan => exact absurd rfl hx
  | infinity negative => exact Number.noConfusion
  | negativeZero =>
    simp only [Number.div, if_neg notZero]
    exact zero_ne_nan _
  | finite p =>
    simp only [Number.div, if_neg notZero]
    split
    · exact zero_ne_nan _
    · exact ofRat_ne_nan _

theorem ceil_ne_nan {x : Number} (hx : x ≠ nan) : x.ceil ≠ nan := by
  unfold ceil
  split
  · split <;> exact Number.noConfusion
  · exact hx

theorem max_ne_nan {x y : Number} (hx : x ≠ nan) (hy : y ≠ nan) : Number.max x y ≠ nan := by
  unfold Number.max
  repeat' split
  all_goals assumption

end Number

theorem Shape.same_self_iff {shape : List Number} : same shape shape = true ↔ .nan ∉ shape := by
  rw [same_iff, List.forall₂_same]
  simp only [Number.same_self_iff]
  exact ⟨fun all member => all _ member rfl, fun none x member same => none (same ▸ member)⟩

theorem Shape.foldl_mul_eq_nan {shape : List Number} {count : Number}
    (undefined : count = .nan ∨ .nan ∈ shape) : shape.foldl (· * ·) count = .nan := by
  induction shape generalizing count with
  | nil => simpa using undefined
  | cons extent inner ih =>
    refine ih ?_
    rcases undefined with rfl | member
    · exact .inl (Number.nan_mul extent)
    · rcases List.mem_cons.1 member with rfl | later
      · exact .inl ((Number.mul_comm count .nan).trans (Number.nan_mul count))
      · exact .inr later

/-- Only shapes without undefined extents have a size. -/
theorem Shape.nan_not_mem_of_size {shape : List Number} {x : Number}
    (sized : (size shape).same x = true) : .nan ∉ shape := by
  intro member
  rw [size, Shape.foldl_mul_eq_nan (.inr member)] at sized
  cases sized

/-! ## Declared signals -/

namespace Signal

/-- A slice with finite bounds has a number of rows. -/
theorem sliceCount_ne_nan {start stop step : Number} {p q r : Rat} (isStart : start.value? = some p)
    (isStop : stop.value? = some q) (isStep : step.value? = some r) (positive : 0 < r) :
    sliceCount start stop step ≠ .nan := by
  have rows := Number.div_ne_nan (Number.sub_ne_nan isStop isStart) isStep positive
  exact Number.max_ne_nan (by decide) (Number.ceil_ne_nan rows)

/-- Bases, and the views that are made of them: with extents that are numbers, under any shape of the
same size, or by rows between finite bounds. -/
inductive Declared : Signal → Prop
  | base (b : Base) : Declared (ofBase b)
  | view {s t : Signal} {id : Nat} {shape : List Number} {offset : Number}
      {strides? : Option (List Number)} {name? : Option String} (declared : Declared s)
      (numbers : .nan ∉ shape) (made : s.view id shape offset strides? name? = .ok t) : Declared t
  | reshape {s t : Signal} {id : Nat} {shape : List Number} {name? : Option String}
      (declared : Declared s) (made : s.reshape id shape name? = .ok t) : Declared t
  | slice {s t : Signal} {id : Nat} {start stop step : Number} {p q r : Rat}
      {name? : Option String} (declared : Declared s) (isStart : start.value? = some p)
      (isStop : stop.value? = some q) (isStep : step.value? = some r)
      (made : s.slice id start stop step name? = .ok t) : Declared t

theorem nan_not_mem_base (b : Base) : .nan ∉ b.shape := by
  intro member
  have natural := List.all_eq_true.1 b.natural_extents .nan member
  cases natural

/-- The extents of a declared signal are numbers. -/
theorem Declared.nan_not_mem {s : Signal} (declared : s.Declared) : .nan ∉ s.shape := by
  induction declared with
  | base b => exact nan_not_mem_base b
  | view _ numbers made _ =>
    unfold Signal.view at made
    split at made
    · cases made
    · rwa [Signal.shape, (Base.view_eq_ok made).2.1]
  | reshape _ made _ =>
    unfold Signal.reshape at made
    split at made
    · cases made
    · rename_i sized
      split at made
      · cases made
      · rw [Signal.shape, (Base.view_eq_ok made).2.1]
        exact Shape.nan_not_mem_of_size (by simpa using sized)
  | @slice s t id start stop step p q r name? declared isStart isStop isStep made ih =>
    unfold Signal.slice at made
    split at made
    case h_1 leading inner stride strides shape _ =>
      split at made
      · cases made
      · rename_i positive
        have zero : (0 : Number).value? = some 0 := by decide
        rw [Number.le_eq_decide isStep zero, decide_eq_true_eq, not_le] at positive
        rw [shape, List.mem_cons, not_or] at ih
        rw [Signal.shape, (Base.view_eq_ok made).2.1, List.mem_cons, not_or]
        exact ⟨(sliceCount_ne_nan isStart isStop isStep positive).symm, ih.2⟩
    case h_2 => cases made

theorem compatible_self_iff {s : Signal} : s.compatible s = true ↔ .nan ∉ Shape.tail s.shape := by
  have whole : .nan ∉ Shape.tail s.base.shape :=
    fun member => nan_not_mem_base s.base (List.mem_of_mem_drop member)
  simp only [compatible_iff, Shape.same_self_iff, true_and, and_true]
  exact ⟨fun both => both.2, fun own => ⟨whole, own⟩⟩

end Signal

/-! ## Operators -/

/-- All extents of the operator that are compared are numbers; the leading ones are compared for
elementwise products only. -/
def Operator.Measured (op : Operator) : Prop :=
  ∀ s ∈ op.allSignals, .nan ∉ Shape.tail s.shape ∧
    (op.action = .elementwise → Shape.leading s.shape ≠ .nan)

theorem Operator.measured_of_declared {op : Operator}
    (declared : ∀ s ∈ op.allSignals, s.Declared) : op.Measured := by
  intro s member
  have numbers := (declared s member).nan_not_mem
  refine ⟨fun isExtent => numbers (List.mem_of_mem_drop isExtent), fun _ => ?_⟩
  unfold Shape.leading
  split
  case h_1 => decide
  case h_2 extent inner shape =>
    rw [shape] at numbers
    exact fun same => numbers (same ▸ List.mem_cons_self)

theorem Operator.matches_self_iff {op : Operator} :
    op.Matches op ↔ ∀ s ∈ op.allSignals, .nan ∉ Shape.tail s.shape := by
  constructor
  · intro matched s member
    exact Signal.compatible_self_iff.1 (List.forall₂_same.1 matched.signals s member)
  · intro numbers
    exact ⟨rfl, fun _ => rfl, List.forall₂_same.2 fun s member =>
      Signal.compatible_self_iff.2 (numbers s member)⟩

theorem sameProcess_self (type : String) : sameProcess type type = true := by
  unfold sameProcess
  split <;> simp_all

/-- Only nodes refuse their own action, and elementwise products without leading extents. -/
theorem mergeableActions_self_iff {op : Operator} :
    mergeableActions op op = true ↔ op.action ≠ .node ∧
      (op.action = .elementwise → ∀ s ∈ op.allSignals, Shape.leading s.shape ≠ .nan) := by
  unfold mergeableActions
  cases op.action with
  | elementwise =>
    simp only [sameLeading_iff, List.forall₂_same, Number.same_self_iff]
    simp
  | process type mode => simp [sameProcess_self]
  | _ => simp

theorem mergeablePair_self_iff {op : Operator} :
    mergeablePair op op = true ↔ op.action ≠ .node ∧ op.Measured := by
  rw [mergeablePair_iff, Operator.matches_self_iff, mergeableActions_self_iff]
  unfold Operator.Measured
  grind

/-! ## A partial equivalence -/

/-- Mergeable operators are classes of a symmetric and transitive relation, which is reflexive on all
operators of declared signals but nodes.  So an operator can join a group of mergeable ones if and
only if it is mergeable with each of them. -/
theorem mergeable_equivalence :
    (∀ a b, mergeable a [b] = mergeable b [a]) ∧
    (∀ a b c, mergeable a [b] = true → mergeable b [c] = true → mergeable a [c] = true) ∧
    (∀ a, mergeable a [a] = true ↔ a.action ≠ .node ∧ a.Measured) ∧
    (∀ a : Operator, (∀ s ∈ a.allSignals, s.Declared) →
      (mergeable a [a] = true ↔ a.action ≠ .node)) ∧
    ∀ op group, group ≠ [] →
      (∀ a ∈ group, ∀ b ∈ group, a ≠ b → mergeable a [b] = true) →
      (mergeable op group = true ↔ ∀ member ∈ group, mergeable op [member] = true) := by
  refine ⟨mergeablePair_comm, fun a b c => mergeablePair_trans, fun a => mergeablePair_self_iff,
    fun a declared => ?_, fun op group nonempty members => ?_⟩
  · exact mergeablePair_self_iff.trans
      ⟨fun both => both.1, fun action => ⟨action, Operator.measured_of_declared declared⟩⟩
  · obtain ⟨first, rest, rfl⟩ := List.exists_cons_of_ne_nil nonempty
    constructor
    · intro joins member isMember
      by_cases same : first = member
      · exact same ▸ joins
      · exact mergeablePair_trans joins (members first List.mem_cons_self member isMember same)
    · exact fun all => all first List.mem_cons_self

/-- A single number in memory. -/
def tally : Base :=
  ⟨0, "tally", .float32, [1], [0], false, false, Base.natural_extents_one, Base.initial_length_one⟩

/-- Resets of one number by different identities. -/
def clear (id : Nat) : Operator := .reset id (.ofBase tally) 0 none

theorem mergeable_equivalence_clear :
    mergeable (clear 0) [clear 0] = true ∧
      (mergeable (clear 0) [clear 1, clear 2] = true ↔
        ∀ member ∈ [clear 1, clear 2], mergeable (clear 0) [member] = true) := by
  obtain ⟨-, -, -, reflexive, group⟩ := mergeable_equivalence
  refine ⟨(reflexive (clear 0) ?_).2 (by decide), group (clear 0) _ (by decide) ?_⟩
  · exact List.forall_mem_singleton.2 (.base tally)
  · decide +kernel

/-- A view with an extent that is no number, and so without elements. -/
def blank : Signal :=
  ⟨tally, some ⟨1, "blank", ⟨[2, .nan], 0, [.nan, 1]⟩, rfl⟩, by decide +kernel⟩

/-- The rows between two infinite bounds, of which there is no number. -/
def nowhere : Signal :=
  ⟨tally, some ⟨2, "nowhere", ⟨[.nan], .infinity false, [1]⟩, rfl⟩, by decide +kernel⟩

/-- Extents that are no numbers are accepted, and keep operators from merging with themselves. -/
theorem mergeable_irreflexive :
    (Signal.ofBase tally).view 1 [2, .nan] 0 none (some "blank") = .ok blank ∧
    (Signal.ofBase tally).slice 2 (.infinity false) (.infinity false) 1 (some "nowhere") =
      .ok nowhere ∧
    ∀ op ∈ [Operator.func 3 false [] [] [blank] [] none,
        Operator.elementwise 3 nowhere (.ofBase tally) (.ofBase tally) none],
      op.action ≠ .node ∧ mergeable op [op] = false := by
  decide +kernel

end BatchGraph
