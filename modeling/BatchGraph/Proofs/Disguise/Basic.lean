import BatchGraph.Merge
import BatchGraph.Proofs.Distinct

/-!
Signals and operators under other values, names and labels.

What is left of a signal without its initial values and its name is `Signal.bare`: identities,
element types, flags and the geometry of bases and views.  A `Disguise` gives every signal other
values and another name, and every operator another label, so that what is bare stays the same and
nothing that was different becomes equal.  Whatever reads signals only by their geometry, and tells
them apart only by equality, commutes with it.
-/

namespace BatchGraph

/-! ## What values and names leave -/

/-- The base without its initial values and its name. -/
def Base.bare (b : Base) : Base := { b with name := "", initial := [0], initial_length := .inl rfl }

/-- The view without its name. -/
def View.bare (v : View) : View := { v with name := "" }

/-- The signal without values and names. -/
def Signal.bare (s : Signal) : Signal where
  base := s.base.bare
  view? := s.view?.map View.bare
  inside := by
    intro v isView i member
    obtain ⟨w, isThere, rfl⟩ := Option.map_eq_some_iff.1 isView
    exact s.inside w isThere i member

/-- The action on other signals. -/
def Action.map (f : Signal → Signal) : Action → Action
  | .neurons neuronType states => .neurons neuronType (states.map f)
  | action => action

namespace Operator

/-- The operator on other signals. -/
def map (f : Signal → Signal) (op : Operator) : Operator where
  id := op.id
  action := op.action.map f
  sets := op.sets.map f
  incs := op.incs.map f
  reads := op.reads.map f
  updates := op.updates.map f
  label := op.label

def unlabelled (op : Operator) : Operator := { op with label := none }

/-- The operator without its label, and without the values and names of its signals. -/
def bare (op : Operator) : Operator := (op.map Signal.bare).unlabelled

theorem map_injective {f : Signal → Signal} (injective : Function.Injective f) :
    Function.Injective (map f) := by
  intro a b same
  have lists {xs ys : List Signal} : xs.map f = ys.map f ↔ xs = ys :=
    (List.map_injective_iff.2 injective).eq_iff
  obtain ⟨id, action, sets, incs, reads, updates, label⟩ := a
  obtain ⟨id', action', sets', incs', reads', updates', label'⟩ := b
  simp only [map, mk.injEq, lists] at same
  obtain ⟨rfl, actions, rfl, rfl, rfl, rfl, rfl⟩ := same
  cases action <;> cases action' <;> simp_all [Action.map]

end Operator

/-! ## Disguises -/

/-- Other values and names for bases, other names for views and other labels for operators. -/
structure Disguise where
  base : Base → Base
  view : View → View
  relabel : Operator → Operator
  bare_base : ∀ b, (base b).bare = b.bare
  bare_view : ∀ v, (view v).bare = v.bare
  unlabelled : ∀ op, (relabel op).unlabelled = op.unlabelled
  base_injective : Function.Injective base
  view_injective : Function.Injective view
  relabel_injective : Function.Injective relabel

namespace Disguise

variable (d : Disguise)

/-! ### Bases and views -/

@[simp] theorem shape_base (b : Base) : (d.base b).shape = b.shape :=
  (congrArg Base.shape (d.bare_base b) :)

@[simp] theorem dtype_base (b : Base) : (d.base b).dtype = b.dtype :=
  (congrArg Base.dtype (d.bare_base b) :)

@[simp] theorem trainable_base (b : Base) : (d.base b).trainable = b.trainable :=
  (congrArg Base.trainable (d.bare_base b) :)

@[simp] theorem minibatched_base (b : Base) : (d.base b).minibatched = b.minibatched :=
  (congrArg Base.minibatched (d.bare_base b) :)

@[simp] theorem size_base (b : Base) : (d.base b).size = b.size := by simp [Base.size]

@[simp] theorem region_view (v : View) : (d.view v).region = v.region :=
  (congrArg View.region (d.bare_view v) :)

/-! ### Signals -/

def signal (s : Signal) : Signal where
  base := d.base s.base
  view? := s.view?.map d.view
  inside := by
    intro v isView i member
    obtain ⟨w, isThere, rfl⟩ := Option.map_eq_some_iff.1 isView
    rw [region_view] at member
    have inside := s.inside w isThere i member
    rwa [Base.excludes, ← d.size_base] at inside

theorem signal_injective : Function.Injective d.signal := by
  intro s t same
  obtain ⟨base, view?, inside⟩ := s
  obtain ⟨base', view?', inside'⟩ := t
  rw [signal, signal, Signal.mk.injEq, d.base_injective.eq_iff,
    (Option.map_injective d.view_injective).eq_iff] at same
  obtain ⟨rfl, rfl⟩ := same
  rfl

@[simp] theorem base_signal (s : Signal) : (d.signal s).base = d.base s.base := rfl

@[simp] theorem root_signal (s : Signal) : (d.signal s).root = d.signal s.root := rfl

@[simp] theorem isView_signal (s : Signal) : (d.signal s).isView = s.isView := by
  simp [Signal.isView, signal]

@[simp] theorem dtype_signal (s : Signal) : (d.signal s).dtype = s.dtype := d.dtype_base s.base

@[simp] theorem trainable_signal (s : Signal) : (d.signal s).trainable = s.trainable :=
  d.trainable_base s.base

@[simp] theorem minibatched_signal (s : Signal) : (d.signal s).minibatched = s.minibatched :=
  d.minibatched_base s.base

@[simp] theorem region_signal (s : Signal) : (d.signal s).region = s.region := by
  obtain ⟨base, view?, inside⟩ := s
  cases view? with
  | none => exact congrArg Region.whole (d.shape_base base)
  | some v => exact d.region_view v

@[simp] theorem shape_signal (s : Signal) : (d.signal s).shape = s.shape :=
  congrArg Region.shape (d.region_signal s)

@[simp] theorem offset_signal (s : Signal) : (d.signal s).offset = s.offset :=
  congrArg Region.offset (d.region_signal s)

@[simp] theorem strides_signal (s : Signal) : (d.signal s).strides = s.strides :=
  congrArg Region.strides (d.region_signal s)

@[simp] theorem size_signal (s : Signal) : (d.signal s).size = s.size :=
  congrArg Region.size (d.region_signal s)

@[simp] theorem elements_signal (s : Signal) : (d.signal s).elements = s.elements :=
  congrArg Region.elements (d.region_signal s)

theorem mayShareMemory_signal (s t : Signal) :
    (d.signal s).mayShareMemory (d.signal t) = s.mayShareMemory t := by
  simp [Signal.mayShareMemory, d.base_injective.eq_iff]

theorem compatible_signal (s t : Signal) :
    (d.signal s).compatible (d.signal t) = s.compatible t := by
  simp [Signal.compatible]

theorem bare_signal (s : Signal) : (d.signal s).bare = s.bare := by
  obtain ⟨base, view?, inside⟩ := s
  simp only [Signal.bare, signal, Signal.mk.injEq, d.bare_base, Option.map_map, true_and]
  exact congrArg (Option.map · view?) (funext d.bare_view)

/-! ### Operators -/

def operator (op : Operator) : Operator := d.relabel (op.map d.signal)

theorem operator_injective : Function.Injective d.operator :=
  d.relabel_injective.comp (Operator.map_injective d.signal_injective)

theorem unlabelled_operator (op : Operator) :
    (d.operator op).unlabelled = (op.map d.signal).unlabelled := d.unlabelled _

theorem bare_operator (op : Operator) : (d.operator op).bare = op.bare := by
  have same := congrArg (Operator.map Signal.bare) (d.unlabelled_operator op)
  have actions : (op.action.map d.signal).map Signal.bare = op.action.map Signal.bare := by
    cases op.action <;> simp [Action.map, Function.comp_def, d.bare_signal]
  refine same.trans ?_
  simp [Operator.bare, Operator.map, Operator.unlabelled, Function.comp_def, d.bare_signal, actions]

@[simp] theorem action_operator (op : Operator) :
    (d.operator op).action = op.action.map d.signal :=
  congrArg Operator.action (d.unlabelled_operator op)

@[simp] theorem signals_operator (op : Operator) (role : Role) :
    (d.operator op).signals role = (op.signals role).map d.signal := by
  have same := congrArg (·.signals role) (d.unlabelled_operator op)
  cases role <;> exact same

@[simp] theorem allSignals_operator (op : Operator) :
    (d.operator op).allSignals = op.allSignals.map d.signal := by
  have same := congrArg Operator.allSignals (d.unlabelled_operator op)
  exact same.trans (by simp [Operator.allSignals, Operator.map, Operator.unlabelled])

@[simp] theorem inputReads_operator (op : Operator) :
    (d.operator op).inputReads = op.inputReads.map d.signal := by
  have same := congrArg Operator.inputReads (d.unlabelled_operator op)
  refine same.trans ?_
  obtain ⟨id, action, sets, incs, reads, updates, label⟩ := op
  cases action
  case process type mode =>
    simp only [Operator.unlabelled, Operator.map, Operator.inputReads, Action.map]
    split <;> simp_all
  all_goals simp [Operator.unlabelled, Operator.map, Operator.inputReads, Action.map]

@[simp] theorem builder_map (f : Signal → Signal) (action : Action) :
    (action.map f).builder = action.builder := by
  cases action <;> rfl

end Disguise

end BatchGraph
