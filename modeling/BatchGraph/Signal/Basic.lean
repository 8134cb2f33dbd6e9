import BatchGraph.Error

/-!
Signals: named pieces of state that operators read and write.

A `Base` owns its elements and their initial values.  A `Signal` is a whole base or a view of one,
that is, a `Region` of its elements.  Both carry an `id`, given by whoever declares them, so that
two declarations with equal contents stay apart and equality of signals is equality of values.

What a declaration checks is part of the types: the extents of a base are natural numbers, it has
one initial value or one per element, and a view addresses nothing in front of its base or behind
it.  `BatchGraph.Signal.Declare` has the operations that check it.
-/

namespace BatchGraph

/-! ## Bases -/

structure Base where
  id : Nat
  name : String
  dtype : DType
  shape : List Number
  initial : List Number
  trainable : Bool
  minibatched : Bool
  natural_extents : shape.all Number.isNatural
  initial_length : initial.length = 1 ∨ (Number.ofNat initial.length).same (Shape.size shape)

namespace Base

instance : DecidableEq Base := fun a b =>
  withPtrEqDecEq a b fun _ =>
    decidable_of_iff
      (a.id = b.id ∧ a.name = b.name ∧ a.dtype = b.dtype ∧ a.shape = b.shape ∧
        a.initial = b.initial ∧ a.trainable = b.trainable ∧ a.minibatched = b.minibatched)
      (by cases a; cases b; simp)

def size (b : Base) : Number := Shape.size b.shape

def region (b : Base) : Region := .whole b.shape

/-- The position lies in front of the elements or behind them.  A position without a value lies
nowhere, and behind a size without a value lies nothing. -/
def excludes (b : Base) (position : Number) : Bool := position.lt 0 || b.size.le position

/-- The initial value of an element; a single value stands for all elements. -/
def valueAt? (b : Base) (position : Number) : Option Number :=
  match b.initial with
  | [value] => some value
  | values => position.toNat?.bind (values[·]?)

end Base

/-! ## Signals -/

structure View where
  id : Nat
  name : String
  region : Region
  same_rank : region.strides.length = region.shape.length
  deriving DecidableEq

structure Signal where
  base : Base
  view? : Option View
  inside : ∀ v ∈ view?, ∀ i ∈ v.region.elements, base.excludes i = false
  deriving DecidableEq

namespace Signal

def ofBase (b : Base) : Signal := ⟨b, none, by simp⟩

/-- The signal that owns the elements. -/
def root (s : Signal) : Signal := ofBase s.base

def isView (s : Signal) : Bool := s.view?.isSome

def name (s : Signal) : String :=
  match s.view? with
  | some v => v.name
  | none => s.base.name

def dtype (s : Signal) : DType := s.base.dtype

def trainable (s : Signal) : Bool := s.base.trainable

def minibatched (s : Signal) : Bool := s.base.minibatched

/-- The elements of the base that the signal addresses. -/
def region (s : Signal) : Region :=
  match s.view? with
  | some v => v.region
  | none => s.base.region

def shape (s : Signal) : List Number := s.region.shape

def offset (s : Signal) : Number := s.region.offset

def strides (s : Signal) : List Number := s.region.strides

def size (s : Signal) : Number := s.region.size

def elements (s : Signal) : List Number := s.region.elements

def isContiguous (s : Signal) : Bool := s.region.isContiguous

/-- The initial values as they are stored: a base may have a single value for all its elements, a
view has one entry per element, which is empty if it addresses no element of the base. -/
def initialValue (s : Signal) : List (Option Number) :=
  match s.view? with
  | some v => v.region.elements.map s.base.valueAt?
  | none => s.base.initial.map some

def text (s : Signal) : String := s!"Signal({s.name}, [{Shape.text s.shape}], {s.dtype.name})"

/-! ## Relations between signals -/

/-- The signals address a common element.  Where one of them is a whole base, having elements at
all is enough. -/
def mayShareMemory (s t : Signal) : Bool :=
  decide (s.base = t.base) &&
    if s.isView && t.isView then
      let mine := s.elements.map Number.place
      t.elements.any fun position => mine.contains position.place
    else Number.lt 0 s.size && Number.lt 0 t.size

/-- The signals can stand at the same place of one batch: their bases can be rows of one array, and
their own rows have equal shapes. -/
def compatible (s t : Signal) : Bool :=
  decide (s.dtype = t.dtype) &&
    Shape.same (Shape.tail s.base.shape) (Shape.tail t.base.shape) &&
    Shape.same (Shape.tail s.shape) (Shape.tail t.shape) &&
    s.trainable == t.trainable && s.minibatched == t.minibatched

end Signal

end BatchGraph
