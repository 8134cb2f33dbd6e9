import BatchGraph.Signal.Basic

/-!
Declaring signals.

`Signal.declare` makes a base from a `Declaration`; `Signal.view`, `Signal.reshape` and
`Signal.slice` make views.  A view of a view is a view of the base, so reshaping and slicing nest,
whereas strides are only meaningful on a base.  A `Supply` hands out identities and the names of
signals that are declared without one.
-/

namespace BatchGraph

/-! ## Bases -/

structure Declaration where
  dtype : DType := .float64
  /-- A vector over the initial values if absent. -/
  shape? : Option (List Number) := none
  initial : List Number := [0]
  trainable : Bool := false
  minibatched : Bool := false

/-- The count of initial values is compared with the size before the extents are looked at. -/
def Signal.declare (id : Nat) (name : String) (d : Declaration) : Except Error Signal :=
  let shape := d.shape?.getD [Number.ofNat d.initial.length]
  let size := Shape.size shape
  if counted : d.initial.length = 1 ∨ (Number.ofNat d.initial.length).same size then
    if natural : shape.all Number.isNatural then
      match if d.dtype.isInteger then d.initial.find? (!·.isInteger) else none with
      | some value => .error (.fractionalInitial d.dtype value)
      | none =>
        .ok (.ofBase
          ⟨id, name, d.dtype, shape, d.initial, d.trainable, d.minibatched, natural, counted⟩)
    else .error (.shapeExtents shape)
  else .error (.initialCount d.initial.length size shape)

/-! ## Views -/

/-- The elements as a list, unless they are too many for one. -/
def Region.enumerate (r : Region) : Except Error (List Number) := do
  checkLength r.size.countBelow
  return r.elements

theorem Region.enumerate_eq_ok_iff {r : Region} {elements : List Number} :
    r.enumerate = .ok elements ↔ r.size.countBelow < 0x100000000 ∧ elements = r.elements := by
  rw [← checkLength_eq_ok_iff, enumerate]
  cases checkLength r.size.countBelow with
  | error e => exact ⟨nofun, fun listed => nomatch listed.1⟩
  | ok _ => exact ⟨fun listed => ⟨rfl, (Except.ok.inj listed).symm⟩, fun listed => listed.2 ▸ rfl⟩

/-- A view of a base, refused if it has the wrong number of strides, too many elements to be listed,
or elements outside the base. -/
def Base.view (b : Base) (id : Nat) (name : String) (region : Region) : Except Error Signal :=
  if same_rank : region.strides.length = region.shape.length then
    match listed : region.enumerate with
    | .error e => .error e
    | .ok elements =>
      if inside : ∀ i ∈ elements, b.excludes i = false then
        .ok ⟨b, some ⟨id, name, region, same_rank⟩, by
          simpa [(Region.enumerate_eq_ok_iff.1 listed).2] using inside⟩
      else .error (.viewOutside region.shape region.offset b.name b.shape)
  else .error (.strideCount region.strides region.shape)

namespace Signal

def view (s : Signal) (id : Nat) (shape : List Number) (offset : Number)
    (strides? : Option (List Number)) (name? : Option String) : Except Error Signal :=
  if s.isView then .error (.viewOfView s.name)
  else
    s.base.view id (name?.getD s!"{s.name}[view]")
      ⟨shape, offset, strides?.getD (Shape.rowMajor shape)⟩

/-- The same elements under another shape. -/
def reshape (s : Signal) (id : Nat) (shape : List Number) (name? : Option String) :
    Except Error Signal :=
  if !(Shape.size shape).same s.size then .error (.reshapeSize s.name s.shape shape)
  else if !s.isContiguous then .error (.reshapeScattered s.name)
  else
    s.base.view id (name?.getD s!"{s.name}.reshape") ⟨shape, s.offset, Shape.rowMajor shape⟩

/-- How many of `start`, `start + step`, … lie below `stop`. -/
def sliceCount (start stop step : Number) : Number := Number.max 0 ((stop - start) / step).ceil

/-- The rows `start`, `start + step`, … below `stop`. -/
def slice (s : Signal) (id : Nat) (start stop step : Number) (name? : Option String) :
    Except Error Signal :=
  match s.shape, s.strides with
  | _ :: inner, stride :: strides =>
    if step.le 0 then .error (.sliceStep step)
    else
      s.base.view id (name?.getD s!"{s.name}[{start.text}:{stop.text}:{step.text}]")
        ⟨sliceCount start stop step :: inner, s.offset + start * stride, stride * step :: strides⟩
  | _, _ => .error (.sliceScalar s.name)

end Signal

/-! ## Identities and names -/

/-- The next identity, and how many bases have been named by number. -/
structure Supply where
  id : Nat := 0
  unnamed : Nat := 0

namespace Supply

/-- One identity has been used. -/
def advance (supply : Supply) : Supply := { supply with id := supply.id + 1 }

/-- Declares a base.  One without a name gets the next number, which a refused one does not use. -/
def declare (supply : Supply) (name? : Option String) (d : Declaration) :
    Except Error (Signal × Supply) :=
  match name? with
  | some name => (Signal.declare supply.id name d).map (·, supply.advance)
  | none =>
    (Signal.declare supply.id s!"signal{supply.unnamed}" d).map
      (·, { supply.advance with unnamed := supply.unnamed + 1 })

end Supply

end BatchGraph
