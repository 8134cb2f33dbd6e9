import BatchGraph.Layout.Pack

/-!
Rows for views.

A view of as many elements as its base must be the base under another shape.  Any other view must
keep the extents beyond axis 0 and consist of whole rows of its base.  All else is refused as
unsupported.
-/

namespace BatchGraph

namespace Signal

/-- The rows of a view, given those of its base. -/
def viewRows (s : Signal) (base : Rows) : Except Error Rows :=
  let whole := s.root
  if s.size.same whole.size then
    if !s.offset.same 0 || !s.isContiguous then .error (.viewPermutes s.name whole.name)
    else base.reshape (Shape.normalized s.shape) s.name
  else
    let tail := Shape.tail whole.shape
    let rowSize := Shape.size tail
    let rowStride := s.strides.headD rowSize
    if !Shape.same (Shape.tail s.shape) tail then
      .error (.viewSlicesAndReshapes s.name whole.name)
    else if !Shape.same (s.strides.drop 1) (whole.strides.drop 1) then
      .error (.viewWithinRows s.name whole.name)
    else
      if !s.offset.isMultiple rowSize || !rowStride.isMultiple rowSize then
        .error (.viewPartialRows s.name whole.name)
      else
        base.sliceRows (s.offset / rowSize) (rowStride / rowSize) (Shape.leading s.shape) s.name

end Signal

/-- Adds the rows of a signal if it is a view without rows. -/
def placeView (placed : List (Signal × Rows)) (s : Signal) : Except Error (List (Signal × Rows)) :=
  if !s.isView || (placed.lookup s).isSome then .ok placed
  else
    match placed.lookup s.root with
    | none => .error (.layoutViewBase s.name)
    | some base => do return placed ++ [(s, ← s.viewRows base)]

/-- Adds the rows of all views of a plan in the order in which the plan meets them. -/
def placeViews (placed : List (Signal × Rows)) (plan : Plan) :
    Except Error (List (Signal × Rows)) :=
  (plan.flatten.flatMap Operator.allSignals).foldlM placeView placed

end BatchGraph
