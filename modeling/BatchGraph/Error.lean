import BatchGraph.Shape
import BatchGraph.DType

/-!
Reasons for which a construction or a compilation stage refuses its input.

Each constructor of `Error` is one cause and carries what its message names; signals and operators
appear by their text.  `Error.kind` sorts the causes by who is at fault: an input that is simply
wrong, a cyclic dependency graph, a signal that no memory layout can express, a result that fails
its own check, an input too malformed to be looked at, or more values than a list can hold
(`checkLength`).
-/

namespace BatchGraph

inductive ErrorKind where
  | plain
  | cycle
  | unsupported
  | inconsistent
  | malformed
  | capacity
  deriving DecidableEq

inductive Error where
  /-- A declared signal has neither one initial value nor one per element. -/
  | initialCount (count : Nat) (size : Number) (shape : List Number)
  | shapeExtents (shape : List Number)
  | fractionalInitial (dtype : DType) (value : Number)
  | viewOfView (name : String)
  | strideCount (strides shape : List Number)
  | viewOutside (shape : List Number) (offset : Number) (name : String) (whole : List Number)
  | reshapeSize (name : String) (shape target : List Number)
  | reshapeScattered (name : String)
  | sliceScalar (name : String)
  | sliceStep (step : Number)
  /-- Two operators both set, or both update, a common element. -/
  | writtenTwice (signal : String) (updated : Bool) (first second : String)
  | operatorRepeated (operator : String)
  | sourceUnknown (operator : String)
  | successorUnknown (operator : String)
  | operatorUnknown (operator : String)
  /-- Some operators wait for each other; `stuck` of them could not be scheduled. -/
  | cycle (stuck : Nat)
  | plannerUnknown (name : String) (known : List String)
  | groupEmpty (group : Nat)
  | scheduledTwice (operator : String) (first second : Nat)
  | unscheduled (operator : String)
  | scheduledEarly (operator : String) (group : Nat) (dependency : String) (dependencyGroup : Nat)
  | inputMissing (operatorKind : String) (slot : Nat)
  | orderLacks (signal : String)
  /-- The state of a refinement has no such group. -/
  | orderGroup (group : Nat)
  | orderLength (expected found : Nat)
  | orderLeftBlock (signal : String) (position : Nat)
  | groupCount (expected found : Nat)
  | groupMembers (group : Nat)
  | rowsReshape (label : String) (shape target : List Number)
  | rowRange (row : Number) (label : String) (rows : Nat)
  | rowsArray (label : String) (expected found : Number)
  | broadcastEmpty (size : Number)
  /-- So many values cannot be held. -/
  | lengthInvalid
  | minibatchSize (given : String)
  /-- A group without operators, or with one that has fewer signals than the first. -/
  | groupRagged
  | layoutLacks (signal : String)
  | layoutView (signal : String)
  | layoutRepeated (signal : String)
  | layoutViewBase (signal : String)
  | layoutUnread (signal : String)
  | layoutArray (key : Number)
  | dtypeUnsupported (dtype : DType)
  | viewPermutes (view base : String)
  | viewSlicesAndReshapes (view base : String)
  | viewWithinRows (view base : String)
  | viewPartialRows (view base : String)
  | rowsShape (found : List Number) (signal : String) (expected : List Number)
  | rowsArrayMissing (label : String) (key : Number)
  | rowsCount (label : String) (found : Nat) (signal : String) (expected : Nat)
  | rowsValue (signal : String) (element : Nat)
  /-- A setting of the wrong type that has no text either. -/
  | settingUnreadable
  | optionPlanner (given : String)
  | optionSorter (given : String)
  | optionPrecision (given : String)
  | optionMinibatchSize (given : String)
  | optionSortPasses (given : String)
  deriving DecidableEq

namespace Error

def kind : Error → ErrorKind
  | cycle _ => .cycle
  | orderGroup _ | groupRagged | settingUnreadable => .malformed
  | lengthInvalid => .capacity
  | dtypeUnsupported _ | viewPermutes .. | viewSlicesAndReshapes .. | viewWithinRows ..
  | viewPartialRows .. => .unsupported
  | groupEmpty _ | scheduledTwice .. | unscheduled _ | scheduledEarly .. | orderLength ..
  | orderLeftBlock .. | groupCount .. | groupMembers _ | rowsShape .. | rowsArrayMissing ..
  | rowsCount .. | rowsValue .. => .inconsistent
  | _ => .plain

def message : Error → String
  | initialCount count size shape =>
    s!"signal initial value has {count} element(s), expected 1 or {size.text} " ++
      s!"for shape [{Shape.text shape}]"
  | shapeExtents shape => s!"signal shape [{Shape.text shape}] must contain non-negative integers"
  | fractionalInitial dtype value =>
    s!"signal of dtype {dtype.name} has non-integer initial value {value.text}"
  | viewOfView name => s!"cannot take a strided view of view {name}; view its base instead"
  | strideCount strides shape =>
    s!"view strides [{Shape.text strides}] do not match view shape [{Shape.text shape}]"
  | viewOutside shape offset name whole =>
    s!"view [{Shape.text shape}] at offset {offset.text} falls outside {name} " ++
      s!"[{Shape.text whole}]"
  | reshapeSize name shape target =>
    s!"cannot reshape {name} [{Shape.text shape}] to [{Shape.text target}]"
  | reshapeScattered name => s!"cannot reshape non-contiguous view {name}"
  | sliceScalar name => s!"cannot slice scalar signal {name}"
  | sliceStep step => s!"slice step must be positive, got {step.text}"
  | writtenTwice signal updated first second =>
    let verb := if updated then "updated" else "set"
    s!"dependency graph: {signal} is {verb} by both {first} and {second}"
  | operatorRepeated operator => s!"operator graph: {operator} appears more than once"
  | sourceUnknown operator =>
    s!"operator graph: dependency source {operator} is not in the operator list"
  | successorUnknown operator =>
    s!"operator graph: successor {operator} is not in the operator list"
  | operatorUnknown operator => s!"operator graph: unknown operator {operator}"
  | cycle stuck =>
    s!"Cycle detected during graph optimization ({stuck} operator(s) could not be scheduled)"
  | plannerUnknown name known =>
    let choices := ", ".intercalate known
    s!"unknown planner \"{name}\" (expected one of {choices})"
  | groupEmpty group => s!"plan group {group} is empty"
  | scheduledTwice operator first second =>
    s!"{operator} is scheduled in groups {first} and {second}"
  | unscheduled operator => s!"{operator} is missing from the plan"
  | scheduledEarly operator group dependency dependencyGroup =>
    s!"{operator} (group {group}) does not run after its dependency {dependency} " ++
      s!"(group {dependencyGroup})"
  | inputMissing operatorKind slot =>
    s!"signal order: operator {operatorKind} has no input at slot {slot}"
  | orderLacks signal => s!"signal order: {signal} is not in the signal order"
  | orderGroup group => s!"signal order: there is no group {group}"
  | orderLength expected found => s!"signal order lost signals: {expected} -> {found}"
  | orderLeftBlock signal position =>
    s!"signal order moved {signal} out of its read block at position {position}"
  | groupCount expected found => s!"signal order changed the group count: {expected} -> {found}"
  | groupMembers group => s!"signal order changed the members of group {group}"
  | rowsReshape label shape target =>
    s!"cannot reshape TensorSignal {label} [{Shape.text shape}] to [{Shape.text target}]"
  | rowRange row label rows =>
    s!"row {row.text} is out of range for TensorSignal {label} with {rows} row(s)"
  | rowsArray label expected found =>
    s!"TensorSignal {label} indexes base array {expected.text}, got {found.text}"
  | broadcastEmpty size => s!"cannot broadcast an empty value to {size.text} element(s)"
  | lengthInvalid => "Invalid array length"
  | minibatchSize given => s!"minibatchSize must be a positive integer, got {given}"
  | groupRagged => "memory layout: a group is empty or its operators differ in their signals"
  | layoutLacks signal => s!"memory layout: base signal {signal} is not in the signal order"
  | layoutView signal =>
    s!"memory layout: {signal} is a view; the signal order must hold base signals"
  | layoutRepeated signal => s!"memory layout: {signal} appears twice in the signal order"
  | layoutViewBase signal => s!"memory layout: base of view {signal} is not in the signal order"
  | layoutUnread signal => s!"memory layout: no TensorSignal for {signal}"
  | layoutArray key => s!"memory layout: no base array {key.text}"
  | dtypeUnsupported dtype => s!"unsupported signal dtype {dtype.name}"
  | viewPermutes view base =>
    s!"view {view} permutes the elements of {base}; only reshapes of a whole base are supported"
  | viewSlicesAndReshapes view base =>
    s!"view {view} both slices and reshapes {base}, which is not supported"
  | viewWithinRows view base => s!"view {view} is strided within rows of {base}"
  | viewPartialRows view base => s!"view {view} does not start and step on whole rows of {base}"
  | rowsShape found signal expected =>
    s!"TensorSignal shape [{Shape.text found}] does not match Signal {signal} " ++
      s!"shape [{Shape.text expected}]"
  | rowsArrayMissing label key =>
    s!"TensorSignal {label} refers to missing base array {key.text}"
  | rowsCount label found signal expected =>
    s!"TensorSignal {label} holds {found} value(s), Signal {signal} has {expected}"
  | rowsValue signal element =>
    s!"TensorSignal values don't match Signal {signal} values (element {element})"
  | settingUnreadable => "compile options: a setting cannot be read"
  | optionPlanner given => s!"compile options: unknown planner \"{given}\""
  | optionSorter given => s!"compile options: unknown sorter \"{given}\""
  | optionPrecision given =>
    s!"compile options: floatType must be float32 or float64, got {given}"
  | optionMinibatchSize given =>
    s!"compile options: minibatchSize must be a positive integer, got {given}"
  | optionSortPasses given =>
    s!"compile options: sortPasses must be a non-negative integer, got {given}"

end Error

/-! ## Lengths -/

/-- A list holds fewer than `2 ^ 32` values. -/
def checkLength (length : Nat) : Except Error Unit :=
  if length < 0x100000000 then .ok () else .error .lengthInvalid

theorem checkLength_eq_ok_iff {length : Nat} :
    checkLength length = .ok () ↔ length < 0x100000000 := by
  unfold checkLength
  split
  case isTrue few => exact ⟨fun _ => few, fun _ => rfl⟩
  case isFalse long => exact ⟨nofun, fun few => absurd few long⟩

theorem of_checkLength_eq_error {length : Nat} {e : Error}
    (failure : checkLength length = .error e) : e.kind = .capacity ∧ 0x100000000 ≤ length := by
  unfold checkLength at failure
  split at failure
  case isTrue => cases failure
  case isFalse long =>
    cases failure
    exact ⟨rfl, Nat.not_lt.1 long⟩

end BatchGraph
