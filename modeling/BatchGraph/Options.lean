import BatchGraph.Layout.Basic
import BatchGraph.Order.Basic
import BatchGraph.Planner

/-!
Options of a compilation.

Options arrive as `Settings`, each of which may be of the wrong type.  `Options.resolve` fills in
defaults and refuses the first setting that makes no sense.
-/

namespace BatchGraph

/-! ## Settings -/

/-- A setting as it was given; `absent` stands for the default. -/
inductive Setting where
  | absent
  | number (value : Number)
  | text (value : String)
  | flag (value : Bool)
  | list (items : List Setting)
  | record (fields : List (String × Setting))
  deriving Inhabited

namespace Setting

mutual

/-- The text of a setting in a message.  A record that sets its own `toString` has none, and neither
has a list with such an item. -/
def display? : Setting → Option String
  | absent => some ""
  | number value => some value.text
  | text value => some value
  | flag value => some (if value then "true" else "false")
  | list items => (displayAll? items).map (",".intercalate ·)
  | record fields => if fields.any (·.1 = "toString") then none else some "[object Object]"

def displayAll? : List Setting → Option (List String)
  | [] => some []
  | item :: items => do return (← item.display?) :: (← displayAll? items)

end

def orElse : Setting → Setting → Setting
  | absent, other => other
  | setting, _ => setting

/-- Zero, `nan`, the empty text and `false` do not hold. -/
def holds : Setting → Bool
  | absent => false
  | number value => value != .nan && !value.isZero
  | text value => value != ""
  | flag value => value
  | list _ | record _ => true

end Setting

structure Settings where
  planner : Setting := .absent
  sorter : Setting := .absent
  floatType : Setting := .absent
  minibatchSize : Setting := .absent
  sortPasses : Setting := .absent
  validate : Setting := .absent

/-- What the surroundings of a compilation are set to; nothing, if a variable is not set. -/
structure Environment where
  planner? : Option String := none
  debug? : Option String := none
  timing? : Option String := none

/-- The planner that is used where no option names one. -/
def Environment.planner (env : Environment) : Setting :=
  match env.planner? with
  | none | some "" => .text Planner.greedy.name
  | some name => .text name

/-! ## Options -/

inductive Sorter where
  | order
  | noop
  deriving DecidableEq

def Sorter.name : Sorter → String
  | order => "order"
  | noop => "noop"

def Sorter.ofName? (text : String) : Option Sorter := [order, noop].find? (·.name = text)

structure Options where
  planner : Planner
  /-- The planner as it was given. -/
  plannerSetting : Setting
  sorter : Sorter
  precision : Precision
  /-- A positive integer. -/
  minibatchSize : Number
  /-- A natural number. -/
  sortPasses : Number
  /-- Whether the plan is checked, as it was given. -/
  validate : Setting

namespace Options

/-- The setting, if it is an integer that is not below `least`. -/
def integer? (least : Number) : Setting → Option Number
  | .number value => if value.isInteger && least.le value then some value else none
  | _ => none

def text? : Setting → Option String
  | .text value => some value
  | _ => none

/-- The option that a setting stands for, or the error with the text of the setting. -/
def read {α : Type} (setting : Setting) (option? : Option α) (error : String → Error) :
    Except Error α :=
  option?.elim (.error (setting.display?.elim .settingUnreadable error)) .ok

def resolve (env : Environment) (settings : Settings) : Except Error Options := do
  let plannerSetting := settings.planner.orElse env.planner
  let planner ← read plannerSetting (plannerSetting.display?.bind Planner.ofName?) .optionPlanner
  let sorter := settings.sorter.orElse (.text Sorter.order.name)
  let sorter ← read sorter ((text? sorter).bind Sorter.ofName?) .optionSorter
  let precision := settings.floatType.orElse (.text Precision.single.name)
  let precision ← read precision ((text? precision).bind Precision.ofName?) .optionPrecision
  let minibatchSize := settings.minibatchSize.orElse (.number 1)
  let minibatchSize ← read minibatchSize (integer? 1 minibatchSize) .optionMinibatchSize
  let sortPasses := settings.sortPasses.orElse (.number (Number.ofNat defaultPasses))
  let sortPasses ← read sortPasses (integer? 0 sortPasses) .optionSortPasses
  return {
    planner, plannerSetting, sorter, precision, minibatchSize, sortPasses
    validate := settings.validate.orElse (.flag true) }

end Options

end BatchGraph
