import BatchGraph.Operator

/-!
Dependencies between operators, and how they follow from memory accesses.

A `DependencyGraph` lists operators with those that must run later.  `DependencyGraph.derive` reads
the graph off the operators: on any common element, sets come before increments, increments before
reads and reads before updates, and at most one operator may set or update an element.
-/

namespace BatchGraph

/-- Operators with their direct successors, in the order in which both were entered. -/
structure DependencyGraph where
  entries : List (Operator × List Operator)
  deriving DecidableEq

namespace DependencyGraph

def empty : DependencyGraph := ⟨[]⟩

/-- Adds `b` unless it is there. -/
def addSuccessor (successors : List Operator) (b : Operator) : List Operator :=
  if b ∈ successors then successors else successors ++ [b]

/-- Adds successors to an operator, which is entered at the end if it is new. -/
def insert (g : DependencyGraph) (a : Operator) (successors : List Operator) : DependencyGraph :=
  if g.entries.any (·.1 = a) then
    ⟨g.entries.map fun (op, known) =>
      (op, if op = a then successors.foldl addSuccessor known else known)⟩
  else ⟨g.entries ++ [(a, successors.foldl addSuccessor [])]⟩

def successors (g : DependencyGraph) (a : Operator) : List Operator :=
  (g.entries.lookup a).getD []

end DependencyGraph

/-! ## Accesses -/

/-- A signal in some role of an operator. -/
structure Access where
  operator : Operator
  signal : Signal
  deriving DecidableEq

namespace Access

def ofRole (role : Role) (ops : List Operator) : List Access :=
  ops.flatMap fun op => (op.signals role).map (⟨op, ·⟩)

/-- The bases in the order in which they are first accessed. -/
def bases (accesses : List Access) : List Base := (accesses.map (·.signal.base)).eraseDups

def ofBase (accesses : List Access) (b : Base) : List Access :=
  accesses.filter (·.signal.base = b)

/-- Different operators access a common element. -/
def clash (a b : Access) : Bool :=
  decide (a.operator ≠ b.operator) && a.signal.mayShareMemory b.signal

/-- The first access that clashes with a later one, and the first such later one. -/
def firstClash? : List Access → Option (Access × Access)
  | [] => none
  | a :: later =>
    match later.find? a.clash with
    | some b => some (a, b)
    | none => firstClash? later

end Access

/-! ## Derived dependencies -/

/-- Refuses operators of which two access a common element in this role. -/
def checkSingleWriter (role : Role) (ops : List Operator) : Except Error Unit :=
  let accesses := Access.ofRole role ops
  let clash? := fun base => Access.firstClash? (Access.ofBase accesses base)
  match (Access.bases accesses).findSome? clash? with
  | none => .ok ()
  | some (a, b) =>
    .error (.writtenTwice a.signal.name (role = .updates) a.operator.text b.operator.text)

/-- Pairs of operators of which the first accesses some element in the earlier role, and the second
in the later role. -/
def conflicts (earlier later : Role) (ops : List Operator) : List (Operator × Operator) :=
  let before := Access.ofRole earlier ops
  let after := Access.ofRole later ops
  (Access.bases before).flatMap fun base =>
    let successors := Access.ofBase after base
    (Access.ofBase before base).flatMap fun a =>
      (successors.filter a.clash).map fun b => (a.operator, b.operator)

def DependencyGraph.derive (ops : List Operator) : Except Error DependencyGraph := do
  checkSingleWriter .sets ops
  checkSingleWriter .updates ops
  let edges := Role.orderedPairs.flatMap fun (earlier, later) => conflicts earlier later ops
  return edges.foldl (fun g (a, b) => g.insert a [b]) ⟨ops.eraseDups.map (·, [])⟩

end BatchGraph
