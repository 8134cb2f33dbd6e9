import BatchGraph.Signal.Basic

/-!
Operators: single computations on signals.

An `Operator` lists its signals by `Role`, in the order in which roles access shared memory within
one step: sets, increments, reads, updates.  What it computes is its `Action`.  The constructors
`Operator.reset`, `Operator.copy` and so on put the signals of each action into the right roles.
-/

namespace BatchGraph

inductive Role where
  | sets
  | incs
  | reads
  | updates
  deriving DecidableEq

namespace Role

/-- All roles, in the order in which they access shared memory. -/
def all : List Role := [sets, incs, reads, updates]

/-- The pairs of different roles, the earlier one first. -/
def orderedPairs : List (Role × Role) :=
  [(sets, incs), (sets, reads), (sets, updates), (incs, reads), (incs, updates), (reads, updates)]

end Role

/-! ## Actions -/

/-- What a process does to its output. -/
inductive ProcessMode where
  | set
  | inc
  | update
  deriving DecidableEq

inductive Action where
  | reset (value : Number)
  | copy (inc : Bool)
  | elementwise
  | dot (sparse : Bool)
  | func (usesTime : Bool)
  | neurons (neuronType : String) (states : List Signal)
  | process (processType : String) (mode : ProcessMode)
  | node
  deriving DecidableEq

/-- The batched implementations; operators of one batch share theirs. -/
inductive Builder where
  | reset
  | copy
  | elementwise
  | dot
  | func
  | neurons
  | process
  | node
  deriving DecidableEq

def Builder.name : Builder → String
  | reset => "reset"
  | copy => "copy"
  | elementwise => "elementwise-inc"
  | dot => "dot-inc"
  | func => "func"
  | neurons => "sim-neurons"
  | process => "sim-process"
  | node => "tensor-node"

namespace Action

def builder : Action → Builder
  | reset _ => .reset
  | copy _ => .copy
  | elementwise => .elementwise
  | dot _ => .dot
  | func _ => .func
  | neurons .. => .neurons
  | process .. => .process
  | node => .node

/-- The name of the kind of action: that of its builder, but sparse products have their own. -/
def kind : Action → String
  | dot true => "sparse-dot-inc"
  | action => action.builder.name

end Action

/-! ## Operators -/

structure Operator where
  id : Nat
  action : Action
  sets : List Signal := []
  incs : List Signal := []
  reads : List Signal := []
  updates : List Signal := []
  label : Option String := none
  deriving DecidableEq

namespace Operator

def signals (op : Operator) : Role → List Signal
  | .sets => op.sets
  | .incs => op.incs
  | .reads => op.reads
  | .updates => op.updates

def allSignals (op : Operator) : List Signal := op.sets ++ op.incs ++ op.reads ++ op.updates

/-- Everything the operator takes as input: neurons read back their states, and the lowpass process
its own output. -/
def inputReads (op : Operator) : List Signal :=
  match op.action with
  | .neurons _ states => op.reads ++ states
  | .process "lowpass" _ => op.reads ++ op.updates
  | _ => op.reads

/-- The kind with the label, or with the names of all signals if there is no label. -/
def text (op : Operator) : String :=
  match op.label with
  | some label =>
    if label = "" then unlabelled else s!"{op.action.kind}({label})"
  | none => unlabelled
where
  unlabelled : String :=
    let names := ", ".intercalate (op.allSignals.map Signal.name)
    s!"{op.action.kind}({names})"

/-! ## Constructors -/

def reset (id : Nat) (dst : Signal) (value : Number) (label : Option String) : Operator :=
  { id, action := .reset value, sets := [dst], label }

def copy (id : Nat) (src dst : Signal) (inc : Bool) (label : Option String) : Operator :=
  if inc then { id, action := .copy true, incs := [dst], reads := [src], label }
  else { id, action := .copy false, sets := [dst], reads := [src], label }

def elementwise (id : Nat) (a x y : Signal) (label : Option String) : Operator :=
  { id, action := .elementwise, incs := [y], reads := [a, x], label }

def dot (id : Nat) (a x y : Signal) (sparse : Bool) (label : Option String) : Operator :=
  { id, action := .dot sparse, incs := [y], reads := [a, x], label }

def func (id : Nat) (usesTime : Bool) (sets incs reads updates : List Signal)
    (label : Option String) : Operator :=
  { id, action := .func usesTime, sets, incs, reads, updates, label }

def neurons (id : Nat) (neuronType : String) (input output : Signal) (states : List Signal)
    (label : Option String) : Operator :=
  { id, action := .neurons neuronType states, sets := output :: states, reads := [input], label }

/-- The time is read before the input; an updating process also updates its output. -/
def process (id : Nat) (processType : String) (mode : ProcessMode) (input? : Option Signal)
    (output : Signal) (time? : Option Signal) (state : List Signal) (label : Option String) :
    Operator :=
  let op : Operator :=
    { id, action := .process processType mode, reads := time?.toList ++ input?.toList, label }
  match mode with
  | .set => { op with sets := [output], updates := state }
  | .inc => { op with incs := [output], updates := state }
  | .update => { op with updates := output :: state }

def node (id : Nat) (sets incs reads updates : List Signal) (label : Option String) : Operator :=
  { id, action := .node, sets, incs, reads, updates, label }

end Operator

end BatchGraph
