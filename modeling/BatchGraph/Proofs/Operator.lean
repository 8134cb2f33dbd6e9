import BatchGraph.Proofs.Layout.Build
import BatchGraph.Proofs.Order.ReadBlock
import BatchGraph.Proofs.Plan.Feasible

/-!
Operators as their constructors make them.

Such operators take inputs from their own signals (`Built.statesSet`, `StatesSet.inputs`), and
mergeable ones take equally many (`Built.length_inputReads_eq`).  So what a planner has grouped can
be ordered and laid out: `Plan.Feasible.alike` and `Plan.Feasible.slotted`.
-/

namespace BatchGraph

namespace Operator

/-- The operator is made by a constructor. -/
inductive Built : Operator → Prop
  | reset (id : Nat) (dst : Signal) (value : Number) (label : Option String) :
    Built (.reset id dst value label)
  | copy (id : Nat) (src dst : Signal) (inc : Bool) (label : Option String) :
    Built (.copy id src dst inc label)
  | elementwise (id : Nat) (a x y : Signal) (label : Option String) :
    Built (.elementwise id a x y label)
  | dot (id : Nat) (a x y : Signal) (sparse : Bool) (label : Option String) :
    Built (.dot id a x y sparse label)
  | func (id : Nat) (usesTime : Bool) (sets incs reads updates : List Signal)
    (label : Option String) : Built (.func id usesTime sets incs reads updates label)
  | neurons (id : Nat) (neuronType : String) (input output : Signal) (states : List Signal)
    (label : Option String) : Built (.neurons id neuronType input output states label)
  | process (id : Nat) (processType : String) (mode : ProcessMode) (input? : Option Signal)
    (output : Signal) (time? : Option Signal) (state : List Signal) (label : Option String) :
    Built (.process id processType mode input? output time? state label)
  | node (id : Nat) (sets incs reads updates : List Signal) (label : Option String) :
    Built (.node id sets incs reads updates label)

/-! ## Inputs -/

/-- What the operator reads back of its own outputs. -/
def fedBack (op : Operator) : List Signal :=
  match op.action with
  | .neurons _ states => states
  | .process type _ => if type = "lowpass" then op.updates else []
  | _ => []

theorem inputReads_eq (op : Operator) : op.inputReads = op.reads ++ op.fedBack := by
  unfold inputReads fedBack
  split
  case h_1 action => rw [action]
  case h_2 action =>
    rw [action]
    simp
  case h_3 notNeurons notLowpass =>
    split
    case h_1 action => exact absurd action (notNeurons _ _)
    case h_2 type mode action =>
      rw [if_neg fun lowpass => notLowpass mode (by rw [action, lowpass]), List.append_nil]
    case h_3 => rw [List.append_nil]

variable {op a b : Operator}

/-- Neurons have their states behind their output. -/
theorem Built.exists_output (built : op.Built) {neuronType : String} {states : List Signal}
    (action : op.action = .neurons neuronType states) : ∃ output, op.sets = output :: states := by
  cases built with
  | neurons id type input output states' label =>
    cases action
    exact ⟨output, rfl⟩
  | copy id src dst inc label => cases inc <;> cases action
  | process id type mode input? output time? state label => cases mode <;> cases action
  | _ => cases action

/-- Neurons set the states that they read back. -/
def StatesSet (op : Operator) : Prop :=
  ∀ neuronType states, op.action = .neurons neuronType states → states ⊆ op.sets

theorem Built.statesSet (built : op.Built) : op.StatesSet := by
  intro neuronType states action
  obtain ⟨output, sets⟩ := built.exists_output action
  rw [sets]
  exact List.subset_cons_self _ _

theorem StatesSet.fedBack_subset (set : op.StatesSet) : op.fedBack ⊆ op.sets ++ op.updates := by
  unfold fedBack
  split
  case h_1 action => exact List.subset_append_of_subset_left _ (set _ _ action)
  case h_2 =>
    split
    · exact List.subset_append_right _ _
    · exact List.nil_subset _
  case h_3 => exact List.nil_subset _

theorem StatesSet.inputs (set : op.StatesSet) : ∀ s ∈ op.inputReads, s ∈ op.allSignals := by
  intro s member
  rw [inputReads_eq, List.mem_append] at member
  rw [allSignals]
  rcases member with isRead | isFedBack
  · simp [isRead]
  · rcases List.mem_append.1 (set.fedBack_subset isFedBack) with isSet | isUpdate
    · simp [isSet]
    · simp [isUpdate]

theorem sameProcess_lowpass {type type' : String} (same : sameProcess type type' = true) :
    type = "lowpass" ↔ type' = "lowpass" := by
  simp only [sameProcess, specializedProcesses] at same
  grind

theorem Built.length_fedBack_eq (builtA : a.Built) (builtB : b.Built)
    (merges : mergeablePair a b = true) : a.fedBack.length = b.fedBack.length := by
  obtain ⟨⟨builder, lengths, -⟩, actions⟩ := mergeablePair_iff.1 merges
  have sets := lengths .sets
  have updates := lengths .updates
  simp only [signals] at sets updates
  unfold fedBack
  cases actionA : a.action <;> cases actionB : b.action <;>
    simp only [actionA, actionB, Action.builder, reduceCtorEq] at builder
  case neurons.neurons =>
    obtain ⟨_, setsA⟩ := builtA.exists_output actionA
    obtain ⟨_, setsB⟩ := builtB.exists_output actionB
    simpa [setsA, setsB] using sets
  case process.process type mode type' mode' =>
    rw [mergeableActions, actionA, actionB] at actions
    have lowpass := sameProcess_lowpass (Bool.and_eq_true _ _ ▸ actions).1
    by_cases isLowpass : type = "lowpass"
    · simp [isLowpass, lowpass.1 isLowpass, updates]
    · simp [isLowpass, mt lowpass.2 isLowpass]
  all_goals rfl

theorem Built.length_inputReads_eq (builtA : a.Built) (builtB : b.Built)
    (merges : mergeablePair a b = true) : a.inputReads.length = b.inputReads.length := by
  have reads := (mergeablePair_iff.1 merges).1.lengths .reads
  simp only [signals] at reads
  rw [inputReads_eq, inputReads_eq, List.length_append, List.length_append,
    builtA.length_fedBack_eq builtB merges, reads]

end Operator

/-! ## Groups of a plan -/

namespace Plan

variable {ops : List Operator} {graph : DependencyGraph} {plan plan' : Plan}

theorem groupOf_eq (same : Refine.SameGroups plan plan') (op : Operator) :
    plan'.groupOf op = plan.groupOf op := by
  unfold groupOf
  induction same with
  | nil => rfl
  | cons first _ ih => rw [List.findIdx_cons, List.findIdx_cons, ih, first.contains_eq]

namespace Feasible

theorem mem_ops (feasible : plan.Feasible ops graph) {group : List Operator}
    (isGroup : group ∈ plan) {op : Operator} (member : op ∈ group) : op ∈ ops :=
  feasible.complete.mem_iff.1 (List.mem_flatten.2 ⟨group, isGroup, member⟩)

theorem alike (feasible : plan.Feasible ops graph) (built : ∀ op ∈ ops, op.Built) :
    plan.Alike where
  slots group isGroup a isA b isB := by
    by_cases same : a = b
    · rw [same]
    · have merges : mergeablePair a b = true := feasible.batched group isGroup a isA b isB same
      exact (built a (feasible.mem_ops isGroup isA)).length_inputReads_eq
        (built b (feasible.mem_ops isGroup isB)) merges
  inputs op member := (built op (feasible.complete.mem_iff.1 member)).statesSet.inputs

theorem slotted (feasible : plan.Feasible ops graph) (nonempty : ∀ group ∈ plan, group ≠ [])
    {signals : List Signal} (covered : ∀ op ∈ ops, ∀ s ∈ op.allSignals, s.root ∈ signals) :
    plan.Slotted signals where
  nonempty := nonempty
  lengths group isGroup a isA b isB := by
    by_cases same : a = b
    · rw [same]
    · have merges : mergeablePair a b = true := feasible.batched group isGroup a isA b isB same
      exact (mergeablePair_iff.1 merges).1.signals.length_eq
  covered group isGroup op member := covered op (feasible.mem_ops isGroup member)

/-- Reordering the operators of a group changes nothing that a plan has to do. -/
theorem regroup (feasible : plan.Feasible ops graph) (same : Refine.SameGroups plan plan') :
    plan'.Feasible ops graph where
  complete := (List.Perm.flatten_congr same).symm.trans feasible.complete
  ordered a b edge := by
    rw [groupOf_eq same, groupOf_eq same]
    exact feasible.ordered a b edge
  batched group' isGroup' a isA b isB := by
    obtain ⟨i, isAt⟩ := List.mem_iff_getElem?.1 isGroup'
    obtain ⟨group, isThere, perm⟩ := same.symm.exists_group isAt
    exact feasible.batched group (List.mem_of_getElem? isThere) a (perm.mem_iff.1 isA) b
      (perm.mem_iff.1 isB)

end Feasible

theorem nonempty_of_sameGroups (nonempty : ∀ group ∈ plan, group ≠ [])
    (same : Refine.SameGroups plan plan') : ∀ group ∈ plan', group ≠ [] := by
  intro group' isGroup' empty
  obtain ⟨i, isAt⟩ := List.mem_iff_getElem?.1 isGroup'
  obtain ⟨group, isThere, perm⟩ := same.symm.exists_group isAt
  rw [empty] at perm
  exact nonempty group (List.mem_of_getElem? isThere) perm.nil_eq.symm

end Plan

end BatchGraph
