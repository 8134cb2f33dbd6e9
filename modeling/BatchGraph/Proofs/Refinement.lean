import BatchGraph.Proofs.Operator
import BatchGraph.Proofs.Order.Basic

/-!
Refinement keeps the order of the bases consistent.

Of a plan whose operators all take at least as many inputs as the first of their group, every pass
from a state that suits the plan only moves signals among places of the same membership and
operators within their groups (`OrderState.Suits.exists_pass`).  So the state it leaves suits the
plan again, and ordering the bases, which is a number of passes from the chain of memberships,
always succeeds (`refinement_preserves`).
-/

namespace BatchGraph

open Refine (SameGroups)

/-- A pass leaves a state that suits the plan. -/
theorem OrderState.Suits.exists_pass {analysis : ReadAnalysis} {plan : Plan} {state : OrderState}
    (suits : state.Suits plan) (describes : analysis.Describes plan) :
    ∃ next, Refine.pass analysis state = .ok next ∧ next.order.Perm state.order ∧
      SameGroups state.groups next.groups ∧
      next.order.map analysis.membership = state.order.map analysis.membership ∧
      next.Suits plan := by
  obtain ⟨next, passed, perm, places, same⟩ :=
    Refine.exists_pass suits.distinct (describes.readable suits) (.refl _) rfl (.refl state.groups)
  exact ⟨next, passed, perm, same, places, suits.rearrange perm same⟩

/-- Passes keep the signals and the memberships of their places, and the groups; ordering starts
from the chain of memberships and so keeps those of the chain. -/
theorem refinement_preserves {plan : Plan} (served : plan.Served)
    (states : ∀ op ∈ plan.flatten, op.StatesSet) :
    ∃ analysis, ReadAnalysis.ofPlan plan = .ok analysis ∧
      (∀ state : OrderState, state.Suits plan →
        ∃ next, Refine.pass analysis state = .ok next ∧ next.order.Perm state.order ∧
          SameGroups state.groups next.groups ∧
          next.order.map analysis.membership = state.order.map analysis.membership ∧
          next.Suits plan) ∧
      OrderState.Suits ⟨analysis.hammingOrder, plan⟩ plan ∧
      ∀ limit, ∃ ordered, orderSignals plan limit = .ok ordered ∧
        ordered.signals.Perm plan.bases ∧
        ordered.signals.map analysis.membership = analysis.hammingOrder.map analysis.membership ∧
        SameGroups plan ordered.plan := by
  have inputs : ∀ op ∈ plan.flatten, ∀ s ∈ op.inputReads, s ∈ op.allSignals := fun op member =>
    (states op member).inputs
  obtain ⟨analysis, isAnalysis, describes⟩ := ReadAnalysis.exists_ofPlan served
  have perm : analysis.hammingOrder.Perm plan.bases :=
    describes.signals ▸ analysis.hammingOrder_perm
  exact ⟨analysis, isAnalysis, fun state suits => suits.exists_pass describes,
    served.suits inputs perm,
    fun limit => orderSignals_keeps isAnalysis describes served inputs limit⟩

namespace Refine

/-- A single number in memory. -/
def place (id : Nat) : Signal :=
  .ofBase ⟨id, "place", .float32, [1], [0], false, false, Base.natural_extents_one,
    Base.initial_length_one⟩

/-- Neurons that keep one number of state. -/
def population (id : Nat) (input output state : Nat) : Operator :=
  .neurons id "lif" (place input) (place output) [place state] none

/-- A layer of two populations, listed against the order of their inputs. -/
def layer : Plan := [[population 0 1 2 3, population 1 0 4 5]]

theorem layer_served : layer.Served := by
  intro group isGroup first isFirst op isOp
  cases List.mem_singleton.1 isGroup
  cases isFirst
  rcases List.mem_pair.1 isOp with rfl | rfl <;> exact Nat.le_refl 2

theorem layer_statesSet : ∀ op ∈ layer.flatten, op.StatesSet := by
  intro op member
  rcases List.mem_pair.1 member with rfl | rfl <;>
    exact (Operator.Built.neurons _ _ _ _ _ _).statesSet

end Refine

open Refine in
/-- The inputs and the states of a layer are ordered in one pass. -/
theorem refinement_preserves_layer :
    layer.Served ∧ (∀ op ∈ layer.flatten, op.StatesSet) ∧
    ∃ ordered, orderSignals layer 1 = .ok ordered ∧ ordered.signals.Perm layer.bases ∧
      SameGroups layer ordered.plan := by
  obtain ⟨analysis, -, -, -, orders⟩ := refinement_preserves layer_served layer_statesSet
  obtain ⟨ordered, success, perm, -, same⟩ := orders 1
  exact ⟨layer_served, layer_statesSet, ordered, success, perm, same⟩

end BatchGraph
