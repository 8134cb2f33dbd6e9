import BatchGraph.Proofs.Number.Order
import BatchGraph.Proofs.RunSort
import BatchGraph.Proofs.RunSort.Ascending
import BatchGraph.Proofs.Order.ReadBlock

/-!
Sorting operators by what they read.

Against a given order, an operator has a key at every slot (`keyAt`): the position of the base that
it reads and the offset of the view.  Keys whose offsets are numbers are ordered as pairs
(`ReadKey.ranks`), so `sortedBy` puts the bases in the order of their positions, and sorting again
changes nothing.
-/

namespace BatchGraph

namespace RunSort

/-- Elements are told apart by what a function says of them. -/
theorem Ranks.comap {α β : Type} {before : β → β → Bool} {compares : β → Bool}
    (ranks : Ranks before compares) (f : α → β) :
    Ranks (fun x y => before (f x) (f y)) (fun x => compares (f x)) where
  asymmetric x y := ranks.asymmetric (f x) (f y)
  trans x y z := ranks.trans (f x) (f y) (f z)

end RunSort

namespace Refine

/-! ## Keys -/

namespace ReadKey

theorem before_eq_false_iff {x y : ReadKey} :
    before y x = false ↔ x.1 ≤ y.1 ∧ (x.1 = y.1 → y.2.lt x.2 = false) := by
  simp only [before, Bool.or_eq_false_iff, decide_eq_false_iff_not, Bool.and_eq_false_imp,
    beq_iff_eq, Nat.not_lt]
  exact and_congr_right fun _ => ⟨fun h same => h same.symm, fun h same => h same.symm⟩

theorem ranks : RunSort.Ranks before compares where
  asymmetric x y isBefore := by
    simp only [before, Bool.or_eq_true, decide_eq_true_eq, Bool.and_eq_true, beq_iff_eq] at isBefore
    rw [before_eq_false_iff]
    rcases isBefore with less | ⟨same, less⟩
    · exact ⟨Nat.le_of_lt less, fun same => absurd same (Nat.ne_of_lt less)⟩
    · exact ⟨Nat.le_of_eq same, fun _ => Number.lt_asymm less⟩
  trans x y z isX isY isZ first second := by
    rw [before_eq_false_iff] at first second ⊢
    refine ⟨first.1.trans second.1, fun same => ?_⟩
    have isX' : x.2 ≠ .nan := bne_iff_ne.1 isX
    have isY' : y.2 ≠ .nan := bne_iff_ne.1 isY
    have isZ' : z.2 ≠ .nan := bne_iff_ne.1 isZ
    have same₁ : x.1 = y.1 := Nat.le_antisymm first.1 (same ▸ second.1)
    have same₂ : y.1 = z.1 := same₁.symm.trans same
    rw [Number.lt_eq_false_iff isX' isZ']
    exact Number.le_trans ((Number.lt_eq_false_iff isX' isY').1 (first.2 same₁))
      ((Number.lt_eq_false_iff isY' isZ').1 (second.2 same₂))

end ReadKey

variable {order : List Signal} {slot : Nat} {ops : List Operator}

/-- What an operator reads at a slot: the position of the base in an order, and the offset of the
view. -/
def keyAt (order : List Signal) (slot : Nat) (op : Operator) : ReadKey :=
  op.inputReads[slot]?.elim (0, 0) fun s => (order.idxOf s.root, s.offset)

/-- Operators sorted by what they read at a slot. -/
def sortedBy (order : List Signal) (slot : Nat) (ops : List Operator) : List Operator :=
  RunSort.stableSort (fun a b => ReadKey.before (keyAt order slot a) (keyAt order slot b))
    (fun op => (keyAt order slot op).compares) ops

theorem sortedBy_perm (order : List Signal) (slot : Nat) (ops : List Operator) :
    (sortedBy order slot ops).Perm ops := RunSort.stableSort_perm _ _ _

theorem sortedBy_singleton (order : List Signal) (slot : Nat) (op : Operator) :
    sortedBy order slot [op] = [op] := (sortedBy_perm order slot [op]).eq_singleton

theorem sortedBy_sortedBy (order : List Signal) (slot : Nat) (ops : List Operator) :
    sortedBy order slot (sortedBy order slot ops) = sortedBy order slot ops :=
  RunSort.stableSort_stableSort (ReadKey.ranks.comap (keyAt order slot)) ops

/-- No operator has a lower key than the one in front of it. -/
theorem sortedBy_ascending (order : List Signal) (slot : Nat) (ops : List Operator) :
    (sortedBy order slot ops).IsChain fun a b =>
      ReadKey.before (keyAt order slot b) (keyAt order slot a) = false :=
  RunSort.stableSort_ascending (ReadKey.ranks.comap (keyAt order slot)) ops

/-- If all offsets are numbers, no operator has a lower key than any in front of it. -/
theorem sortedBy_pairwise (numbers : ∀ op ∈ ops, (keyAt order slot op).compares = true) :
    (sortedBy order slot ops).Pairwise fun a b =>
      ReadKey.before (keyAt order slot b) (keyAt order slot a) = false :=
  RunSort.stableSort_pairwise (ReadKey.ranks.comap (keyAt order slot)) (List.all_eq_true.2 numbers)

theorem pairwise_position_sortedBy (order : List Signal) (slot : Nat) (ops : List Operator) :
    (sortedBy order slot ops).Pairwise fun a b =>
      (keyAt order slot a).1 ≤ (keyAt order slot b).1 := by
  have chain : ((sortedBy order slot ops).map fun op => (keyAt order slot op).1).IsChain (· ≤ ·) :=
    (List.isChain_map _).2 <| (sortedBy_ascending order slot ops).imp fun _ _ notBefore =>
      (ReadKey.before_eq_false_iff.1 notBefore).1
  exact List.pairwise_map.1 (List.isChain_iff_pairwise.1 chain)

/-! ## Inputs -/

/-- What operators read at a slot. -/
def inputsAt (slot : Nat) (ops : List Operator) : List Signal :=
  ops.filterMap (·.inputReads[slot]?)

theorem mem_inputsAt {s : Signal} :
    s ∈ inputsAt slot ops ↔ ∃ op ∈ ops, op.inputReads[slot]? = some s := List.mem_filterMap

theorem keyAt_of_input {op : Operator} {s : Signal} (isInput : op.inputReads[slot]? = some s) :
    keyAt order slot op = (order.idxOf s.root, s.offset) := by
  rw [keyAt, isInput]
  rfl

/-- Sorted operators read the bases in the order of their positions. -/
theorem pairwise_inputsAt_sortedBy (order : List Signal) (slot : Nat) (ops : List Operator) :
    (inputsAt slot (sortedBy order slot ops)).Pairwise fun s t =>
      order.idxOf s.root ≤ order.idxOf t.root := by
  refine List.pairwise_filterMap.2 ((pairwise_position_sortedBy order slot ops).imp ?_)
  intro a b le s isS t isT
  rwa [keyAt_of_input isS, keyAt_of_input isT] at le

/-! ## Sorting -/

section Sorting

variable {analysis : ReadAnalysis} {plan : Plan} {start : List Signal} {a : Arrangement}
  (describes : analysis.Describes plan) (members : ∀ op ∈ ops, op ∈ plan.flatten)
  (reads : Arrangement.Reads analysis start ops slot)

include describes members reads

theorem exists_input {op : Operator} (isOp : op ∈ ops) :
    ∃ s, op.inputReads[slot]? = some s ∧ ReadAnalysis.readAt analysis.reads op slot = .ok s ∧
      s.root ∈ start := by
  obtain ⟨s, isRead, inside⟩ := reads op isOp
  refine ⟨s, ?_, isRead, inside⟩
  rw [describes.reads] at isRead
  exact (ReadAnalysis.readAt_eq_ok (members op isOp)).1 isRead

theorem mapM_readAt :
    ops.mapM (fun op => ReadAnalysis.readAt analysis.reads op slot) = .ok (inputsAt slot ops) := by
  induction ops with
  | nil => rfl
  | cons op rest ih =>
    obtain ⟨s, isInput, isRead, -⟩ := exists_input describes members reads (List.mem_cons_self)
    have later := ih (fun op isOp => members op (List.mem_cons_of_mem _ isOp))
      fun op isOp => reads op (List.mem_cons_of_mem _ isOp)
    have parts : inputsAt slot (op :: rest) = s :: inputsAt slot rest :=
      List.filterMap_cons_some isInput
    rw [List.mapM_cons, isRead, later, parts]
    rfl

theorem sortOperators_eq (distinct : start.Nodup)
    (arranges : a.Arranges analysis.membership start) :
    sortOperators analysis a.positions slot ops = .ok (sortedBy a.order slot ops) := by
  have keyed : ∀ op ∈ ops, readKey analysis a.positions slot op = .ok (keyAt a.order slot op) := by
    intro op isOp
    obtain ⟨s, isInput, isRead, inside⟩ := exists_input describes members reads isOp
    obtain ⟨i, isAt, isPosition⟩ := arranges.exists_position inside
    rw [readKey, isRead, Except.ok_bind, isPosition, keyAt_of_input isInput,
      Distinct.idxOf_eq (arranges.perm.nodup_iff.2 distinct) isAt]
    rfl
  have sorted : RunSort.stableSort (fun a b : Operator × ReadKey => ReadKey.before a.2 b.2)
      (ReadKey.compares ·.2) (ops.map fun op => (op, keyAt a.order slot op)) =
        (sortedBy a.order slot ops).map fun op => (op, keyAt a.order slot op) :=
    RunSort.stableSort_map (fun _ _ => rfl) (fun _ => rfl) ops
  rw [sortOperators, checkKeys_eq_ok fun op isOp => ⟨_, keyed op isOp⟩, Except.ok_bind,
    Except.mapM_eq_ok keyed, Except.ok_bind, ← List.map_prod_left_eq_zip, sorted]
  refine congrArg Except.ok ?_
  rw [List.map_map]
  exact List.map_id _

end Sorting

end Refine

end BatchGraph
