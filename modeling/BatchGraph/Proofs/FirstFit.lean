import Mathlib.Data.List.Infix
import Mathlib.Data.Finset.Basic
import BatchGraph.Proofs.Mergeable

/-!
First fit divides operators by mergeability.

A candidate is mergeable with at most one of the groups at hand, so it does not matter which of them
is asked first.  Hence every old group keeps its place and is joined by exactly the candidates that
are mergeable with it (`getElem?_assignToGroups`), and in the end operators are together if and only
if they are mergeable (`Divided.together_iff`).  Both say nothing of the order of the candidates, so
the classes do not depend on it (`exists_class_of_perm`).
-/

namespace BatchGraph

variable {op : Operator} {group : List Operator} {groups : List (List Operator)}
  {candidates : List Operator}

namespace Divided

theorem assign (divided : Divided groups) (candidates : List Operator) :
    Divided (assignToGroups groups candidates) := by
  induction candidates generalizing groups with
  | nil => exact divided
  | cons op candidates ih => exact ih divided.firstFit

/-- Different operators are in one group if and only if they are mergeable. -/
theorem together_iff (divided : Divided groups) {a b : Operator} (isA : a ∈ groups.flatten)
    (isB : b ∈ groups.flatten) (differ : a ≠ b) :
    (∃ group ∈ groups, a ∈ group ∧ b ∈ group) ↔ mergeablePair a b = true := by
  constructor
  · rintro ⟨group, isGroup, inGroup, inGroup'⟩
    exact divided.together group isGroup a inGroup b inGroup' differ
  · intro merges
    obtain ⟨group, isGroup, inGroup⟩ := List.mem_flatten.1 isA
    exact ⟨group, isGroup, inGroup, divided.mem_of_mergeablePair isGroup inGroup isB merges⟩

/-- An operator that a later group takes is refused by the first one. -/
theorem refused_of_joins (divided : Divided (group :: groups)) {other : List Operator}
    (isOther : other ∈ groups) (joins : mergeable op other = true) :
    mergeable op group = false := by
  have takes := (mergeable_iff_forall
    (divided.together other (List.mem_cons_of_mem group isOther))).1 joins
  obtain ⟨b, inOther⟩ := List.exists_mem_of_ne_nil other
    (divided.nonempty other (List.mem_cons_of_mem group isOther))
  obtain ⟨a, inGroup⟩ := List.exists_mem_of_ne_nil group (divided.nonempty group List.mem_cons_self)
  rw [Bool.eq_false_iff]
  intro joins'
  have takes' := (mergeable_iff_forall (divided.together group List.mem_cons_self)).1 joins'
  have link : mergeablePair a b = true :=
    mergeablePair_trans (by rw [mergeablePair_comm]; exact takes' a inGroup) (takes b inOther)
  rw [(List.pairwise_cons.1 divided.separate).1 other isOther a inGroup b inOther] at link
  cases link

theorem tail (divided : Divided (group :: groups)) : Divided groups where
  nonempty other isOther := divided.nonempty other (List.mem_cons_of_mem group isOther)
  together other isOther := divided.together other (List.mem_cons_of_mem group isOther)
  separate := (List.pairwise_cons.1 divided.separate).2

/-! ## Old groups -/

/-- A group stays in its place, and the operator joins it if and only if they are mergeable. -/
theorem getElem?_firstFit (divided : Divided groups) {i : Nat} (isAt : groups[i]? = some group) :
    (BatchGraph.firstFit op groups)[i]? =
      some (group ++ if mergeable op group = true then [op] else []) := by
  induction groups generalizing i with
  | nil => cases isAt
  | cons first groups ih =>
    unfold BatchGraph.firstFit
    cases i with
    | zero =>
      obtain rfl : first = group := Option.some.inj isAt
      split
      · rfl
      · rw [List.append_nil]
        rfl
    | succ i =>
      rw [List.getElem?_cons_succ] at isAt
      split
      case isTrue joins =>
        have refused : ¬ mergeable op group = true := by
          intro joins'
          rw [divided.refused_of_joins (List.mem_of_getElem? isAt) joins'] at joins
          cases joins
        rw [if_neg refused, List.append_nil, List.getElem?_cons_succ, isAt]
      case isFalse =>
        rw [List.getElem?_cons_succ]
        exact ih divided.tail isAt

end Divided

/-- What joins a group does not change what it takes. -/
theorem mergeable_append (nonempty : group ≠ []) (more : List Operator) :
    mergeable op (group ++ more) = mergeable op group := by
  obtain ⟨first, rest, rfl⟩ := List.exists_cons_of_ne_nil nonempty
  rfl

/-- An old group is joined by the candidates that are mergeable with it, in their order. -/
theorem Divided.getElem?_assignToGroups (divided : Divided groups) {i : Nat}
    (isAt : groups[i]? = some group) :
    (assignToGroups groups candidates)[i]? =
      some (group ++ candidates.filter (mergeable · group)) := by
  induction candidates generalizing groups group with
  | nil => rw [List.filter_nil, List.append_nil]; exact isAt
  | cons op candidates ih =>
    have nonempty := divided.nonempty group (List.mem_of_getElem? isAt)
    have joined : (BatchGraph.firstFit op groups)[i]? = some _ := divided.getElem?_firstFit isAt
    have later := ih divided.firstFit joined
    simp only [mergeable_append nonempty] at later
    rw [assignToGroups, List.foldl_cons, ← assignToGroups, later, List.append_assoc,
      List.filter_cons]
    split <;> rfl

/-! ## The order of the candidates -/

/-- The groups as sets. -/
def classes (groups : List (List Operator)) : Finset (Finset Operator) :=
  (groups.map List.toFinset).toFinset

/-- Groups of the same operators that are divided alike have the same members. -/
theorem Divided.classes_subset {groups' : List (List Operator)} (divided : Divided groups)
    (divided' : Divided groups') (same : groups.flatten ⊆ groups'.flatten)
    (same' : groups'.flatten ⊆ groups.flatten) : classes groups ⊆ classes groups' := by
  intro members isClass
  rw [classes, List.mem_toFinset, List.mem_map] at isClass ⊢
  obtain ⟨group, isGroup, rfl⟩ := isClass
  obtain ⟨a, inGroup⟩ := List.exists_mem_of_ne_nil group (divided.nonempty group isGroup)
  obtain ⟨group', isGroup', inGroup'⟩ :=
    List.mem_flatten.1 (same (List.mem_flatten.2 ⟨group, isGroup, inGroup⟩))
  refine ⟨group', isGroup', ?_⟩
  ext b
  rw [List.mem_toFinset, List.mem_toFinset]
  by_cases differ : a = b
  · subst differ
    exact iff_of_true inGroup' inGroup
  constructor
  · intro inside
    have merges := divided'.together group' isGroup' a inGroup' b inside differ
    exact divided.mem_of_mergeablePair isGroup inGroup
      (same' (List.mem_flatten.2 ⟨group', isGroup', inside⟩)) merges
  · intro inside
    have merges := divided.together group isGroup a inGroup b inside differ
    exact divided'.mem_of_mergeablePair isGroup' inGroup'
      (same (List.mem_flatten.2 ⟨group, isGroup, inside⟩)) merges

theorem Divided.classes_assign_eq (divided : Divided groups) {candidates shuffled : List Operator}
    (perm : candidates.Perm shuffled) :
    classes (assignToGroups groups candidates) = classes (assignToGroups groups shuffled) := by
  have same : (assignToGroups groups candidates).flatten.Perm
      (assignToGroups groups shuffled).flatten :=
    (assignToGroups_perm groups candidates).trans
      ((perm.append_left _).trans (assignToGroups_perm groups shuffled).symm)
  refine Finset.Subset.antisymm ?_ ?_
  · exact (divided.assign candidates).classes_subset (divided.assign shuffled) same.subset
      same.symm.subset
  · exact (divided.assign shuffled).classes_subset (divided.assign candidates) same.symm.subset
      same.subset

/-! ## The whole run -/

/-- First fit computes the quotient by mergeability: groups that are divided by it stay so, in their
places and in front of what joins them; every candidate is in one group, once; operators are together
if and only if they are mergeable; and whatever the order of the candidates, the groups are the same
as sets. -/
theorem assignToGroups_quotient (divided : Divided groups) (distinct : candidates.Nodup)
    (fresh : ∀ op ∈ candidates, op ∉ groups.flatten) :
    Divided (assignToGroups groups candidates) ∧
    (∀ (i : Nat) (group : List Operator), groups[i]? = some group →
      ∃ group', (assignToGroups groups candidates)[i]? = some group' ∧ group <+: group') ∧
    (∀ op ∈ candidates, (assignToGroups groups candidates).flatten.count op = 1) ∧
    (∀ a ∈ (assignToGroups groups candidates).flatten,
      ∀ b ∈ (assignToGroups groups candidates).flatten, a ≠ b →
        ((∃ group ∈ assignToGroups groups candidates, a ∈ group ∧ b ∈ group) ↔
          mergeable a [b] = true)) ∧
    ∀ shuffled : List Operator, candidates.Perm shuffled →
      classes (assignToGroups groups shuffled) = classes (assignToGroups groups candidates) := by
  have result := divided.assign candidates
  refine ⟨result, fun i group isAt => ?_, fun op isCandidate => ?_,
    fun a isA b isB => result.together_iff isA isB,
    fun shuffled perm => (divided.classes_assign_eq perm).symm⟩
  · exact ⟨_, divided.getElem?_assignToGroups isAt, List.prefix_append group _⟩
  · rw [(assignToGroups_perm groups candidates).count_eq, List.count_append,
      List.count_eq_zero.2 (fresh op isCandidate), List.count_eq_one_of_mem distinct isCandidate]

/-- A node without signals. -/
def probe (id : Nat) : Operator := .node id [] [] [] [] none

/-- A reset joins the reset at hand, whichever candidate comes first; nodes stay alone. -/
theorem assignToGroups_quotient_clear :
    assignToGroups [[clear 0], [probe 1]] [probe 2, clear 3] =
        [[clear 0, clear 3], [probe 1], [probe 2]] ∧
      Divided [[clear 0, clear 3], [probe 1], [probe 2]] ∧
      [clear 0, clear 3, probe 1, probe 2].count (clear 3) = 1 ∧
      classes (assignToGroups [[clear 0], [probe 1]] [clear 3, probe 2]) =
        classes [[clear 0, clear 3], [probe 1], [probe 2]] := by
  have start : Divided [[clear 0], [probe 1]] := by
    constructor <;> decide +kernel
  have fitted : assignToGroups [[clear 0], [probe 1]] [probe 2, clear 3] =
      [[clear 0, clear 3], [probe 1], [probe 2]] := by decide +kernel
  have distinct : [probe 2, clear 3].Nodup := by decide
  obtain ⟨divided, -, once, -, orderFree⟩ :=
    assignToGroups_quotient start distinct (by decide)
  rw [fitted] at divided once orderFree
  exact ⟨fitted, divided, once (clear 3) (by simp), orderFree _ (List.Perm.swap _ _ [])⟩

end BatchGraph
