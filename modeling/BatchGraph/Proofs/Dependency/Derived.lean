import BatchGraph.Dependency.Basic
import BatchGraph.Proofs.Dependency.Indexed
import BatchGraph.Proofs.Number.Order

/-!
The derived dependencies are the conflicts between accesses.

Two accesses of different operators conflict if their signals may share memory
(`Access.clash`, which does not depend on the order of the two).  Derivation fails exactly if two
operators clash in setting or in updating (`checkSingleWriter_eq_ok_iff`); otherwise an edge leads
from one operator to another one exactly if they clash in an earlier and a later role
(`DependencyGraph.derive_edge_iff`).
-/

namespace BatchGraph

/-! ## Shared memory -/

namespace Signal

theorem base_eq_of_mayShareMemory {s t : Signal} (shares : s.mayShareMemory t = true) :
    s.base = t.base := by
  rw [mayShareMemory, Bool.and_eq_true, decide_eq_true_eq] at shares
  exact shares.1

theorem mayShareMemory_comm (s t : Signal) : s.mayShareMemory t = t.mayShareMemory s := by
  unfold mayShareMemory
  congr 1
  · simp only [eq_comm]
  · rw [Bool.and_comm s.isView]
    split
    · rw [Bool.eq_iff_iff]
      simp only [List.any_eq_true, List.contains_iff_mem, List.mem_map]
      constructor
      · intro holds
        rcases holds with ⟨q, inT, p, inS, same⟩
        exact ⟨p, inS, q, inT, same.symm⟩
      · intro holds
        rcases holds with ⟨p, inS, q, inT, same⟩
        exact ⟨q, inT, p, inS, same.symm⟩
    · rw [Bool.and_comm]

/-- A signal that addresses an element is not empty. -/
theorem zero_lt_size_of_mem {s : Signal} {position : Number} (member : position ∈ s.elements) :
    Number.lt 0 s.size = true := by
  refine Number.zero_lt_iff.2 fun none => ?_
  have empty : s.region.size.countBelow = 0 := none
  rw [elements, Region.elements, empty] at member
  cases member

/-- Signals that address a common element may share memory. -/
theorem mayShareMemory_of_common {s t : Signal} (base : s.base = t.base) {p q : Number}
    (inS : p ∈ s.elements) (inT : q ∈ t.elements) (same : p.place = q.place) :
    s.mayShareMemory t = true := by
  unfold mayShareMemory
  rw [decide_eq_true base, Bool.true_and]
  split
  · rw [List.any_eq_true]
    refine ⟨q, inT, ?_⟩
    rw [List.contains_iff_mem]
    exact List.mem_map.2 ⟨p, inS, same⟩
  · rw [zero_lt_size_of_mem inS, zero_lt_size_of_mem inT]
    rfl

end Signal

/-! ## Accesses -/

namespace Access

theorem mem_ofRole {role : Role} {ops : List Operator} {access : Access} :
    access ∈ ofRole role ops ↔
      access.operator ∈ ops ∧ access.signal ∈ access.operator.signals role := by
  obtain ⟨op, s⟩ := access
  simp only [ofRole, List.mem_flatMap, List.mem_map, mk.injEq]
  constructor
  · intro holds
    rcases holds with ⟨op', isOp, s', isSignal, rfl, rfl⟩
    exact ⟨isOp, isSignal⟩
  · intro holds
    rcases holds with ⟨isOp, isSignal⟩
    exact ⟨op, isOp, s, isSignal, rfl, rfl⟩

theorem clash_iff {a b : Access} :
    a.clash b = true ↔ a.operator ≠ b.operator ∧ a.signal.mayShareMemory b.signal = true := by
  simp [clash]

theorem clash_comm (a b : Access) : a.clash b = b.clash a := by
  rw [Bool.eq_iff_iff, clash_iff, clash_iff, Signal.mayShareMemory_comm, ne_comm]

theorem base_eq_of_clash {a b : Access} (clashes : a.clash b = true) :
    a.signal.base = b.signal.base :=
  Signal.base_eq_of_mayShareMemory (clash_iff.1 clashes).2

theorem mem_bases {accesses : List Access} {base : Base} :
    base ∈ bases accesses ↔ ∃ access ∈ accesses, access.signal.base = base := by
  simp [bases, List.mem_eraseDups]

theorem mem_ofBase {accesses : List Access} {base : Base} {access : Access} :
    access ∈ ofBase accesses base ↔ access ∈ accesses ∧ access.signal.base = base := by
  simp [ofBase]

theorem firstClash?_eq_none_iff {accesses : List Access} :
    firstClash? accesses = none ↔ accesses.Pairwise fun a b => a.clash b = false := by
  induction accesses with
  | nil => simp [firstClash?]
  | cons a later ih =>
    rw [List.pairwise_cons, firstClash?, ← ih]
    cases found : later.find? a.clash with
    | some b =>
      have clashes := List.find?_some found
      have member := List.mem_of_find?_eq_some found
      simp only [reduceCtorEq, false_iff, not_and]
      intro apart
      rw [apart b member] at clashes
      cases clashes
    | none => simpa using fun _ => List.find?_eq_none.1 found

/-- The search finds nothing exactly if no two accesses clash. -/
theorem firstClash?_eq_none_iff_forall {accesses : List Access} :
    firstClash? accesses = none ↔ ∀ a ∈ accesses, ∀ b ∈ accesses, a.clash b = false := by
  have symmetric : Std.Symm fun a b : Access => a.clash b = false :=
    ⟨fun a b apart => by rwa [clash_comm]⟩
  rw [firstClash?_eq_none_iff]
  constructor
  · intro apart a isA b isB
    by_cases same : a = b
    · rw [same, clash]
      simp
    · exact apart.forall isA isB same
  · intro apart
    exact List.pairwise_of_forall_mem_list apart

end Access

/-! ## Writers -/

/-- Each element is written by at most one operator in this role exactly if no accesses in it
clash. -/
theorem checkSingleWriter_eq_ok_iff {role : Role} {ops : List Operator} :
    checkSingleWriter role ops = .ok () ↔
      ∀ a ∈ Access.ofRole role ops, ∀ b ∈ Access.ofRole role ops, a.clash b = false := by
  have none_iff : (Access.bases (Access.ofRole role ops)).findSome? (fun base =>
        Access.firstClash? (Access.ofBase (Access.ofRole role ops) base)) = none ↔
      ∀ a ∈ Access.ofRole role ops, ∀ b ∈ Access.ofRole role ops, a.clash b = false := by
    rw [List.findSome?_eq_none_iff]
    constructor
    · intro none a isA b isB
      rw [Bool.eq_false_iff]
      intro clashes
      have same := Access.base_eq_of_clash clashes
      have apart := Access.firstClash?_eq_none_iff_forall.1
        (none a.signal.base (Access.mem_bases.2 ⟨a, isA, rfl⟩))
      have differ := apart a (Access.mem_ofBase.2 ⟨isA, rfl⟩) b
        (Access.mem_ofBase.2 ⟨isB, same.symm⟩)
      rw [clashes] at differ
      cases differ
    · intro apart base _
      refine Access.firstClash?_eq_none_iff_forall.2 fun a isA b isB => ?_
      exact apart a (Access.mem_ofBase.1 isA).1 b (Access.mem_ofBase.1 isB).1
  rw [← none_iff, checkSingleWriter]
  split
  case h_1 none => simp [none]
  case h_2 found => simp [found]

/-! ## Edges -/

theorem mem_conflicts {earlier later : Role} {ops : List Operator} {a b : Operator} :
    (a, b) ∈ conflicts earlier later ops ↔
      a ∈ ops ∧ b ∈ ops ∧ a ≠ b ∧
        ∃ s ∈ a.signals earlier, ∃ t ∈ b.signals later, s.mayShareMemory t = true := by
  simp only [conflicts, List.mem_flatMap, List.mem_map, List.mem_filter, Access.mem_ofBase,
    Access.mem_bases, Access.mem_ofRole, Access.clash_iff, Prod.mk.injEq]
  constructor
  · intro holds
    rcases holds with ⟨base, -, x, ⟨⟨isA, isS⟩, -⟩, y, ⟨⟨⟨isB, isT⟩, -⟩, differ, shares⟩, rfl, rfl⟩
    exact ⟨isA, isB, differ, x.signal, isS, y.signal, isT, shares⟩
  · intro holds
    rcases holds with ⟨isA, isB, differ, s, isS, t, isT, shares⟩
    have same := Signal.base_eq_of_mayShareMemory shares
    exact ⟨s.base, ⟨⟨a, s⟩, ⟨isA, isS⟩, rfl⟩, ⟨a, s⟩, ⟨⟨isA, isS⟩, rfl⟩, ⟨b, t⟩,
      ⟨⟨⟨isB, isT⟩, same.symm⟩, differ, shares⟩, rfl, rfl⟩

namespace DependencyGraph

theorem mem_foldl_addSuccessor {successors known : List Operator} {b : Operator} :
    b ∈ successors.foldl addSuccessor known ↔ b ∈ known ∨ b ∈ successors := by
  induction successors generalizing known with
  | nil => simp
  | cons first rest ih =>
    rw [List.foldl_cons, ih, addSuccessor]
    split
    · grind
    · grind

/-- Insertion adds edges from one operator. -/
theorem insert_edge_iff {g : DependencyGraph} {source : Operator} {successors : List Operator}
    {a b : Operator} :
    (g.insert source successors).Edge a b ↔ g.Edge a b ∨ a = source ∧ b ∈ successors := by
  unfold insert Edge
  split
  case isTrue known =>
    obtain ⟨entry, isEntry, same⟩ := List.any_eq_true.1 known
    rw [decide_eq_true_eq] at same
    simp only [List.mem_map, exists_exists_and_eq_and]
    constructor
    · intro holds
      rcases holds with ⟨entry', isEntry', rfl, member⟩
      split at member
      · rw [mem_foldl_addSuccessor] at member
        exact member.imp (fun old => ⟨entry', isEntry', rfl, old⟩) fun new => ⟨‹_›, new⟩
      · exact .inl ⟨entry', isEntry', rfl, member⟩
    · intro holds
      rcases holds with ⟨entry', isEntry', rfl, member⟩ | ⟨rfl, member⟩
      · refine ⟨entry', isEntry', rfl, ?_⟩
        split
        · exact mem_foldl_addSuccessor.2 (.inl member)
        · exact member
      · refine ⟨entry, isEntry, same, ?_⟩
        rw [if_pos same]
        exact mem_foldl_addSuccessor.2 (.inr member)
  case isFalse => simp [or_and_right, exists_or, mem_foldl_addSuccessor, eq_comm]

theorem insert_sources {g : DependencyGraph} {source : Operator} {successors ops : List Operator}
    (sources : ∀ entry ∈ g.entries, entry.1 ∈ ops) (isSource : source ∈ ops) :
    ∀ entry ∈ (g.insert source successors).entries, entry.1 ∈ ops := by
  unfold insert
  split
  case isTrue => exact List.forall_mem_map.2 fun entry isEntry => sources entry isEntry
  case isFalse =>
    refine List.forall_mem_append.2 ⟨sources, fun entry isEntry => ?_⟩
    rwa [List.mem_singleton.1 isEntry]

theorem foldl_insert_edge_iff {g : DependencyGraph} {edges : List (Operator × Operator)}
    {a b : Operator} :
    (edges.foldl (fun g (a, b) => g.insert a [b]) g).Edge a b ↔ g.Edge a b ∨ (a, b) ∈ edges := by
  induction edges generalizing g with
  | nil => simp
  | cons edge edges ih =>
    rw [List.foldl_cons, ih, insert_edge_iff, List.mem_singleton, or_assoc, List.mem_cons,
      Prod.ext_iff]

theorem foldl_insert_sources {g : DependencyGraph} {edges : List (Operator × Operator)}
    {ops : List Operator} (sources : ∀ entry ∈ g.entries, entry.1 ∈ ops)
    (known : ∀ edge ∈ edges, edge.1 ∈ ops) :
    ∀ entry ∈ (edges.foldl (fun g (a, b) => g.insert a [b]) g).entries, entry.1 ∈ ops := by
  induction edges generalizing g with
  | nil => exact sources
  | cons edge edges ih =>
    rw [List.forall_mem_cons] at known
    exact ih (insert_sources sources known.1) known.2

/-! ## The derived graph -/

variable {ops : List Operator} {graph : DependencyGraph}

/-- A derived graph has the conflicts as edges, between operators of which no two write to the same
memory. -/
theorem derive_eq_ok (success : derive ops = .ok graph) :
    checkSingleWriter .sets ops = .ok () ∧ checkSingleWriter .updates ops = .ok () ∧
      graph = (Role.orderedPairs.flatMap fun (earlier, later) => conflicts earlier later ops).foldl
        (fun g (a, b) => g.insert a [b]) ⟨ops.eraseDups.map (·, [])⟩ := by
  obtain ⟨⟨⟩, sets, success⟩ := Except.bind_eq_ok_iff.1 success
  obtain ⟨⟨⟩, updates, success⟩ := Except.bind_eq_ok_iff.1 success
  cases success
  exact ⟨sets, updates, rfl⟩

/-- An edge leads from one operator to another one that accesses the same memory in a later role. -/
theorem derive_edge_iff (success : derive ops = .ok graph) {a b : Operator} :
    graph.Edge a b ↔ a ∈ ops ∧ b ∈ ops ∧ a ≠ b ∧ ∃ roles ∈ Role.orderedPairs,
      ∃ s ∈ a.signals roles.1, ∃ t ∈ b.signals roles.2, s.mayShareMemory t = true := by
  obtain ⟨-, -, rfl⟩ := derive_eq_ok success
  have none : ¬ Edge ⟨ops.eraseDups.map (·, [])⟩ a b := by
    intro holds
    rcases holds with ⟨entry, isEntry, -, member⟩
    obtain ⟨op, -, rfl⟩ := List.mem_map.1 isEntry
    cases member
  rw [foldl_insert_edge_iff, or_iff_right none, List.mem_flatMap]
  simp only [mem_conflicts]
  constructor
  · intro holds
    rcases holds with ⟨roles, isRoles, isA, isB, differ, clash⟩
    exact ⟨isA, isB, differ, roles, isRoles, clash⟩
  · intro holds
    rcases holds with ⟨isA, isB, differ, roles, isRoles, clash⟩
    exact ⟨roles, isRoles, isA, isB, differ, clash⟩

/-- Nobody else writes what an operator sets or updates. -/
theorem mayShareMemory_eq_false_of_derive (success : derive ops = .ok graph) (role : Role)
    (writes : role = .sets ∨ role = .updates) {a b : Operator} (isA : a ∈ ops) (isB : b ∈ ops)
    (differ : a ≠ b) {s t : Signal} (isS : s ∈ a.signals role) (isT : t ∈ b.signals role) :
    s.mayShareMemory t = false := by
  obtain ⟨sets, updates, -⟩ := derive_eq_ok success
  have single : checkSingleWriter role ops = .ok () := by
    rcases writes with rfl | rfl
    · exact sets
    · exact updates
  have apart := checkSingleWriter_eq_ok_iff.1 single ⟨a, s⟩ (Access.mem_ofRole.2 ⟨isA, isS⟩)
    ⟨b, t⟩ (Access.mem_ofRole.2 ⟨isB, isT⟩)
  rw [Bool.eq_false_iff, Ne, Access.clash_iff] at apart
  rw [Bool.eq_false_iff]
  exact fun shares => apart ⟨differ, shares⟩

theorem derive_over (success : derive ops = .ok graph) : graph.Over ops where
  sources := by
    obtain ⟨-, -, rfl⟩ := derive_eq_ok success
    refine foldl_insert_sources (fun entry isEntry => ?_) fun (a, b) isEdge => ?_
    · obtain ⟨op, isOp, rfl⟩ := List.mem_map.1 isEntry
      exact List.mem_eraseDups.1 isOp
    · obtain ⟨roles, -, clash⟩ := List.mem_flatMap.1 isEdge
      exact (mem_conflicts.1 clash).1
  targets a b edge := ((derive_edge_iff success).1 edge).2.1
  loopless a edge := ((derive_edge_iff success).1 edge).2.2.1 rfl

end DependencyGraph

end BatchGraph
