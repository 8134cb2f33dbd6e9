import BatchGraph.Proofs.Dependency.Derived
import BatchGraph.Proofs.Hazard

/-!
The derived graph is the conflict relation, and nothing else.

Derivation is refused if and only if two operators write to common memory in the same role
(`DoubleWrite`), and the message names two such operators.  Otherwise the operators themselves, each
of them once, are the sources of the graph, and its edges are the conflicts.  Both only depend on
which operators there are, not on their order.
-/

namespace BatchGraph

/-- Two operators set, or both of them update, signals that may share memory. -/
structure DoubleWrite (ops : List Operator) (role : Role) (a b : Operator) (s t : Signal) :
    Prop where
  writes : role = .sets ∨ role = .updates
  isFirst : a ∈ ops
  isSecond : b ∈ ops
  differ : a ≠ b
  first : s ∈ a.signals role
  second : t ∈ b.signals role
  shares : s.mayShareMemory t = true

/-! ## Refusals -/

namespace Access

theorem of_firstClash?_eq_some {accesses : List Access} {a b : Access}
    (found : firstClash? accesses = some (a, b)) :
    a ∈ accesses ∧ b ∈ accesses ∧ a.clash b = true := by
  induction accesses with
  | nil => cases found
  | cons access later ih =>
    unfold firstClash? at found
    split at found
    case h_1 other isOther =>
      cases found
      exact ⟨List.mem_cons_self, List.mem_cons_of_mem _ (List.mem_of_find?_eq_some isOther),
        List.find?_some isOther⟩
    case h_2 =>
      obtain ⟨isA, isB, clashes⟩ := ih found
      exact ⟨List.mem_cons_of_mem _ isA, List.mem_cons_of_mem _ isB, clashes⟩

end Access

namespace DependencyGraph

variable {ops : List Operator} {graph : DependencyGraph} {e : Error}

/-- A refusal names two operators that write to common memory. -/
theorem exists_doubleWrite_of_checkSingleWriter_eq_error {role : Role}
    (writes : role = .sets ∨ role = .updates) (failure : checkSingleWriter role ops = .error e) :
    ∃ a b s t, DoubleWrite ops role a b s t ∧
      e = .writtenTwice s.name (role = .updates) a.text b.text := by
  unfold checkSingleWriter at failure
  dsimp only at failure
  split at failure
  case h_1 => cases failure
  case h_2 a b found =>
    cases failure
    obtain ⟨base, -, found⟩ := List.exists_of_findSome?_eq_some found
    obtain ⟨isA, isB, clashes⟩ := Access.of_firstClash?_eq_some found
    obtain ⟨opA, sigA⟩ := Access.mem_ofRole.1 (Access.mem_ofBase.1 isA).1
    obtain ⟨opB, sigB⟩ := Access.mem_ofRole.1 (Access.mem_ofBase.1 isB).1
    obtain ⟨differ, shares⟩ := Access.clash_iff.1 clashes
    exact ⟨a.operator, b.operator, a.signal, b.signal,
      ⟨writes, opA, opB, differ, sigA, sigB, shares⟩, rfl⟩

theorem exists_doubleWrite_of_derive_eq_error (failure : derive ops = .error e) :
    ∃ role a b s t, DoubleWrite ops role a b s t ∧
      e = .writtenTwice s.name (role = .updates) a.text b.text := by
  rcases Except.bind_eq_error_iff.1 failure with failure | ⟨-, -, failure⟩
  · exact ⟨.sets, exists_doubleWrite_of_checkSingleWriter_eq_error (.inl rfl) failure⟩
  rcases Except.bind_eq_error_iff.1 failure with failure | ⟨-, -, failure⟩
  · exact ⟨.updates, exists_doubleWrite_of_checkSingleWriter_eq_error (.inr rfl) failure⟩
  · cases failure

theorem derive_eq_error_iff :
    (∃ e, derive ops = .error e) ↔ ∃ role a b s t, DoubleWrite ops role a b s t := by
  constructor
  · intro fails
    obtain ⟨e, failure⟩ := fails
    obtain ⟨role, a, b, s, t, double, -⟩ := exists_doubleWrite_of_derive_eq_error failure
    exact ⟨role, a, b, s, t, double⟩
  · intro holds
    obtain ⟨role, a, b, s, t, double⟩ := holds
    cases result : derive ops with
    | error e => exact ⟨e, rfl⟩
    | ok graph =>
      have apart := mayShareMemory_eq_false_of_derive result role double.writes double.isFirst
        double.isSecond double.differ double.first double.second
      rw [double.shares] at apart
      cases apart

/-! ## Sources -/

/-- Inserting behind a source that is known leaves the sources as they are. -/
theorem sources_insert {g : DependencyGraph} {source : Operator} (successors : List Operator)
    (known : source ∈ g.entries.map (·.1)) :
    (g.insert source successors).entries.map (·.1) = g.entries.map (·.1) := by
  have found : g.entries.any (·.1 = source) = true := by simpa using known
  rw [insert, if_pos found, List.map_map]
  rfl

theorem sources_foldl_insert {g : DependencyGraph} {edges : List (Operator × Operator)}
    (known : ∀ edge ∈ edges, edge.1 ∈ g.entries.map (·.1)) :
    (edges.foldl (fun g (a, b) => g.insert a [b]) g).entries.map (·.1) = g.entries.map (·.1) := by
  induction edges generalizing g with
  | nil => rfl
  | cons edge edges ih =>
    rw [List.forall_mem_cons] at known
    have kept := sources_insert [edge.2] known.1
    rw [List.foldl_cons, ih (by rw [kept]; exact known.2), kept]

/-- Every operator is a source, once, in the order of the list. -/
theorem sources_derive (success : derive ops = .ok graph) :
    graph.entries.map (·.1) = ops.eraseDups := by
  obtain ⟨-, -, rfl⟩ := derive_eq_ok success
  have start : (ops.eraseDups.map fun op => (op, ([] : List Operator))).map (·.1) =
      ops.eraseDups := by
    rw [List.map_map]
    exact List.map_id _
  refine (sources_foldl_insert fun (a, b) isEdge => ?_).trans start
  obtain ⟨roles, -, conflict⟩ := List.mem_flatMap.1 isEdge
  rw [start]
  exact List.mem_eraseDups.2 (mem_conflicts.1 conflict).1

/-! ## The conflict relation -/

theorem DoubleWrite.congr {ops' : List Operator} (same : ∀ op, op ∈ ops' ↔ op ∈ ops) {role : Role}
    {a b : Operator} {s t : Signal} (double : DoubleWrite ops role a b s t) :
    DoubleWrite ops' role a b s t :=
  { double with
    isFirst := (same a).2 double.isFirst
    isSecond := (same b).2 double.isSecond }

/-- Derivation is refused exactly if two operators write to common memory, which the message names;
otherwise the operators are the sources of the graph and the conflicts its edges.  A list with the
same operators in any order is refused as well, or has the same edges. -/
theorem derive_conflicts (ops : List Operator) :
    ((∃ e, derive ops = .error e) ↔ ∃ role a b s t, DoubleWrite ops role a b s t) ∧
    (∀ e, derive ops = .error e → ∃ role a b s t, DoubleWrite ops role a b s t ∧
      e = .writtenTwice s.name (role = .updates) a.text b.text) ∧
    ((¬ ∃ role a b s t, DoubleWrite ops role a b s t) → ∃ graph, derive ops = .ok graph ∧
      graph.entries.map (·.1) = ops.eraseDups ∧
      ∀ a b, graph.Edge a b ↔ a ∈ ops ∧ b ∈ ops ∧ a ≠ b ∧ ∃ roles ∈ Role.orderedPairs,
        ∃ s ∈ a.signals roles.1, ∃ t ∈ b.signals roles.2, s.mayShareMemory t = true) ∧
    ∀ ops', (∀ op, op ∈ ops' ↔ op ∈ ops) →
      ((∃ e, derive ops' = .error e) ↔ ∃ e, derive ops = .error e) ∧
      ∀ graph, derive ops = .ok graph →
        ∃ graph', derive ops' = .ok graph' ∧ ∀ a b, graph'.Edge a b ↔ graph.Edge a b := by
  have succeeds (ops : List Operator) (fits : ¬ ∃ e, derive ops = .error e) :
      ∃ graph, derive ops = .ok graph := by
    cases result : derive ops with
    | error e => exact absurd ⟨e, result⟩ fits
    | ok graph => exact ⟨graph, rfl⟩
  refine ⟨derive_eq_error_iff, fun e => exists_doubleWrite_of_derive_eq_error, fun single => ?_,
    fun ops' same => ?_⟩
  · obtain ⟨graph, success⟩ := succeeds ops (mt derive_eq_error_iff.1 single)
    exact ⟨graph, success, sources_derive success, fun a b => derive_edge_iff success⟩
  · have fails : (∃ e, derive ops' = .error e) ↔ ∃ e, derive ops = .error e := by
      rw [derive_eq_error_iff, derive_eq_error_iff]
      constructor
      · rintro ⟨role, a, b, s, t, double⟩
        exact ⟨role, a, b, s, t, DoubleWrite.congr (fun op => (same op).symm) double⟩
      · rintro ⟨role, a, b, s, t, double⟩
        exact ⟨role, a, b, s, t, DoubleWrite.congr same double⟩
    refine ⟨fails, fun graph success => ?_⟩
    obtain ⟨graph', success'⟩ := succeeds ops' fun failure => by
      obtain ⟨e, failure⟩ := fails.1 failure
      rw [success] at failure
      cases failure
    refine ⟨graph', success', fun a b => ?_⟩
    rw [derive_edge_iff success', derive_edge_iff success, same, same]

open Planner in
/-- Two resets of one number are refused; one of them and a reader are not, in whichever order. -/
theorem derive_conflicts_cell :
    (∃ e, derive [writer, .reset 3 cell 0 none] = .error e) ∧
      (∃ graph, derive [reader, writer] = .ok graph ∧ graph.Edge writer reader) ∧
      ∃ graph, derive [writer, reader] = .ok graph ∧ graph.Edge writer reader := by
  have refused : DoubleWrite [writer, .reset 3 cell 0 none] .sets writer (.reset 3 cell 0 none)
      cell cell :=
    ⟨.inl rfl, by decide, by decide, by decide, by decide, by decide, by decide +kernel⟩
  have success : derive [reader, writer] = .ok ⟨[(reader, []), (writer, [reader])]⟩ := by
    decide +kernel
  have single : ¬ ∃ role a b s t, DoubleWrite [reader, writer] role a b s t := by
    rw [← derive_eq_error_iff, success]
    exact fun ⟨_, failure⟩ => nomatch failure
  obtain ⟨-, -, succeeds, reorders⟩ := derive_conflicts [reader, writer]
  obtain ⟨graph, derived, -, edge_iff⟩ := succeeds single
  have edge : graph.Edge writer reader := (edge_iff writer reader).2 ⟨by decide, by decide,
    by decide, (.sets, .reads), by decide, cell, by decide, cell, by decide, by decide +kernel⟩
  obtain ⟨graph', derived', same⟩ :=
    (reorders [writer, reader] fun op => by simp [or_comm]).2 graph derived
  exact ⟨(derive_conflicts _).1.2 ⟨_, _, _, _, _, refused⟩, ⟨graph, derived, edge⟩,
    graph', derived', (same writer reader).2 edge⟩

end DependencyGraph

end BatchGraph
