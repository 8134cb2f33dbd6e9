import BatchGraph.Dependency.Toposort
import BatchGraph.Proofs.Dependency.Acyclic
import BatchGraph.Proofs.Distinct
import Mathlib.Data.List.Nodup
import Mathlib.Data.List.Perm.Lattice

/-!
The topological order takes nodes only behind all of their predecessors, and as many as possible.

The invariant of the loop is `Taking`: a degree counts the edges from nodes that are not taken, and
the nodes of degree zero are those that are taken or queued.  It is kept by taking the first node of
the queue (`Taking.step`), and so holds until the queue is empty; then every node that is left has a
predecessor that is left (`toposort_spec`).  Hence exactly the acyclic tables can be ordered.
-/

namespace BatchGraph

/-- An edge of the table leads from `i` to `j`. -/
def Leads (successors : List (List Nat)) (i j : Nat) : Prop := j ∈ (successors[i]?).getD []

theorem Leads.lt_length {successors : List (List Nat)} {i j : Nat} (edge : Leads successors i j) :
    i < successors.length := by
  by_contra outside
  simp [Leads, List.getElem?_eq_none (Nat.le_of_not_lt outside)] at edge

/-! ## Removing edges -/

theorem getElem?_modify_pred (degrees : List Nat) (target j : Nat) :
    (degrees.modify target (· - 1))[j]? =
      (degrees[j]?).map fun degree => if target = j then degree - 1 else degree := by
  rw [List.getElem?_modify]
  rfl

/-- Of each degree as many edges are removed as there are. -/
theorem getElem?_release (degrees targets : List Nat) (j : Nat) :
    (release degrees targets).1[j]? = (degrees[j]?).map (· - targets.count j) := by
  induction targets generalizing degrees with
  | nil => simp [release]
  | cons target targets ih =>
    simp only [release]
    rw [ih, getElem?_modify_pred, Option.map_map, List.count_cons]
    congr 1
    funext degree
    simp only [Function.comp, beq_iff_eq]
    split <;> omega

/-- There are as many edges as are to be removed. -/
def Counted (degrees targets : List Nat) : Prop :=
  ∀ j ∈ targets, ∃ degree, degrees[j]? = some degree ∧ targets.count j ≤ degree

theorem Counted.tail {degrees targets : List Nat} {target : Nat}
    (counted : Counted degrees (target :: targets)) :
    Counted (degrees.modify target (· - 1)) targets := by
  intro j member
  obtain ⟨degree, isDegree, enough⟩ := counted j (List.mem_cons_of_mem target member)
  rw [List.count_cons] at enough
  refine ⟨_, by rw [getElem?_modify_pred, isDegree]; rfl, ?_⟩
  split
  · simp_all
    omega
  · simp_all

/-- The nodes whose last edge was removed are freed. -/
theorem Counted.mem_release_iff {degrees targets : List Nat} (counted : Counted degrees targets)
    (j : Nat) : j ∈ (release degrees targets).2 ↔
      j ∈ targets ∧ degrees[j]? = some (targets.count j) := by
  induction targets generalizing degrees with
  | nil => simp [release]
  | cons target targets ih =>
    obtain ⟨degree, isDegree, enough⟩ := counted target List.mem_cons_self
    rw [List.count_cons_self] at enough
    have freed := ih counted.tail
    have last : (degrees.modify target (· - 1))[target]? = some (degree - 1) := by
      rw [getElem?_modify_pred, isDegree]
      simp
    simp only [release]
    by_cases same : j = target
    · subst same
      have repeated := List.count_pos_iff (l := targets) (a := j)
      rw [last] at freed
      rw [last, isDegree, List.count_cons_self]
      simp only [Option.some.injEq] at *
      split
      · simp only [List.mem_cons_self, true_and, true_iff]
        omega
      · rw [freed, ← repeated]
        simp only [List.mem_cons_self, true_and]
        omega
    · have other : (degrees.modify target (· - 1))[j]? = degrees[j]? := by
        rw [getElem?_modify_pred]
        simp [Ne.symm same]
      have count : (target :: targets).count j = targets.count j := by
        simp [Ne.symm same]
      rw [other] at freed
      rw [count]
      split <;> simp [freed, same]

/-- No node is freed twice. -/
theorem Counted.nodup_release {degrees targets : List Nat} (counted : Counted degrees targets) :
    (release degrees targets).2.Nodup := by
  induction targets generalizing degrees with
  | nil => exact List.nodup_nil
  | cons target targets ih =>
    simp only [release]
    split
    case isTrue freed =>
      refine List.nodup_cons.2 ⟨fun again => ?_, ih counted.tail⟩
      obtain ⟨repeated, left⟩ := (counted.tail.mem_release_iff target).1 again
      have positive := List.count_pos_iff.2 repeated
      rw [freed, Option.some.injEq] at left
      omega
    case isFalse => exact ih counted.tail

/-- Of targets without repetitions those are freed to which one edge was left. -/
theorem Counted.release_snd {degrees targets : List Nat} (counted : Counted degrees targets)
    (once : targets.Nodup) :
    (release degrees targets).2 = targets.filter fun j => degrees[j]? = some 1 := by
  induction targets generalizing degrees with
  | nil => rfl
  | cons target targets ih =>
    rw [List.nodup_cons] at once
    obtain ⟨degree, isDegree, enough⟩ := counted target List.mem_cons_self
    rw [List.count_cons_self] at enough
    have others : (targets.filter fun j => (degrees.modify target (· - 1))[j]? = some 1) =
        targets.filter fun j => degrees[j]? = some 1 := by
      refine List.filter_congr fun j later => ?_
      have differ : target ≠ j := fun same => once.1 (same ▸ later)
      rw [getElem?_modify_pred]
      simp [differ]
    have last : (degrees.modify target (· - 1))[target]? = some 0 ↔ degree = 1 := by
      rw [getElem?_modify_pred, isDegree]
      simp only [Option.map_some, if_true, Option.some.injEq]
      omega
    simp only [release, last]
    rw [ih counted.tail once.2, others, List.filter_cons]
    simp [isDegree]

/-! ## Taking nodes -/

section Table

variable {successors : List (List Nat)}

/-- The edges to `j` from nodes that are not taken, counted with repetitions. -/
def edgesInto (successors : List (List Nat)) (taken : List Nat) (j : Nat) : Nat :=
  (((List.range successors.length).filter fun i => !taken.contains i).flatMap fun i =>
    (successors[i]?).getD []).count j

theorem edgesInto_eq_zero_iff {taken : List Nat} {j : Nat} :
    edgesInto successors taken j = 0 ↔ ∀ i, Leads successors i j → i ∈ taken := by
  simp only [edgesInto, List.count_eq_zero, List.mem_flatMap, List.mem_filter, List.mem_range,
    not_exists, not_and]
  constructor
  · intro none i edge
    by_contra left
    exact none i ⟨edge.lt_length, by simpa using left⟩ edge
  · rintro all i ⟨-, left⟩ edge
    simp [all i edge] at left

/-- Taking a node removes its edges. -/
theorem edgesInto_append {taken : List Nat} {node : Nat} (inside : node < successors.length)
    (left : node ∉ taken) (j : Nat) :
    edgesInto successors taken j =
      ((successors[node]?).getD []).count j + edgesInto successors (taken ++ [node]) j := by
  have split : ((List.range successors.length).filter fun i => !taken.contains i).Perm
      (node :: (List.range successors.length).filter fun i => !(taken ++ [node]).contains i) := by
    refine (List.perm_ext_iff_of_nodup (List.nodup_range.filter _)
      (List.nodup_cons.2 ⟨by simp, List.nodup_range.filter _⟩)).2 fun i => ?_
    by_cases same : i = node
    · simp [same, inside, left]
    · simp [same]
  rw [edgesInto, (split.flatMap_right _).count_eq, List.flatMap_cons, List.count_append]
  rfl

/-- Degrees count the edges from nodes that are not taken, and the nodes of degree zero are those
that are taken or queued. -/
structure Taking (successors : List (List Nat)) (taken degrees queue : List Nat) : Prop where
  degree : ∀ j < successors.length, degrees[j]? = some (edgesInto successors taken j)
  once : (taken ++ queue).Nodup
  inside : ∀ i ∈ taken ++ queue, i < successors.length
  free : ∀ j < successors.length, edgesInto successors taken j = 0 → j ∈ taken ++ queue
  ready : ∀ j ∈ taken ++ queue, edgesInto successors taken j = 0

namespace Taking

variable {taken degrees queue : List Nat} {node : Nat}

theorem start : Taking successors [] (indegrees successors)
    ((List.range successors.length).filter fun node =>
      (indegrees successors)[node]? = some 0) := by
  have all : ((List.range successors.length).flatMap fun i => (successors[i]?).getD []) =
      successors.flatten := by
    rw [List.flatMap_def]
    congr 1
    apply List.ext_getElem (by simp)
    intro i _ inside
    simp [List.getElem?_eq_getElem inside]
  have degree (j : Nat) (inside : j < successors.length) :
      (indegrees successors)[j]? = some (edgesInto successors [] j) := by
    simp [indegrees, edgesInto, inside, all]
  refine ⟨degree, List.nodup_range.filter _, fun i queued => ?_, fun j inside none => ?_,
    fun j queued => ?_⟩
  · exact List.mem_range.1 (List.mem_filter.1 queued).1
  · refine List.mem_filter.2 ⟨List.mem_range.2 inside, ?_⟩
    simp only [degree j inside, none, decide_true]
  · rw [List.nil_append, List.mem_filter, List.mem_range] at queued
    simpa [degree j queued.1] using queued.2

/-- Whatever leads to a node that is taken is taken. -/
theorem closed (taking : Taking successors taken degrees queue) (i j : Nat)
    (edge : Leads successors i j) (isTaken : j ∈ taken) : i ∈ taken :=
  edgesInto_eq_zero_iff.1 (taking.ready j (List.mem_append_left queue isTaken)) i edge

theorem ready_head (taking : Taking successors taken degrees (node :: queue)) (i : Nat)
    (edge : Leads successors i node) : i ∈ taken :=
  edgesInto_eq_zero_iff.1 (taking.ready node (by simp)) i edge

theorem head_not_mem (taking : Taking successors taken degrees (node :: queue)) : node ∉ taken :=
  fun again => (List.nodup_append.1 taking.once).2.2 node again node List.mem_cons_self rfl

/-- There are as many edges as the first node of the queue removes. -/
theorem counted (within : ∀ i j, Leads successors i j → j < successors.length)
    (taking : Taking successors taken degrees (node :: queue)) :
    Counted degrees ((successors[node]?).getD []) := by
  intro j edge
  refine ⟨_, taking.degree j (within node j edge), ?_⟩
  rw [edgesInto_append (taking.inside node (by simp)) taking.head_not_mem]
  omega

/-- A node frees the targets to which no edge is left, in the order of its row. -/
theorem freed_eq (within : ∀ i j, Leads successors i j → j < successors.length)
    (once : ((successors[node]?).getD []).Nodup)
    (taking : Taking successors taken degrees (node :: queue)) :
    (release degrees ((successors[node]?).getD [])).2 =
      ((successors[node]?).getD []).filter fun j =>
        edgesInto successors (taken ++ [node]) j = 0 := by
  rw [(taking.counted within).release_snd once]
  refine List.filter_congr fun j edge => ?_
  rw [taking.degree j (within node j edge),
    edgesInto_append (taking.inside node (by simp)) taking.head_not_mem,
    List.count_eq_one_of_mem once edge]
  simp

/-- Taking the first node of the queue frees what depends on nothing else. -/
theorem step (within : ∀ i j, Leads successors i j → j < successors.length)
    (taking : Taking successors taken degrees (node :: queue)) :
    Taking successors (taken ++ [node])
      (release degrees ((successors[node]?).getD [])).1
      (queue ++ (release degrees ((successors[node]?).getD [])).2) := by
  have inside : node < successors.length := taking.inside node (by simp)
  have drop := edgesInto_append inside taking.head_not_mem
  have counted := taking.counted within
  have rest := getElem?_release degrees ((successors[node]?).getD [])
  have once := counted.nodup_release
  have freed := counted.mem_release_iff
  generalize (release degrees ((successors[node]?).getD [])).2 = freedNodes at *
  have newly (j : Nat) (isFreed : j ∈ freedNodes) :
      0 < edgesInto successors taken j ∧ edgesInto successors (taken ++ [node]) j = 0 := by
    obtain ⟨edge, last⟩ := (freed j).1 isFreed
    rw [taking.degree j (within node j edge), Option.some.injEq] at last
    have positive := List.count_pos_iff.2 edge
    have removed := drop j
    omega
  have known (j : Nat) : j ∈ taken ++ [node] ++ (queue ++ freedNodes) ↔
      j ∈ taken ++ node :: queue ∨ j ∈ freedNodes := by
    simp [or_assoc]
  refine ⟨fun j bound => ?_, ?_, fun j member => ?_, fun j bound none => ?_, fun j member => ?_⟩
  · rw [rest, taking.degree j bound, drop j]
    simp
  · have parts : taken ++ [node] ++ (queue ++ freedNodes) =
        taken ++ node :: queue ++ freedNodes := by simp
    rw [parts, List.nodup_append]
    refine ⟨taking.once, once, fun j old k new same => ?_⟩
    have positive := (newly k new).1
    rw [← same, taking.ready j old] at positive
    exact Nat.lt_irrefl 0 positive
  · rcases (known j).1 member with old | new
    · exact taking.inside j old
    · exact within node j ((freed j).1 new).1
  · rw [known]
    by_cases before : edgesInto successors taken j = 0
    · exact .inl (taking.free j bound before)
    · have removed := drop j
      refine .inr ((freed j).2 ⟨List.count_pos_iff.1 (by omega), ?_⟩)
      rw [taking.degree j bound, removed, none, Nat.add_zero]
  · rcases (known j).1 member with old | new
    · have removed := drop j
      rw [taking.ready j old] at removed
      omega
    · exact (newly j new).2

end Taking

/-! ## The topological order -/

/-- From any state of the loop, the nodes that are taken next come behind their predecessors, and
what is left in the end has a predecessor that is left. -/
theorem takeFree_spec (within : ∀ i j, Leads successors i j → j < successors.length) (count : Nat)
    {taken degrees queue : List Nat} (taking : Taking successors taken degrees queue)
    (enough : count + taken.length = successors.length) :
    (taken ++ takeFree successors count degrees queue).Nodup ∧
      (∀ i ∈ taken ++ takeFree successors count degrees queue, i < successors.length) ∧
      (takeFree successors count degrees queue).Pairwise
        (fun earlier later => ¬ Leads successors later earlier) ∧
      ∀ j < successors.length, j ∉ taken ++ takeFree successors count degrees queue →
        ∃ i, i ∉ taken ++ takeFree successors count degrees queue ∧ Leads successors i j := by
  induction count generalizing taken degrees queue with
  | zero =>
    have once : taken.Nodup := (List.nodup_append.1 taking.once).1
    have inside : ∀ i ∈ taken, i < successors.length :=
      fun i member => taking.inside i (List.mem_append_left _ member)
    have all : taken.Perm (List.range successors.length) :=
      (once.subperm fun i member => List.mem_range.2 (inside i member)).perm_of_length_le
        (by simp; omega)
    simp only [takeFree, List.append_nil]
    exact ⟨once, inside, .nil, fun j bound left =>
      absurd (all.mem_iff.2 (List.mem_range.2 bound)) left⟩
  | succ count ih =>
    cases queue with
    | nil =>
      have once := taking.once
      have inside := taking.inside
      simp only [takeFree, List.append_nil] at *
      refine ⟨once, inside, .nil, fun j bound left => ?_⟩
      by_contra none
      apply left
      have ready : edgesInto successors taken j = 0 :=
        edgesInto_eq_zero_iff.2 fun i edge => by
          by_contra notTaken
          exact none ⟨i, notTaken, edge⟩
      simpa using taking.free j bound ready
    | cons node queue =>
      have next := ih (taking.step within) (by simp; omega)
      simp only [List.append_assoc, List.singleton_append] at next
      simp only [takeFree]
      refine ⟨next.1, next.2.1, List.pairwise_cons.2 ⟨fun later isLater edge => ?_, next.2.2.1⟩,
        next.2.2.2⟩
      -- All predecessors of the node have been taken before it.
      have ready := taking.ready_head later edge
      exact (List.nodup_append.1 next.1).2.2 later ready later (by simp [isLater]) rfl

/-- When as many nodes are taken as there are, none is queued. -/
theorem Taking.queue_eq_nil {taken degrees queue : List Nat}
    (taking : Taking successors taken degrees queue)
    (all : successors.length ≤ taken.length) : queue = [] := by
  have bound := Distinct.length_le_of_forall_lt taking.once taking.inside
  rw [List.length_append] at bound
  exact List.length_eq_zero_iff.1 (by omega)

/-- No node is queued twice, so the loop ends before it has taken more nodes than there are. -/
theorem takeFree_add (within : ∀ i j, Leads successors i j → j < successors.length) (count : Nat)
    {taken degrees queue : List Nat} (taking : Taking successors taken degrees queue)
    (enough : count + taken.length = successors.length) (more : Nat) :
    takeFree successors (count + more) degrees queue = takeFree successors count degrees queue := by
  induction count generalizing taken degrees queue with
  | zero =>
    rw [taking.queue_eq_nil (by omega)]
    cases more <;> rfl
  | succ count ih =>
    rw [Nat.succ_add]
    cases queue with
    | nil => rfl
    | cons node queue =>
      simp only [takeFree]
      rw [ih (taking.step within) (by simp; omega)]

/-- The nodes that are sorted come behind their predecessors, and what is left has a predecessor
that is left. -/
theorem toposort_spec (within : ∀ i j, Leads successors i j → j < successors.length) :
    ∃ sorted : List Nat, sorted.Nodup ∧ (∀ i ∈ sorted, i < successors.length) ∧
      sorted.Pairwise (fun earlier later => ¬ Leads successors later earlier) ∧
      (∀ j < successors.length, j ∉ sorted → ∃ i, i ∉ sorted ∧ Leads successors i j) ∧
      toposort successors = if sorted.length = successors.length then .ok sorted
        else .error (.cycle (successors.length - sorted.length)) := by
  have spec := takeFree_spec within successors.length Taking.start (by simp)
  simp only [List.nil_append] at spec
  exact ⟨_, spec.1, spec.2.1, spec.2.2.1, spec.2.2.2, rfl⟩

/-- A topological order has every node once, behind all of its predecessors. -/
theorem toposort_eq_ok (within : ∀ i j, Leads successors i j → j < successors.length)
    {order : List Nat} (success : toposort successors = .ok order) :
    order.Perm (List.range successors.length) ∧
      order.Pairwise fun earlier later => ¬ Leads successors later earlier := by
  obtain ⟨sorted, once, inside, ordered, -, result⟩ := toposort_spec within
  rw [success] at result
  split at result
  case isTrue all =>
    cases result
    have subperm := once.subperm fun i member => List.mem_range.2 (inside i member)
    exact ⟨subperm.perm_of_length_le (by simp [all]), ordered⟩
  case isFalse => cases result

/-- In a topological order every node comes before those that it leads to. -/
theorem idxOf_lt_of_toposort (within : ∀ i j, Leads successors i j → j < successors.length)
    {order : List Nat} (success : toposort successors = .ok order)
    (acyclic : Acyclic (Leads successors)) {i j : Nat} (edge : Leads successors i j) :
    order.idxOf i < order.idxOf j := by
  obtain ⟨perm, ordered⟩ := toposort_eq_ok within success
  have isSorted (k : Nat) (inside : k < successors.length) : k ∈ order :=
    perm.mem_iff.2 (List.mem_range.2 inside)
  have isI := isSorted i edge.lt_length
  by_contra notBefore
  rcases (Nat.le_of_not_lt notBefore).eq_or_lt with same | behind
  · obtain rfl := Distinct.idxOf_inj isI same.symm
    exact acyclic i (.single edge)
  · exact Distinct.rel_of_idxOf_lt ordered isI behind edge

/-- Nodes of an acyclic table can be ordered. -/
theorem exists_toposort_eq_ok (within : ∀ i j, Leads successors i j → j < successors.length)
    (acyclic : Acyclic (Leads successors)) : ∃ order, toposort successors = .ok order := by
  obtain ⟨sorted, once, inside, -, left, result⟩ := toposort_spec within
  have all : (List.range successors.length).filter (fun i => !sorted.contains i) = [] := by
    by_contra some_
    obtain ⟨j, isLeft, source⟩ := acyclic.exists_source some_
    rw [List.mem_filter, List.mem_range] at isLeft
    obtain ⟨i, notSorted, edge⟩ := left j isLeft.1 (by simpa using isLeft.2)
    refine source i (List.mem_filter.2 ⟨List.mem_range.2 edge.lt_length, ?_⟩) edge
    simpa using notSorted
  have count := Distinct.length_filter_not_contains once inside
  have bound := Distinct.length_le_of_forall_lt once inside
  rw [all, List.length_nil] at count
  exact ⟨sorted, by rw [result, if_pos (by omega)]⟩

/-- Sorting fails only on a cycle. -/
theorem toposort_eq_error {error : Error} (failure : toposort successors = .error error) :
    ∃ stuck, error = .cycle stuck := by
  unfold toposort at failure
  dsimp only at failure
  split at failure
  · cases failure
  · cases failure
    exact ⟨_, rfl⟩

end Table

end BatchGraph
