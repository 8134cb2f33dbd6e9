import Mathlib.Data.List.Pairwise
import BatchGraph.Merge
import BatchGraph.Proofs.Number.Order

/-!
Being mergeable is symmetric and transitive, so groups are parts of classes.

Every rule of `mergeablePair` compares some property of the two operators, so `mergeablePair_comm`
and `mergeablePair_trans` follow rule by rule; nodes are mergeable with nothing, which is why there
is no reflexivity.  Hence the first member stands for its whole group (`mergeable_iff_forall`).

`Fitted` says that a list of groups is cut along these classes: the members of a group are mergeable
with each other, and members of different groups are not.  First fit keeps that, so
`assignToGroups` makes a group of every class of its candidates.  `Divided` asks this of different
members only, so a group may repeat a node; first fit keeps it as well.
-/

namespace BatchGraph

/-! ## Signals -/

namespace Signal

theorem compatible_iff {s t : Signal} :
    s.compatible t = true ↔
      s.dtype = t.dtype ∧ Shape.same (Shape.tail s.base.shape) (Shape.tail t.base.shape) = true ∧
        Shape.same (Shape.tail s.shape) (Shape.tail t.shape) = true ∧
        s.trainable = t.trainable ∧ s.minibatched = t.minibatched := by
  simp [compatible, and_assoc]

theorem compatible_comm (s t : Signal) : s.compatible t = t.compatible s := by
  rw [Bool.eq_iff_iff, compatible_iff, compatible_iff]
  rw [Shape.same_comm (Shape.tail s.base.shape), Shape.same_comm (Shape.tail s.shape)]
  simp only [eq_comm (a := s.dtype), eq_comm (a := s.trainable), eq_comm (a := s.minibatched)]

theorem compatible_trans {s t u : Signal} (first : s.compatible t = true)
    (second : t.compatible u = true) : s.compatible u = true := by
  rw [compatible_iff] at *
  obtain ⟨dtype, whole, own, trainable, minibatched⟩ := first
  obtain ⟨dtype', whole', own', trainable', minibatched'⟩ := second
  exact ⟨dtype.trans dtype', Shape.same_trans whole whole', Shape.same_trans own own',
    trainable.trans trainable', minibatched.trans minibatched'⟩

end Signal

/-! ## Operators -/

theorem sameProcess_comm (a b : String) : sameProcess a b = sameProcess b a := by
  unfold sameProcess
  grind

theorem sameProcess_trans {a b c : String} (first : sameProcess a b = true)
    (second : sameProcess b c = true) : sameProcess a c = true := by
  unfold sameProcess at *
  grind

theorem sameLeading_iff {a b : List Signal} (length : a.length = b.length) :
    sameLeading a b = true ↔
      List.Forall₂ (fun s t =>
        (Shape.leading s.shape).same (Shape.leading t.shape) = true) a b := by
  simp [sameLeading, List.forall₂_iff_zip, length]

/-- The signals of two operators correspond, role by role, and can share a batch. -/
structure Operator.Matches (a b : Operator) : Prop where
  builder : a.action.builder = b.action.builder
  lengths : ∀ role, (a.signals role).length = (b.signals role).length
  signals : List.Forall₂ (fun s t => s.compatible t = true) a.allSignals b.allSignals

theorem Operator.length_allSignals (op : Operator) :
    op.allSignals.length =
      op.sets.length + op.incs.length + op.reads.length + op.updates.length := by
  simp [allSignals, Nat.add_assoc]

theorem mergeablePair_iff {a b : Operator} :
    mergeablePair a b = true ↔ a.Matches b ∧ mergeableActions a b = true := by
  have lengths : (Role.all.all fun role => (a.signals role).length == (b.signals role).length) =
      true ↔ ∀ role, (a.signals role).length = (b.signals role).length := by
    simp only [Role.all, List.all_eq_true, beq_iff_eq]
    exact ⟨fun h role => h role (by cases role <;> simp), fun h role _ => h role⟩
  unfold mergeablePair
  simp only [Bool.and_eq_true, decide_eq_true_eq, lengths, List.all_eq_true]
  constructor
  · intro holds
    rcases holds with ⟨⟨⟨builder, lengths⟩, signals⟩, actions⟩
    have count : a.allSignals.length = b.allSignals.length := by
      have := lengths .sets
      have := lengths .incs
      have := lengths .reads
      have := lengths .updates
      simp only [Operator.signals, Operator.length_allSignals] at *
      omega
    exact ⟨⟨builder, lengths, List.forall₂_iff_zip.2 ⟨count, signals _⟩⟩, actions⟩
  · intro holds
    rcases holds with ⟨⟨builder, lengths, signals⟩, actions⟩
    exact ⟨⟨⟨builder, lengths⟩, fun pair member => (List.forall₂_iff_zip.1 signals).2 member⟩,
      actions⟩

namespace Operator.Matches

variable {a b c : Operator}

theorem symm (h : a.Matches b) : b.Matches a where
  builder := h.builder.symm
  lengths role := (h.lengths role).symm
  signals := h.signals.flip.imp fun s t compatible => by rwa [Signal.compatible_comm]

theorem trans (first : a.Matches b) (second : b.Matches c) : a.Matches c where
  builder := first.builder.trans second.builder
  lengths role := (first.lengths role).trans (second.lengths role)
  signals := forall₂_trans first.signals second.signals Signal.compatible_trans

end Operator.Matches

theorem mergeableActions_symm {a b : Operator} (matched : a.Matches b)
    (actions : mergeableActions a b = true) : mergeableActions b a = true := by
  have builder := matched.builder
  have leading := sameLeading_iff matched.signals.length_eq
  have leading' := sameLeading_iff matched.signals.length_eq.symm
  unfold mergeableActions at *
  cases first : a.action <;> cases second : b.action <;>
    simp only [first, second, Action.builder, reduceCtorEq] at builder actions ⊢
  case copy.copy =>
    rw [beq_iff_eq] at *
    exact actions.symm
  case elementwise.elementwise =>
    rw [leading] at actions
    rw [leading']
    exact actions.flip.imp fun s t same => by rwa [Number.same_comm]
  case func.func =>
    rw [beq_iff_eq] at *
    exact actions.symm
  case neurons.neurons =>
    rw [beq_iff_eq] at *
    exact actions.symm
  case process.process =>
    rw [Bool.and_eq_true, decide_eq_true_eq] at *
    exact ⟨by rw [sameProcess_comm]; exact actions.1, actions.2.symm⟩

theorem mergeableActions_trans {a b c : Operator} (first : a.Matches b) (second : b.Matches c)
    (actions : mergeableActions a b = true) (actions' : mergeableActions b c = true) :
    mergeableActions a c = true := by
  have builder := first.builder
  have builder' := second.builder
  have leading := sameLeading_iff first.signals.length_eq
  have leading' := sameLeading_iff second.signals.length_eq
  have composed := sameLeading_iff (first.trans second).signals.length_eq
  unfold mergeableActions at *
  cases left : a.action <;> cases middle : b.action <;> cases right : c.action <;>
    simp only [left, middle, right, Action.builder, reduceCtorEq]
      at builder builder' actions actions' ⊢
  case copy.copy.copy =>
    rw [beq_iff_eq] at *
    exact actions.trans actions'
  case elementwise.elementwise.elementwise =>
    rw [leading] at actions
    rw [leading'] at actions'
    rw [composed]
    exact forall₂_trans actions actions' Number.same_trans
  case func.func.func =>
    rw [beq_iff_eq] at *
    exact actions.trans actions'
  case neurons.neurons.neurons =>
    rw [beq_iff_eq] at *
    exact actions.trans actions'
  case process.process.process =>
    rw [Bool.and_eq_true, decide_eq_true_eq] at *
    exact ⟨sameProcess_trans actions.1 actions'.1, actions.2.trans actions'.2⟩

theorem mergeablePair_comm (a b : Operator) : mergeablePair a b = mergeablePair b a := by
  rw [Bool.eq_iff_iff, mergeablePair_iff, mergeablePair_iff]
  exact ⟨fun ⟨matched, actions⟩ => ⟨matched.symm, mergeableActions_symm matched actions⟩,
    fun ⟨matched, actions⟩ => ⟨matched.symm, mergeableActions_symm matched actions⟩⟩

theorem mergeablePair_trans {a b c : Operator} (first : mergeablePair a b = true)
    (second : mergeablePair b c = true) : mergeablePair a c = true := by
  rw [mergeablePair_iff] at *
  exact ⟨first.1.trans second.1, mergeableActions_trans first.1 second.1 first.2 second.2⟩

/-! ## Groups -/

/-- Different members of a group are mergeable. -/
def Together (group : List Operator) : Prop :=
  ∀ a ∈ group, ∀ b ∈ group, a ≠ b → mergeablePair a b = true

instance (group : List Operator) : Decidable (Together group) :=
  inferInstanceAs (Decidable (∀ a ∈ group, ∀ b ∈ group, a ≠ b → mergeablePair a b = true))

/-- The members of a group are mergeable with each other. -/
def MergeableGroup (group : List Operator) : Prop :=
  group.Pairwise fun a b => mergeablePair a b = true

theorem MergeableGroup.together {group : List Operator} (members : MergeableGroup group) :
    Together group := by
  have symmetric : Std.Symm fun a b => mergeablePair a b = true :=
    ⟨fun a b merges => by rwa [mergeablePair_comm]⟩
  intro a isA b isB differ
  exact members.forall isA isB differ

theorem mergeable_iff_forall {op : Operator} {group : List Operator} (together : Together group) :
    mergeable op group = true ↔ ∀ member ∈ group, mergeablePair op member = true := by
  cases group with
  | nil => simp [mergeable]
  | cons first rest =>
    constructor
    · intro joins member isMember
      by_cases same : first = member
      · exact same ▸ joins
      · exact mergeablePair_trans joins (together first List.mem_cons_self member isMember same)
    · intro all
      exact all first List.mem_cons_self

/-- A list of groups is cut along the classes of mergeable operators. -/
structure Fitted (groups : List (List Operator)) : Prop where
  nonempty : ∀ group ∈ groups, group ≠ []
  members : ∀ group ∈ groups, MergeableGroup group
  separate : groups.Pairwise fun first second =>
    ∀ a ∈ first, ∀ b ∈ second, mergeablePair a b = false

/-- No group is empty, different members of a group are mergeable, and members of two groups are not.
Unlike a fitted group, one of these may repeat an operator that is not mergeable with itself. -/
structure Divided (groups : List (List Operator)) : Prop where
  nonempty : ∀ group ∈ groups, group ≠ []
  together : ∀ group ∈ groups, Together group
  separate : groups.Pairwise fun first second =>
    ∀ a ∈ first, ∀ b ∈ second, mergeablePair a b = false

theorem Fitted.divided {groups : List (List Operator)} (fitted : Fitted groups) :
    Divided groups :=
  ⟨fitted.nonempty, fun group isGroup => (fitted.members group isGroup).together,
    fitted.separate⟩

theorem MergeableGroup.append {op : Operator} {group : List Operator}
    (members : MergeableGroup group) (joins : mergeable op group = true) :
    MergeableGroup (group ++ [op]) := by
  refine List.pairwise_append.2 ⟨members, List.pairwise_singleton _ _, ?_⟩
  intro member isMember other isOther
  rw [List.mem_singleton.1 isOther, mergeablePair_comm]
  exact (mergeable_iff_forall members.together).1 joins member isMember

theorem Together.append {op : Operator} {group : List Operator} (together : Together group)
    (joins : mergeable op group = true) : Together (group ++ [op]) := by
  have merges := (mergeable_iff_forall together).1 joins
  intro a isA b isB differ
  rcases List.mem_append.1 isA with oldA | newA
  · rcases List.mem_append.1 isB with oldB | newB
    · exact together a oldA b oldB differ
    · rw [List.mem_singleton.1 newB, mergeablePair_comm]
      exact merges a oldA
  · rcases List.mem_append.1 isB with oldB | newB
    · rw [List.mem_singleton.1 newA]
      exact merges b oldB
    · exact absurd ((List.mem_singleton.1 newA).trans (List.mem_singleton.1 newB).symm) differ

/-- Refused by the first member, an operator is mergeable with no member. -/
theorem mergeablePair_eq_false {op : Operator} {group : List Operator} (together : Together group)
    (refused : mergeable op group = false) :
    ∀ member ∈ group, mergeablePair op member = false := by
  intro member isMember
  rw [Bool.eq_false_iff]
  intro merges
  refine Bool.eq_false_iff.1 refused ((mergeable_iff_forall together).2 fun other isOther => ?_)
  by_cases same : member = other
  · exact same ▸ merges
  · exact mergeablePair_trans merges (together member isMember other isOther same)

/-! ## First fit -/

theorem firstFit_perm (op : Operator) (groups : List (List Operator)) :
    (firstFit op groups).flatten.Perm (op :: groups.flatten) := by
  induction groups with
  | nil => simp [firstFit]
  | cons group groups ih =>
    unfold firstFit
    split
    · simp [List.perm_middle]
    · simpa using (ih.append_left group).trans List.perm_middle

theorem assignToGroups_perm (groups : List (List Operator)) (candidates : List Operator) :
    (assignToGroups groups candidates).flatten.Perm (groups.flatten ++ candidates) := by
  induction candidates generalizing groups with
  | nil => simp [assignToGroups]
  | cons op candidates ih =>
    have fitted : assignToGroups groups (op :: candidates) =
        assignToGroups (firstFit op groups) candidates := rfl
    rw [fitted]
    refine (ih _).trans (((firstFit_perm op groups).append_right candidates).trans ?_)
    exact List.perm_middle.symm

/-- A group is as it was, or new, or has been joined. -/
theorem mem_firstFit {op : Operator} {groups : List (List Operator)} {group : List Operator}
    (isGroup : group ∈ firstFit op groups) :
    group ∈ groups ∨ group = [op] ∨
      ∃ old ∈ groups, mergeable op old = true ∧ group = old ++ [op] := by
  induction groups with
  | nil => exact .inr (.inl (List.mem_singleton.1 isGroup))
  | cons first groups ih =>
    unfold firstFit at isGroup
    split at isGroup
    case isTrue joins =>
      rcases List.mem_cons.1 isGroup with rfl | later
      · exact .inr (.inr ⟨first, List.mem_cons_self, joins, rfl⟩)
      · exact .inl (List.mem_cons_of_mem first later)
    case isFalse =>
      rcases List.mem_cons.1 isGroup with rfl | later
      · exact .inl List.mem_cons_self
      · refine (ih later).imp (List.mem_cons_of_mem first) (Or.imp_right ?_)
        rintro ⟨old, isOld, joined⟩
        exact ⟨old, List.mem_cons_of_mem first isOld, joined⟩

theorem Divided.firstFit {op : Operator} {groups : List (List Operator)}
    (divided : Divided groups) : Divided (firstFit op groups) := by
  refine ⟨fun group isGroup => ?nonempty, fun group isGroup => ?together, ?separate⟩
  case nonempty =>
    rcases mem_firstFit isGroup with old | rfl | ⟨old, -, -, rfl⟩
    · exact divided.nonempty group old
    · exact List.cons_ne_nil op []
    · exact List.append_ne_nil_of_right_ne_nil old (List.cons_ne_nil op [])
  case together =>
    rcases mem_firstFit isGroup with old | rfl | ⟨old, isOld, joins, rfl⟩
    · exact divided.together group old
    · intro a isA b isB differ
      exact absurd ((List.mem_singleton.1 isA).trans (List.mem_singleton.1 isB).symm) differ
    · exact (divided.together old isOld).append joins
  case separate =>
    obtain ⟨nonempty, together, separate⟩ := divided
    induction groups with
    | nil => exact List.pairwise_singleton _ [op]
    | cons group groups ih =>
      rw [List.pairwise_cons] at separate
      rw [List.forall_mem_cons] at nonempty together
      unfold BatchGraph.firstFit
      split
      case isTrue joins =>
        refine List.pairwise_cons.2 ⟨?_, separate.2⟩
        intro other isOther a inGroup b inOther
        rcases List.mem_append.1 inGroup with inside | new
        · exact separate.1 other isOther a inside b inOther
        · rw [List.mem_singleton.1 new]
          obtain ⟨first, rest, rfl⟩ := List.exists_cons_of_ne_nil nonempty.1
          rw [Bool.eq_false_iff]
          intro merges
          -- The first member would link the two groups.
          have link : mergeablePair first b = true :=
            mergeablePair_trans (by rw [mergeablePair_comm]; exact joins) merges
          rw [separate.1 other isOther first List.mem_cons_self b inOther] at link
          cases link
      case isFalse refused =>
        refine List.pairwise_cons.2 ⟨?_, ih nonempty.2 together.2 separate.2⟩
        intro other isOther a inGroup b inOther
        have known : b ∈ op :: groups.flatten :=
          (firstFit_perm op groups).mem_iff.1 (List.mem_flatten.2 ⟨other, isOther, inOther⟩)
        rcases List.mem_cons.1 known with rfl | old
        · rw [mergeablePair_comm]
          exact mergeablePair_eq_false together.1 (by simpa using refused) a inGroup
        · obtain ⟨group', isGroup', inGroup'⟩ := List.mem_flatten.1 old
          exact separate.1 group' isGroup' a inGroup b inGroup'

/-- A group holds every operator at hand that is mergeable with one of its members. -/
theorem Divided.mem_of_mergeablePair {groups : List (List Operator)} (divided : Divided groups)
    {group : List Operator} (isGroup : group ∈ groups) {a b : Operator} (inGroup : a ∈ group)
    (atHand : b ∈ groups.flatten) (merges : mergeablePair a b = true) : b ∈ group := by
  obtain ⟨other, isOther, inOther⟩ := List.mem_flatten.1 atHand
  by_cases same : group = other
  · rwa [same]
  · have symmetric : Std.Symm fun first second : List Operator =>
        ∀ a ∈ first, ∀ b ∈ second, mergeablePair a b = false :=
      ⟨fun _ _ apart a isA b isB => by rw [mergeablePair_comm]; exact apart b isB a isA⟩
    have apart := divided.separate.forall isGroup isOther same a inGroup b inOther
    rw [merges] at apart
    cases apart

namespace Fitted

theorem nil : Fitted [] := ⟨by simp, by simp, List.Pairwise.nil⟩

theorem firstFit {op : Operator} {groups : List (List Operator)} (fitted : Fitted groups) :
    Fitted (firstFit op groups) := by
  have divided : Divided (BatchGraph.firstFit op groups) := fitted.divided.firstFit
  refine ⟨divided.nonempty, fun group isGroup => ?_, divided.separate⟩
  rcases mem_firstFit isGroup with old | rfl | ⟨old, isOld, joins, rfl⟩
  · exact fitted.members group old
  · exact List.pairwise_singleton _ op
  · exact (fitted.members old isOld).append joins

theorem assign {groups : List (List Operator)} (fitted : Fitted groups)
    (candidates : List Operator) : Fitted (assignToGroups groups candidates) := by
  induction candidates generalizing groups with
  | nil => exact fitted
  | cons op candidates ih => exact ih fitted.firstFit

end Fitted

end BatchGraph
