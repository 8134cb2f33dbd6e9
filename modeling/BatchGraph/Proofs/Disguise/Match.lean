import BatchGraph.Dependency.Basic
import BatchGraph.Proofs.Disguise.Basic
import Mathlib.Logic.Equiv.Basic

/-!
Operators that are the same but for values, names and labels are a disguise of each other.

An identity stands for one operator, one base or one view.  Where it does (`Identified`), what is
bare tells the parts of a list of operators apart, so each of them has at most one counterpart in
another list, and exchanging counterparts is a `Disguise` (`exists_disguise`).
-/

namespace BatchGraph

/-! ## Identities -/

/-- The states of neurons; other actions have none. -/
def Action.states : Action → List Signal
  | .neurons _ states => states
  | _ => []

/-- Every signal that the operator or its action names. -/
def Operator.mentioned (op : Operator) : List Signal := op.allSignals ++ op.action.states

/-- Identities stand for what they name: no two operators of the list, no two bases and no two views
of their signals share one. -/
structure Identified (ops : List Operator) : Prop where
  operators : ∀ a ∈ ops, ∀ b ∈ ops, a.id = b.id → a = b
  bases : ∀ s ∈ ops.flatMap Operator.mentioned, ∀ t ∈ ops.flatMap Operator.mentioned,
    s.base.id = t.base.id → s.base = t.base
  views : ∀ s ∈ ops.flatMap Operator.mentioned, ∀ t ∈ ops.flatMap Operator.mentioned,
    ∀ v ∈ s.view?, ∀ w ∈ t.view?, v.id = w.id → v = w

namespace Identified

variable {ops : List Operator} (identified : Identified ops)

include identified

theorem base_eq (a b : Base) (isBase : ∃ s ∈ ops.flatMap Operator.mentioned, s.base = a)
    (isBase' : ∃ s ∈ ops.flatMap Operator.mentioned, s.base = b) (same : a.bare = b.bare) :
    a = b := by
  obtain ⟨s, member, rfl⟩ := isBase
  obtain ⟨t, member', rfl⟩ := isBase'
  exact identified.bases s member t member' (congrArg Base.id same :)

theorem view_eq (v w : View) (isView : ∃ s ∈ ops.flatMap Operator.mentioned, v ∈ s.view?)
    (isView' : ∃ s ∈ ops.flatMap Operator.mentioned, w ∈ s.view?) (same : v.bare = w.bare) :
    v = w := by
  obtain ⟨s, member, isView⟩ := isView
  obtain ⟨t, member', isView'⟩ := isView'
  exact identified.views s member t member' v isView w isView' (congrArg View.id same :)

theorem operator_eq (a b : Operator) (isHere : a ∈ ops) (isHere' : b ∈ ops)
    (same : a.unlabelled = b.unlabelled) : a = b :=
  identified.operators a isHere b isHere' (congrArg Operator.id same :)

end Identified

/-- The dependencies without the labels, values and names of the operators. -/
def DependencyGraph.bare (g : DependencyGraph) : DependencyGraph :=
  ⟨g.entries.map (Prod.map Operator.bare (List.map Operator.bare))⟩

/-! ## Counterparts -/

/-- Exchanges the elements that have the same key, where each key belongs to one element at most on
either side. -/
theorem exists_exchange {α β : Type} (key : α → β) {here there : α → Prop}
    (apart : ∀ a b, here a → here b → key a = key b → a = b)
    (apart' : ∀ a b, there a → there b → key a = key b → a = b) :
    ∃ f : α → α, Function.Injective f ∧ (∀ a, key (f a) = key a) ∧
      ∀ a b, here a → there b → key a = key b → f a = b := by
  classical
  have exchange (k : β) : ∃ σ : Equiv.Perm α, (∀ a, key a = k → key (σ a) = k) ∧
      ∀ a b, here a → there b → key a = k → key b = k → σ a = b := by
    by_cases pair : ∃ a b, here a ∧ there b ∧ key a = k ∧ key b = k
    · obtain ⟨a, b, isHere, isThere, keyA, keyB⟩ := pair
      refine ⟨Equiv.swap a b, fun c keyC => ?_, fun c e isHere' isThere' keyC keyE => ?_⟩
      · rw [Equiv.swap_apply_def]
        split
        · exact keyB
        · split
          · exact keyA
          · exact keyC
      · rw [apart c a isHere' isHere (keyC.trans keyA.symm),
          apart' e b isThere' isThere (keyE.trans keyB.symm), Equiv.swap_apply_left]
    · exact ⟨Equiv.refl α, fun a keyA => keyA, fun a b isHere isThere keyA keyB =>
        (pair ⟨a, b, isHere, isThere, keyA, keyB⟩).elim⟩
  choose σ keeps matched using exchange
  have kept (a : α) : key (σ (key a) a) = key a := keeps _ a rfl
  refine ⟨fun a => σ (key a) a, fun a b same => ?_, kept,
    fun a b isHere isThere same => matched _ a b isHere isThere rfl same.symm⟩
  dsimp only at same
  have keys : key a = key b := by rw [← kept a, ← kept b, same]
  rw [keys] at same
  exact (σ (key b)).injective same

/-- Lists with equal keys are images of each other, if elements with equal keys are. -/
theorem map_eq_of_keys {α β γ : Type} {key : α → γ} {key' : β → γ} {f : α → β} {xs : List α}
    {ys : List β} (same : ys.map key' = xs.map key)
    (step : ∀ x ∈ xs, ∀ y ∈ ys, key' y = key x → f x = y) : xs.map f = ys := by
  induction xs generalizing ys with
  | nil => exact (List.map_eq_nil_iff.1 same).symm
  | cons x xs ih =>
    obtain ⟨y, ys, rfl, first, later⟩ := List.map_eq_cons_iff.1 same
    rw [List.map_cons, step x List.mem_cons_self y List.mem_cons_self first,
      ih later fun x' isLater y' isLater' => step x' (List.mem_cons_of_mem x isLater) y'
        (List.mem_cons_of_mem y isLater')]

namespace Operator

theorem states_map (f : Signal → Signal) (action : Action) :
    (action.map f).states = action.states.map f := by
  cases action <;> rfl

theorem signals_mentioned (op : Operator) (role : Role) {s : Signal}
    (member : s ∈ op.signals role) : s ∈ op.mentioned := by
  cases role <;> simp_all [signals, mentioned, allSignals]

/-- Where the signals correspond, so do the operators, up to the label. -/
theorem unlabelled_map_eq {f : Signal → Signal} {op op' : Operator} (same : op'.bare = op.bare)
    (matched : ∀ s ∈ op.mentioned, ∀ t ∈ op'.mentioned, t.bare = s.bare → f s = t) :
    (op.map f).unlabelled = op'.unlabelled := by
  have lists {xs ys : List Signal} (within : ∀ s ∈ xs, s ∈ op.mentioned)
      (within' : ∀ t ∈ ys, t ∈ op'.mentioned) (same : ys.map Signal.bare = xs.map Signal.bare) :
      xs.map f = ys :=
    map_eq_of_keys same fun s member t member' => matched s (within s member) t (within' t member')
  have roles (role : Role) : (op.signals role).map f = op'.signals role := by
    refine lists (fun _ => op.signals_mentioned role) (fun _ => op'.signals_mentioned role) ?_
    have bare := congrArg (·.signals role) same
    cases role <;> exact bare
  have actions : op.action.map f = op'.action := by
    have bare : op'.action.map Signal.bare = op.action.map Signal.bare := congrArg action same
    have states : op.action.states.map f = op'.action.states :=
      lists (fun s member => List.mem_append_right _ member)
        (fun s member => List.mem_append_right _ member)
        (by rw [← states_map, ← states_map, bare])
    cases h : op.action <;> cases h' : op'.action <;> simp_all [Action.map, Action.states]
  have ids : op.id = op'.id := (congrArg Operator.id same).symm
  obtain ⟨_, _, _, _, _, _, _⟩ := op
  obtain ⟨_, _, _, _, _, _, _⟩ := op'
  simp only [map, unlabelled, mk.injEq, and_true]
  exact ⟨ids, actions, roles .sets, roles .incs, roles .reads, roles .updates⟩

end Operator

/-! ## The disguise -/

/-- A signal is exchanged for its counterpart, if its base and its view are. -/
theorem Disguise.signal_eq (d : Disguise) {s t : Signal} (same : t.bare = s.bare)
    (base : d.base s.base = t.base)
    (view : ∀ v ∈ s.view?, ∀ w ∈ t.view?, v.bare = w.bare → d.view v = w) : d.signal s = t := by
  have views : t.view?.map View.bare = s.view?.map View.bare := congrArg Signal.view? same
  obtain ⟨b, v?, inside⟩ := s
  obtain ⟨c, w?, inside'⟩ := t
  rw [signal, Signal.mk.injEq]
  refine ⟨base, ?_⟩
  cases v? with
  | none => exact (Option.map_eq_none_iff.1 views).symm
  | some v =>
    obtain ⟨w, rfl, bare⟩ := Option.map_eq_some_iff.1 views
    exact congrArg some (view v rfl w rfl bare.symm)

/-- Whatever is the same in two lists but for values, names and labels is exchanged by one
disguise. -/
theorem exists_disguise {ops ops' : List Operator} (identified : Identified ops)
    (identified' : Identified ops') :
    ∃ d : Disguise, ∀ op ∈ ops, ∀ op' ∈ ops', op'.bare = op.bare → d.operator op = op' := by
  obtain ⟨base, base_injective, bare_base, baseOf⟩ :=
    exists_exchange Base.bare identified.base_eq identified'.base_eq
  obtain ⟨view, view_injective, bare_view, viewOf⟩ :=
    exists_exchange View.bare identified.view_eq identified'.view_eq
  let plain : Disguise := ⟨base, view, id, bare_base, bare_view, fun _ => rfl, base_injective,
    view_injective, Function.injective_id⟩
  have apart : ∀ a b, (∃ op ∈ ops, op.map plain.signal = a) →
      (∃ op ∈ ops, op.map plain.signal = b) → a.unlabelled = b.unlabelled → a = b := by
    rintro _ _ ⟨a, isHere, rfl⟩ ⟨b, isHere', rfl⟩ same
    rw [identified.operators a isHere b isHere' (congrArg Operator.id same :)]
  obtain ⟨relabel, relabel_injective, unlabelled, operatorOf⟩ :=
    exists_exchange Operator.unlabelled apart identified'.operator_eq
  refine ⟨{ plain with relabel, unlabelled, relabel_injective },
    fun op isHere op' isThere same => ?_⟩
  refine operatorOf _ _ ⟨op, isHere, rfl⟩ isThere (Operator.unlabelled_map_eq same ?_)
  intro s member t member' bare
  have isHere := List.mem_flatMap.2 ⟨op, isHere, member⟩
  have isThere := List.mem_flatMap.2 ⟨op', isThere, member'⟩
  refine plain.signal_eq bare ?_ fun v isView w isView' => viewOf v w ⟨s, isHere, isView⟩
    ⟨t, isThere, isView'⟩
  exact baseOf _ _ ⟨s, isHere, rfl⟩ ⟨t, isThere, rfl⟩ (congrArg Signal.base bare).symm

end BatchGraph
