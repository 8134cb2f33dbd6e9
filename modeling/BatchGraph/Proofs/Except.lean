import Mathlib.Data.List.Forall2

/-!
Success and failure of computations in `Except`.

A stage of the library is a sequence of steps of which the first failing one decides the error.
The lemmas here take such a sequence apart: what is known of every step if all of them succeed
(`forall₂_of_mapM_eq_ok`, `of_forM_eq_ok`), that a sequence succeeds if every step does
(`mapM_eq_ok`, `forM_eq_ok`, `foldlM_eq_ok`), and which step has failed if it does not
(`exists_of_mapM_eq_error`, `exists_of_forM_eq_error`, `exists_of_foldlM_eq_error`).
-/

namespace BatchGraph

/-- Of two lists whose elements are related in pairs, every element of the first has a partner. -/
theorem exists_partner {α β : Type} {R : α → β → Prop} {xs : List α} {ys : List β}
    (pairs : List.Forall₂ R xs ys) {x : α} (member : x ∈ xs) : ∃ y ∈ ys, R x y := by
  induction pairs with
  | nil => cases member
  | cons first _ ih =>
    rcases List.mem_cons.1 member with rfl | later
    · exact ⟨_, List.mem_cons_self, first⟩
    · obtain ⟨y, isPartner, related⟩ := ih later
      exact ⟨y, List.mem_cons_of_mem _ isPartner, related⟩

namespace Except

variable {ε α β σ : Type}

/-! ## Single steps -/

theorem bind_eq_ok_iff {x : Except ε α} {f : α → Except ε β} {b : β} :
    x >>= f = .ok b ↔ ∃ a, x = .ok a ∧ f a = .ok b := by
  cases x with
  | error e => simp [bind, Except.bind]
  | ok a => simp [bind, Except.bind]

theorem bind_eq_error_iff {x : Except ε α} {f : α → Except ε β} {e : ε} :
    x >>= f = .error e ↔ x = .error e ∨ ∃ a, x = .ok a ∧ f a = .error e := by
  cases x with
  | error e' => simp [bind, Except.bind]
  | ok a => simp [bind, Except.bind]

theorem map_eq_ok_iff {x : Except ε α} {f : α → β} {b : β} :
    x.map f = .ok b ↔ ∃ a, x = .ok a ∧ f a = b := by
  cases x with
  | error e => simp [Except.map]
  | ok a => simp [Except.map]

theorem map_eq_error_iff {x : Except ε α} {f : α → β} {e : ε} :
    x.map f = .error e ↔ x = .error e := by
  cases x with
  | error e' => simp [Except.map]
  | ok a => simp [Except.map]

theorem exists_of_isOk {x : Except ε α} (isOk : x.isOk = true) : ∃ a, x = .ok a := by
  cases x with
  | error e => cases isOk
  | ok a => exact ⟨a, rfl⟩

@[simp] theorem ok_bind (a : α) (f : α → Except ε β) : Except.ok a >>= f = f a := rfl

/-! ## Steps over a list -/

/-- All results of a list of steps, if each of them has one. -/
theorem mapM_eq_ok {f : α → Except ε β} {g : α → β} {xs : List α}
    (step : ∀ x ∈ xs, f x = .ok (g x)) : xs.mapM f = .ok (xs.map g) := by
  induction xs with
  | nil => rfl
  | cons x xs ih =>
    rw [List.mapM_cons, step x List.mem_cons_self,
      ih fun y member => step y (List.mem_cons_of_mem x member)]
    rfl

/-- The results of a list of steps stand in the places of their steps. -/
theorem forall₂_of_mapM_eq_ok {f : α → Except ε β} {xs : List α} {ys : List β}
    (success : xs.mapM f = .ok ys) : List.Forall₂ (fun x y => f x = .ok y) xs ys := by
  induction xs generalizing ys with
  | nil =>
    cases success
    exact .nil
  | cons x xs ih =>
    rw [List.mapM_cons] at success
    obtain ⟨y, first, success⟩ := bind_eq_ok_iff.1 success
    obtain ⟨rest, later, success⟩ := bind_eq_ok_iff.1 success
    cases success
    exact .cons first (ih later)

/-- What is said of the results of a list of steps can be said of the steps. -/
theorem map_eq_of_mapM_eq_ok {f : α → Except ε β} {g : β → γ} {h : α → γ} {xs : List α}
    {ys : List β} (each : ∀ x ∈ xs, ∀ y, f x = .ok y → g y = h x) (success : xs.mapM f = .ok ys) :
    ys.map g = xs.map h := by
  have steps := forall₂_of_mapM_eq_ok success
  clear success
  induction steps with
  | nil => rfl
  | cons step _ ih =>
    rw [List.forall_mem_cons] at each
    rw [List.map_cons, List.map_cons, each.1 _ step, ih each.2]

/-- Every result of a list of steps is the result of one of them. -/
theorem exists_of_mem_result {f : α → Except ε β} {xs : List α} {ys : List β}
    (success : xs.mapM f = .ok ys) {y : β} (member : y ∈ ys) : ∃ x ∈ xs, f x = .ok y :=
  exists_partner (forall₂_of_mapM_eq_ok success).flip member

/-- Every step of a list that succeeds has its result among the results. -/
theorem exists_result_of_mem {f : α → Except ε β} {xs : List α} {ys : List β}
    (success : xs.mapM f = .ok ys) {x : α} (member : x ∈ xs) : ∃ y ∈ ys, f x = .ok y :=
  exists_partner (forall₂_of_mapM_eq_ok success) member

theorem exists_mapM_eq_ok {f : α → Except ε β} {xs : List α}
    (step : ∀ x ∈ xs, ∃ y, f x = .ok y) : ∃ ys, xs.mapM f = .ok ys := by
  induction xs with
  | nil => exact ⟨[], rfl⟩
  | cons x xs ih =>
    obtain ⟨y, first⟩ := step x List.mem_cons_self
    obtain ⟨ys, later⟩ := ih fun z member => step z (List.mem_cons_of_mem x member)
    exact ⟨y :: ys, by rw [List.mapM_cons, first, later]; rfl⟩

/-- A list of steps fails with the error of one of them. -/
theorem exists_of_mapM_eq_error {f : α → Except ε β} {xs : List α} {e : ε}
    (failure : xs.mapM f = .error e) : ∃ x ∈ xs, f x = .error e := by
  induction xs with
  | nil => cases failure
  | cons x xs ih =>
    rw [List.mapM_cons] at failure
    rcases bind_eq_error_iff.1 failure with first | ⟨y, -, failure⟩
    · exact ⟨x, List.mem_cons_self, first⟩
    · rcases bind_eq_error_iff.1 failure with later | ⟨ys, -, failure⟩
      · obtain ⟨z, member, fails⟩ := ih later
        exact ⟨z, List.mem_cons_of_mem x member, fails⟩
      · cases failure

theorem forM_eq_ok {f : α → Except ε PUnit} {xs : List α} (step : ∀ x ∈ xs, f x = .ok ⟨⟩) :
    xs.forM f = .ok ⟨⟩ := by
  induction xs with
  | nil => rfl
  | cons x xs ih =>
    rw [List.forM_eq_forM, List.forM_cons, step x List.mem_cons_self]
    exact ih fun y member => step y (List.mem_cons_of_mem x member)

theorem exists_of_forM_eq_error {f : α → Except ε Unit} {xs : List α} {e : ε}
    (failure : xs.forM f = .error e) : ∃ x ∈ xs, f x = .error e := by
  induction xs with
  | nil => cases failure
  | cons x xs ih =>
    rw [List.forM_eq_forM, List.forM_cons] at failure
    rcases bind_eq_error_iff.1 failure with first | ⟨_, -, later⟩
    · exact ⟨x, List.mem_cons_self, first⟩
    · obtain ⟨y, member, fails⟩ := ih later
      exact ⟨y, List.mem_cons_of_mem x member, fails⟩

theorem of_forM_eq_ok {f : α → Except ε Unit} {xs : List α} (success : xs.forM f = .ok ()) :
    ∀ x ∈ xs, f x = .ok () := by
  induction xs with
  | nil => exact fun _ member => nomatch member
  | cons x xs ih =>
    rw [List.forM_eq_forM, List.forM_cons] at success
    obtain ⟨_, first, later⟩ := bind_eq_ok_iff.1 success
    exact List.forall_mem_cons.2 ⟨first, ih later⟩

/-! ## Steps that pass on a state -/

/-- A fold succeeds and keeps an invariant if every step from it does. -/
theorem foldlM_eq_ok {f : σ → α → Except ε σ} {xs : List α} {start : σ} (invariant : σ → Prop)
    (initial : invariant start)
    (step : ∀ s, invariant s → ∀ x ∈ xs, ∃ t, f s x = .ok t ∧ invariant t) :
    ∃ last, xs.foldlM f start = .ok last ∧ invariant last := by
  induction xs generalizing start with
  | nil => exact ⟨start, rfl, initial⟩
  | cons x xs ih =>
    obtain ⟨next, first, kept⟩ := step start initial x List.mem_cons_self
    obtain ⟨last, later, holds⟩ :=
      ih kept fun s known y member => step s known y (List.mem_cons_of_mem x member)
    exact ⟨last, by rw [List.foldlM_cons, first]; exact later, holds⟩

/-- A fold that succeeds keeps an invariant if every step that succeeds does. -/
theorem invariant_of_foldlM_eq_ok {f : σ → α → Except ε σ} {xs : List α} {start last : σ}
    (invariant : σ → Prop) (initial : invariant start)
    (step : ∀ s, invariant s → ∀ x ∈ xs, ∀ t, f s x = .ok t → invariant t)
    (success : xs.foldlM f start = .ok last) : invariant last := by
  induction xs generalizing start with
  | nil =>
    cases success
    exact initial
  | cons x xs ih =>
    rw [List.foldlM_cons] at success
    obtain ⟨next, first, later⟩ := bind_eq_ok_iff.1 success
    exact ih (step start initial x List.mem_cons_self next first)
      (fun s known y member => step s known y (List.mem_cons_of_mem x member)) later

/-- A fold fails with the error of one of its steps. -/
theorem exists_of_foldlM_eq_error {f : σ → α → Except ε σ} {xs : List α} {start : σ} {e : ε}
    (failure : xs.foldlM f start = .error e) : ∃ s, ∃ x ∈ xs, f s x = .error e := by
  induction xs generalizing start with
  | nil => cases failure
  | cons x xs ih =>
    rw [List.foldlM_cons] at failure
    rcases bind_eq_error_iff.1 failure with first | ⟨next, -, later⟩
    · exact ⟨start, x, List.mem_cons_self, first⟩
    · obtain ⟨s, y, member, fails⟩ := ih later
      exact ⟨s, y, List.mem_cons_of_mem x member, fails⟩

/-! ## Two computations -/

/-- If the first computation succeeds, so does the second, with the image of its result. -/
def Carries (f : α → β) (x : Except ε α) (y : Except ε β) : Prop := ∀ a, x = .ok a → y = .ok (f a)

namespace Carries

variable {α' β' σ' : Type} {f : α → α'} {g : β → β'} {h : σ → σ'}

theorem ok (a : α) : Carries f (.ok a : Except ε α) (.ok (f a)) := by
  intro a' same
  cases same
  rfl

theorem error (e : ε) (y : Except ε α') : Carries f (.error e) y := by
  intro a same
  cases same

theorem bind {x : Except ε α} {y : Except ε α'} {k : α → Except ε β} {k' : α' → Except ε β'}
    (first : Carries f x y) (next : ∀ a, x = .ok a → Carries g (k a) (k' (f a))) :
    Carries g (x >>= k) (y >>= k') := by
  intro b success
  obtain ⟨a, isFirst, success⟩ := bind_eq_ok_iff.1 success
  rw [first a isFirst]
  exact next a isFirst b success

theorem mapM {k : α → Except ε β} {k' : α' → Except ε β'} {xs : List α}
    (step : ∀ x ∈ xs, Carries g (k x) (k' (f x))) :
    Carries (List.map g) (xs.mapM k) ((xs.map f).mapM k') := by
  induction xs with
  | nil => exact .ok []
  | cons x xs ih =>
    rw [List.forall_mem_cons] at step
    rw [List.map_cons, List.mapM_cons, List.mapM_cons]
    exact step.1.bind fun y _ => (ih step.2).bind fun ys _ => .ok (y :: ys)

theorem mapM_id {k : α → Except ε β} {k' : α' → Except ε β} {xs : List α}
    (step : ∀ x ∈ xs, Carries id (k x) (k' (f x))) :
    Carries id (xs.mapM k) ((xs.map f).mapM k') := by
  simpa only [List.map_id_fun] using mapM step

/-- Steps over the same list. -/
theorem mapM_same {k : α → Except ε β} {k' : α → Except ε β'} {xs : List α}
    (step : ∀ x ∈ xs, Carries g (k x) (k' x)) : Carries (List.map g) (xs.mapM k) (xs.mapM k') := by
  have images : Carries (List.map g) (xs.mapM k) ((xs.map id).mapM k') := mapM step
  rwa [List.map_id] at images

theorem foldlM {k : σ → α → Except ε σ} {k' : σ' → α' → Except ε σ'} {xs : List α}
    (step : ∀ s, ∀ x ∈ xs, Carries h (k s x) (k' (h s) (f x))) (start : σ) :
    Carries h (xs.foldlM k start) ((xs.map f).foldlM k' (h start)) := by
  induction xs generalizing start with
  | nil => exact .ok start
  | cons x xs ih =>
    rw [List.map_cons, List.foldlM_cons, List.foldlM_cons]
    exact (step start x List.mem_cons_self).bind fun next _ =>
      ih (fun s y later => step s y (List.mem_cons_of_mem x later)) next

/-- Passing a state over the same list. -/
theorem foldlM_same {k : σ → α → Except ε σ} {k' : σ' → α → Except ε σ'} {xs : List α}
    (step : ∀ s, ∀ x ∈ xs, Carries h (k s x) (k' (h s) x)) (start : σ) :
    Carries h (xs.foldlM k start) (xs.foldlM k' (h start)) := by
  have images : Carries h (xs.foldlM k start) ((xs.map id).foldlM k' (h start)) :=
    foldlM step start
  rwa [List.map_id] at images

theorem forM {k : α → Except ε Unit} {k' : α' → Except ε Unit} {xs : List α}
    (step : ∀ x ∈ xs, Carries id (k x) (k' (f x))) :
    Carries id (xs.forM k) ((xs.map f).forM k') := by
  intro _ success
  refine forM_eq_ok (List.forall_mem_map.2 fun x member => ?_)
  exact step x member () (of_forM_eq_ok success x member)

end Carries

/-- What every step of two runs keeps holds of their ends, if both succeed. -/
theorem foldlM_induction {σ' α' : Type} {f : α → α'} {k : σ → α → Except ε σ}
    {k' : σ' → α' → Except ε σ'} {xs : List α} {start last : σ} {start' last' : σ'}
    (related : σ → σ' → Prop) (initial : related start start')
    (step : ∀ s s', related s s' → ∀ x ∈ xs, ∀ t t', k s x = .ok t → k' s' (f x) = .ok t' →
      related t t')
    (success : xs.foldlM k start = .ok last)
    (success' : (xs.map f).foldlM k' start' = .ok last') : related last last' := by
  induction xs generalizing start start' with
  | nil =>
    cases success
    cases success'
    exact initial
  | cons x xs ih =>
    rw [List.foldlM_cons] at success
    rw [List.map_cons, List.foldlM_cons] at success'
    obtain ⟨next, first, success⟩ := bind_eq_ok_iff.1 success
    obtain ⟨next', first', success'⟩ := bind_eq_ok_iff.1 success'
    exact ih (step start start' initial x List.mem_cons_self next next' first first')
      (fun s s' known y later => step s s' known y (List.mem_cons_of_mem x later)) success success'

end Except

end BatchGraph
