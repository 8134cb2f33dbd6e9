/-!
Finite maps as lists of pairs, in the order in which the keys were first entered.

Reading is `List.lookup`.
-/

namespace BatchGraph

namespace Assoc

variable {α β : Type} [BEq α]

/-- Enters a value.  A key that is there keeps its place. -/
def insert (key : α) (value : β) : List (α × β) → List (α × β)
  | [] => [(key, value)]
  | (k, v) :: rest => if key == k then (k, value) :: rest else (k, v) :: insert key value rest

def ofList (entries : List (α × β)) : List (α × β) :=
  entries.foldl (fun map (key, value) => insert key value map) []

/-- The position at which each element stands last. -/
def lastPositions (elements : List α) : List (α × Nat) := ofList elements.zipIdx

/-! ## Reading what was entered -/

variable [LawfulBEq α]

@[simp] theorem lookup_insert_self (key : α) (value : β) (map : List (α × β)) :
    (insert key value map).lookup key = some value := by
  induction map with
  | nil => simp [insert]
  | cons entry rest ih =>
    obtain ⟨k, v⟩ := entry
    by_cases h : key = k
    · simp [insert, h]
    · simp [insert, List.lookup_cons, beq_false_of_ne h, ih]

theorem lookup_insert_of_ne {key other : α} (h : other ≠ key) (value : β) (map : List (α × β)) :
    (insert key value map).lookup other = map.lookup other := by
  have differ : (other == key) = false := beq_false_of_ne h
  induction map with
  | nil => simp [insert, List.lookup_cons, differ]
  | cons entry rest ih =>
    obtain ⟨k, v⟩ := entry
    by_cases same : key = k
    · subst same
      simp [insert, List.lookup_cons, differ]
    · simp [insert, same, List.lookup_cons, ih]

end Assoc

end BatchGraph
