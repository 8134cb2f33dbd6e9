import Mathlib.Data.Fintype.Card
import Mathlib.Data.Set.Finite.List
import Mathlib.Logic.Relation
import Mathlib.Order.WellFounded

/-!
Acyclic relations on finitely many nodes.

A relation is acyclic if no path leads from a node back to it.  Then every finite set of nodes has
one that no node of the set leads to (`Acyclic.exists_source`), which is what a scheduler runs next.
Conversely, a rank that grows along every edge excludes cycles (`acyclic_of_rank`).
-/

namespace BatchGraph

open Relation

variable {α β : Type} {E : α → α → Prop} {F : β → β → Prop}

/-- No path leads from a node back to it. -/
def Acyclic (E : α → α → Prop) : Prop := ∀ a, ¬ TransGen E a a

theorem transGen_lt_of_rank {rank : α → Nat} (grows : ∀ a b, E a b → rank a < rank b) {a b : α}
    (path : TransGen E a b) : rank a < rank b := by
  induction path with
  | single edge => exact grows _ _ edge
  | tail _ edge ih => exact ih.trans (grows _ _ edge)

theorem acyclic_of_rank (rank : α → Nat) (grows : ∀ a b, E a b → rank a < rank b) : Acyclic E :=
  fun _ cycle => (transGen_lt_of_rank grows cycle).false

/-- A map that keeps edges keeps cycles. -/
theorem Acyclic.of_map (acyclic : Acyclic F) (f : α → β) (keeps : ∀ a b, E a b → F (f a) (f b)) :
    Acyclic E :=
  fun a cycle => acyclic (f a) (cycle.lift f keeps)

/-- If nodes that no path connects become one node, its cycles are cycles of the nodes. -/
theorem exists_cycle_of_identify (f : α → β) (merged : α → Prop)
    (apart : ∀ a b, merged a → merged b → a ≠ b → ¬ TransGen E a b)
    (identifies : ∀ a b, f a = f b → a = b ∨ merged a ∧ merged b) {n : β}
    (cycle : TransGen (fun m n => ∃ a b, E a b ∧ f a = m ∧ f b = n) n n) :
    ∃ a, f a = n ∧ TransGen E a a := by
  -- A path either stays on one side of the new node, or enters it first and leaves it last.
  have trace {m n} (path : TransGen (fun m n => ∃ a b, E a b ∧ f a = m ∧ f b = n) m n) :
      (∃ a b, f a = m ∧ f b = n ∧ TransGen E a b) ∨
        ∃ a enter leave b, f a = m ∧ f b = n ∧ merged enter ∧ merged leave ∧
          TransGen E a enter ∧ TransGen E leave b := by
    induction path with
    | single edge =>
      obtain ⟨a, b, edge, rfl, rfl⟩ := edge
      exact .inl ⟨a, b, rfl, rfl, .single edge⟩
    | tail _ edge ih =>
      obtain ⟨c, d, edge, same, rfl⟩ := edge
      rcases ih with ⟨a, b, rfl, same', path⟩ | ⟨a, enter, leave, b, rfl, same', enters, leaves,
        front, back⟩
      · rcases identifies b c (same'.trans same.symm) with rfl | ⟨enters, leaves⟩
        · exact .inl ⟨a, d, rfl, rfl, path.tail edge⟩
        · exact .inr ⟨a, b, c, d, rfl, rfl, enters, leaves, path, .single edge⟩
      · rcases identifies b c (same'.trans same.symm) with rfl | ⟨-, leaves'⟩
        · exact .inr ⟨a, enter, leave, d, rfl, rfl, enters, leaves, front, back.tail edge⟩
        · exact .inr ⟨a, enter, c, d, rfl, rfl, enters, leaves', front, .single edge⟩
  have closes {a b} (isA : merged a) (isB : merged b) (path : TransGen E a b) : TransGen E a a := by
    by_cases same : a = b
    · rwa [← same] at path
    · exact absurd path (apart a b isA isB same)
  rcases trace cycle with ⟨a, b, rfl, same, path⟩ | ⟨a, enter, leave, b, rfl, same, enters, leaves,
    front, back⟩
  · rcases identifies b a same with rfl | ⟨isB, isA⟩
    · exact ⟨b, rfl, path⟩
    · exact ⟨a, rfl, closes isA isB path⟩
  · rcases identifies b a same with rfl | ⟨-, isA⟩
    · by_cases through : leave = enter
      · subst through
        exact ⟨b, rfl, front.trans back⟩
      · exact absurd (back.trans front) (apart leave enter leaves enters through)
    · exact ⟨a, rfl, closes isA enters front⟩

/-- Some remaining node has no remaining predecessor. -/
theorem Acyclic.exists_source (acyclic : Acyclic E) {remaining : List α}
    (nonempty : remaining ≠ []) : ∃ a ∈ remaining, ∀ b ∈ remaining, ¬ E b a := by
  -- Paths among the remaining nodes are a strict order on a finite type.
  let Path : {a // a ∈ remaining} → {a // a ∈ remaining} → Prop := fun a b => TransGen E a b
  have transitive : IsTrans _ Path := ⟨fun _ _ _ => TransGen.trans⟩
  have irreflexive : Std.Irrefl Path := ⟨fun a => acyclic a⟩
  have finite : Finite {a // a ∈ remaining} := List.finite_toSet remaining
  have wellFounded : WellFounded Path := Finite.wellFounded_of_trans_of_irrefl Path
  obtain ⟨first, rest, rfl⟩ := List.exists_cons_of_ne_nil nonempty
  obtain ⟨source, -, least⟩ := wellFounded.has_min Set.univ ⟨⟨first, List.mem_cons_self⟩, trivial⟩
  exact ⟨source, source.2, fun b member edge => least ⟨b, member⟩ trivial (.single edge)⟩

end BatchGraph
