import BatchGraph.Assoc
import BatchGraph.Proofs.Distinct

/-!
Finite maps: what was entered last is read, and keys are entered once.

`Assoc.ofList` reads its entries from the last one (`lookup_ofList`), so in a list without
repetitions the last position of an element is its position (`lookup_lastPositions_iff`).
-/

namespace BatchGraph

namespace Assoc

variable {α β : Type} [BEq α] [LawfulBEq α]

/-! ## Reading -/

theorem lookup_insert (key other : α) (value : β) (map : List (α × β)) :
    (insert key value map).lookup other =
      if other == key then some value else map.lookup other := by
  by_cases same : other = key
  · subst same
    simp
  · simp [beq_false_of_ne same, lookup_insert_of_ne same value map]

theorem lookup_foldl_insert (entries map : List (α × β)) (other : α) :
    (entries.foldl (fun map (key, value) => insert key value map) map).lookup other =
      (entries.reverse.lookup other).or (map.lookup other) := by
  induction entries generalizing map with
  | nil => rfl
  | cons entry entries ih =>
    obtain ⟨key, value⟩ := entry
    rw [List.foldl_cons, ih, List.reverse_cons, List.lookup_append, Option.or_assoc, lookup_insert]
    by_cases same : other = key
    · simp [same]
    · simp [List.lookup_cons, beq_false_of_ne same]

theorem lookup_ofList (entries : List (α × β)) (other : α) :
    (ofList entries).lookup other = entries.reverse.lookup other := by
  rw [ofList, lookup_foldl_insert, List.lookup_nil, Option.or_none]

theorem mem_of_lookup {entries : List (α × β)} {key : α} {value : β}
    (found : entries.lookup key = some value) : (key, value) ∈ entries := by
  obtain ⟨before, after, split, -⟩ := List.lookup_eq_some_iff.1 found
  rw [split]
  exact List.mem_append_right _ List.mem_cons_self

/-- Where no key is entered twice, an entry is what its key reads. -/
theorem lookup_eq_some_iff_mem {entries : List (α × β)} (distinct : (entries.map (·.1)).Nodup)
    {key : α} {value : β} : entries.lookup key = some value ↔ (key, value) ∈ entries := by
  induction entries with
  | nil => simp
  | cons entry entries ih =>
    obtain ⟨k, v⟩ := entry
    rw [List.map_cons, List.nodup_cons] at distinct
    rw [List.lookup_cons, List.mem_cons, Prod.mk.injEq]
    by_cases same : key = k
    · subst same
      have absent (w : β) : (key, w) ∉ entries := fun member =>
        distinct.1 (List.mem_map.2 ⟨_, member, rfl⟩)
      simp [absent, eq_comm]
    · simp [same, beq_false_of_ne same, ih distinct.2]

/-- Where no key is entered twice, the order of the entries does not matter. -/
theorem lookup_eq_of_perm {entries entries' : List (α × β)}
    (distinct : (entries.map (·.1)).Nodup) (perm : entries.Perm entries') (key : α) :
    entries.lookup key = entries'.lookup key := by
  ext value
  rw [lookup_eq_some_iff_mem distinct,
    lookup_eq_some_iff_mem ((perm.map _).nodup_iff.1 distinct), perm.mem_iff]

/-- Mapping keys and values, where no other key is mapped to that of the key that is read. -/
theorem lookup_map {α' β' : Type} [BEq α'] [LawfulBEq α'] (f : α → α') (g : β → β')
    {map : List (α × β)} {key : α} (apart : ∀ entry ∈ map, f key = f entry.1 → key = entry.1) :
    (map.map (Prod.map f g)).lookup (f key) = (map.lookup key).map g := by
  induction map with
  | nil => rfl
  | cons entry map ih =>
    obtain ⟨k, v⟩ := entry
    rw [List.forall_mem_cons] at apart
    rw [List.map_cons, Prod.map_apply, List.lookup_cons, List.lookup_cons, ih apart.2]
    by_cases same : key = k
    · simp [same]
    · simp [beq_false_of_ne same, beq_false_of_ne (mt apart.1 same)]

section Map

variable {α' β' : Type} [BEq α'] [LawfulBEq α'] {f : α → α'} (injective : Function.Injective f)

include injective

theorem lookup_map_of_injective (g : β → β') (map : List (α × β)) (key : α) :
    (map.map (Prod.map f g)).lookup (f key) = (map.lookup key).map g :=
  lookup_map f g fun _ _ same => injective same

theorem insert_map (g : β → β') (key : α) (value : β) (map : List (α × β)) :
    insert (f key) (g value) (map.map (Prod.map f g)) =
      (insert key value map).map (Prod.map f g) := by
  induction map with
  | nil => rfl
  | cons entry map ih =>
    obtain ⟨k, v⟩ := entry
    rw [List.map_cons, Prod.map_apply, insert, insert, ih, Distinct.beq_map injective]
    split <;> rfl

theorem lastPositions_map (xs : List α) :
    lastPositions (xs.map f) = (lastPositions xs).map (Prod.map f id) := by
  have entered (entries map : List (α × Nat)) :
      (entries.map (Prod.map f id)).foldl (fun map (key, value) => insert key value map)
          (map.map (Prod.map f id)) =
        (entries.foldl (fun map (key, value) => insert key value map) map).map
          (Prod.map f id) := by
    induction entries generalizing map with
    | nil => rfl
    | cons entry entries ih =>
      obtain ⟨key, value⟩ := entry
      rw [List.map_cons, List.foldl_cons, List.foldl_cons, ← ih]
      dsimp only
      rw [← insert_map injective id]
      rfl
  rw [lastPositions, List.zipIdx_map]
  exact entered xs.zipIdx []

end Map

theorem lookup_lastPositions_iff {xs : List α} (distinct : xs.Nodup) {x : α} {i : Nat} :
    (lastPositions xs).lookup x = some i ↔ xs[i]? = some x := by
  have keys : ((xs.zipIdx.reverse).map (·.1)).Nodup := by
    rw [List.map_reverse, List.nodup_reverse, List.zipIdx_map_fst]
    exact distinct
  rw [lastPositions, lookup_ofList, lookup_eq_some_iff_mem keys, List.mem_reverse,
    List.mem_zipIdx_iff_getElem?]

theorem exists_lookup_lastPositions {xs : List α} {x : α} (member : x ∈ xs) :
    ∃ i, (lastPositions xs).lookup x = some i := by
  obtain ⟨i, isAt⟩ := List.mem_iff_getElem?.1 member
  apply Option.isSome_iff_exists.1
  rw [lastPositions, lookup_ofList, List.lookup_isSome_iff]
  exact ⟨(x, i), List.mem_reverse.2 (List.mem_zipIdx_iff_getElem?.2 isAt), beq_self_eq_true x⟩

/-! ## Keys -/

theorem keys_insert (key : α) (value : β) (map : List (α × β)) :
    (insert key value map).map (·.1) =
      if (map.map (·.1)).contains key then map.map (·.1) else map.map (·.1) ++ [key] := by
  induction map with
  | nil => rfl
  | cons entry map ih =>
    obtain ⟨k, v⟩ := entry
    by_cases same : key = k
    · subst same
      simp [insert]
    · have differ : (key == k) = false := beq_false_of_ne same
      simp only [insert, differ, Bool.false_eq_true, if_false, List.map_cons, ih,
        List.contains_cons, Bool.false_or]
      split <;> rfl

theorem nodup_keys_foldl_insert (entries map : List (α × β)) (distinct : (map.map (·.1)).Nodup) :
    ((entries.foldl (fun map (key, value) => insert key value map) map).map (·.1)).Nodup := by
  induction entries generalizing map with
  | nil => exact distinct
  | cons entry entries ih =>
    apply ih _
    rw [keys_insert]
    split
    case isTrue => exact distinct
    case isFalse absent =>
      rw [List.contains_iff_mem] at absent
      exact List.nodup_append.2 ⟨distinct, List.nodup_singleton _, fun k member k' isKey same =>
        absent (List.mem_singleton.1 isKey ▸ same ▸ member)⟩

theorem nodup_keys_lastPositions (xs : List α) : ((lastPositions xs).map (·.1)).Nodup :=
  nodup_keys_foldl_insert _ _ List.nodup_nil

theorem mem_keys_iff {map : List (α × β)} {key : α} :
    key ∈ map.map (·.1) ↔ ∃ value, map.lookup key = some value := by
  rw [← Option.isSome_iff_exists, List.lookup_isSome_iff, List.mem_map]
  exact exists_congr fun entry => and_congr_right fun _ => by rw [beq_iff_eq, eq_comm]

theorem getElem?_of_lookup_lastPositions {xs : List α} {x : α} {i : Nat}
    (found : (lastPositions xs).lookup x = some i) : xs[i]? = some x := by
  rw [lastPositions, lookup_ofList] at found
  exact List.mem_zipIdx_iff_getElem?.1 (List.mem_reverse.1 (mem_of_lookup found))

theorem mem_keys_lastPositions {xs : List α} {x : α} :
    x ∈ (lastPositions xs).map (·.1) ↔ x ∈ xs := by
  rw [mem_keys_iff]
  exact ⟨fun ⟨_, found⟩ => List.mem_of_getElem? (getElem?_of_lookup_lastPositions found),
    exists_lookup_lastPositions⟩

end Assoc

end BatchGraph
