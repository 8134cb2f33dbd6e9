import BatchGraph.Proofs.Readback

/-!
Views of any geometry address what their elements say.

A view may have any offset and any strides, negative, zero, overlapping or permuting, as long as its
elements lie inside its base.  Placed on a layout that has its base, it is refused as unsupported,
or its rows give, one after the other, the stored values of the elements that it addresses
(`viewRows_addresses`).  No other error comes up on the way: rows that are picked exist, and the
size of a row that divides offset and stride is not zero.

An element is a position only as long as it is a number, which it is not with an infinite stride on
an axis of one position, and only as long as the extents are natural numbers: half a row ends between
two positions.  No bounds keep such elements out (`viewRows_astray`).
-/

namespace BatchGraph

namespace Number

variable {α β : Type} {x : Number}

/-- The value is the one at the position, if the number is one. -/
def Reads (values : List α) (x : Number) (v : α) : Prop :=
  x = nan ∨ ∃ p, x.Denotes p ∧ values[p]? = some v

/-- Numbers read the values at their positions. -/
theorem forall₂_reads {xs : List Number} {ps : List Nat} {count : Nat} (f : Nat → α)
    (positions : List.Forall₂ MayDenote xs ps) (inside : ∀ p ∈ ps, p < count) :
    List.Forall₂ (Reads ((List.range count).map f)) xs (ps.map f) := by
  induction positions with
  | nil => exact .nil
  | @cons x p xs ps first _ ih =>
    obtain ⟨less, inside⟩ := List.forall_mem_cons.1 inside
    refine .cons (first.imp_right fun denotes => ⟨p, denotes, ?_⟩) (ih inside)
    rw [List.getElem?_map, List.getElem?_range less, Option.map_some]

theorem nan_notMem_of_denotes {xs : List Number} {ps : List Nat}
    (positions : List.Forall₂ Denotes xs ps) : nan ∉ xs := by
  intro member
  obtain ⟨p, -, denotes⟩ := exists_partner positions member
  cases denotes

/-- Nothing is a whole number of units of size zero. -/
theorem isZero_of_isMultiple {unit : Number} (multiple : x.isMultiple unit = true) :
    unit.isZero = false := by
  cases unit with
  | nan => rfl
  | infinity negative => rfl
  | negativeZero => cases x <;> cases multiple
  | finite q =>
    cases x with
    | nan => cases multiple
    | infinity negative => cases multiple
    | negativeZero => exact (Bool.not_eq_true' _).mp (Bool.and_eq_true_iff.1 multiple).1
    | finite p => exact (Bool.not_eq_true' _).mp (Bool.and_eq_true_iff.1 multiple).1

end Number

namespace MemoryLayout

open Packing

variable {layout : MemoryLayout} {signals : List Signal} {plan : Plan} {precision : Precision}
  {minibatchSize : Nat} {breaks : List Nat} {p : Packing} {s : Signal} {base : Rows}
  {i key : Nat} {a : PendingArray}

/-- The stored values of a base: its initial values, as the array converts them. -/
def stored (f : Number → Number) (b : Base) : List (Option Number) :=
  (List.range b.extents.prod).map fun p => (b.value? p).map f

/-- A base is read back as its stored values, which its rows give as often as they are stored. -/
theorem HasRows.read_base (laid : layout.LaidOut signals plan precision minibatchSize breaks p)
    (has : HasRows precision minibatchSize p layout s.root base i key a base)
    (found : layout.rows.lookup s.root = some base) :
    layout.read s.root = .ok (stored a.kind.storage.store s.base) ∧
      base.gather (a.toArray key minibatchSize) =
        .ok (tile (stored a.kind.storage.store s.base) (layout.copies s)) := by
  have shows := has.base_shows laid
  obtain ⟨array, values, isArray, areValues, gathered, isRead⟩ :=
    (has.presents_of_shows laid shows).read_eq_ok found (laid.size ▸ laid.positive)
  cases has.found.symm.trans isArray
  have all : values.map (Option.map a.kind.storage.store) = stored a.kind.storage.store s.base := by
    rw [Except.ok.inj (areValues.symm.trans shows.initial), Base.rowValues, Shape.rowPositions_range,
      List.map_map, stored, s.base.prod_extents]
    rfl
  rw [all] at gathered isRead
  exact ⟨isRead, gathered⟩

/-- The rows of a view give the stored values at its elements. -/
theorem HasRows.gather_view {rows : Rows} {picked : List Nat}
    (laid : layout.LaidOut signals plan precision minibatchSize breaks p)
    (has : HasRows precision minibatchSize p layout s.root base i key a base)
    (sameKey : rows.key = base.key)
    (addresses : rows.Addresses s (rowsOf (members (p.placed.take i) key)) picked) :
    ∃ values, rows.gather (a.toArray key minibatchSize) =
        .ok (tile values (layout.copies s)) ∧
      List.Forall₂ (Number.Reads (stored a.kind.storage.store s.base)) s.elements values := by
  have stores := has.stores laid
  have sameKey' : (a.toArray key minibatchSize).key.same rows.key = true := by
    rw [sameKey, has.isKey]
    exact (Number.denotes_count key).same_self
  have inside : ∀ q ∈ Shape.rowPositions s.base.width picked, q < s.base.extents.prod := by
    intro q member
    rw [s.base.prod_extents]
    exact Shape.lt_of_mem_rowPositions addresses.inside member
  refine ⟨_, ?_, Number.forall₂_reads _ addresses.elements inside⟩
  rw [stores.gather_eq_ok sameKey' addresses.indices addresses.inside, laid.copies_eq, Base.rowValues,
    List.map_map]
  rfl

/-- Placed on a layout that has its base, a view is refused as unsupported or gets rows of the
array of its base, under its own shape, from which the stored value of its `n`-th element is
gathered at place `n`, as often as it is stored.  The elements are numbers if offset and strides
are, and where whole rows are picked, their size is not zero. -/
theorem viewRows_addresses {size : Number}
    (success : buildFor signals plan precision size = .ok layout) (isView : s.isView = true)
    (measured : s.Measured) (found : layout.rows.lookup s.root = some base) :
    (∀ e, s.viewRows base = .error e → e.kind = .unsupported) ∧
      (s.Aligned → (Shape.size (Shape.tail s.base.shape)).isZero = false) ∧
      ∃ array values, layout.array? base.key = some array ∧
        layout.read s.root = .ok values ∧
        base.gather array = .ok (tile values (layout.copies s)) ∧
        ∀ rows, s.viewRows base = .ok rows →
          rows.key = base.key ∧ Shape.same rows.shape (Shape.normalized s.shape) = true ∧
          (∃ read, rows.gather array = .ok (tile read (layout.copies s)) ∧
            List.Forall₂ (Number.Reads values) s.elements read) ∧
          (s.region.IsFinite → .nan ∉ s.elements) := by
  obtain ⟨minibatchSize, breaks, p, denotes, built⟩ := of_buildFor_eq_ok success
  have laid := built.toLaidOut
  obtain ⟨i, key, a, base', has⟩ := laid.exists_hasRows (Assoc.mem_of_lookup found)
  obtain ⟨-, rfl⟩ : s.root.isView = false ∧ base = base' :=
    has.rows_eq.resolve_right fun ⟨isView, _⟩ => nomatch isView
  obtain ⟨isRead, gathered⟩ := has.read_base laid found
  have sized := has.sized laid
  have placed := Signal.exists_addresses measured sized isView has.base_eq
  refine ⟨fun e failure => ?_, fun aligned => Number.isZero_of_isMultiple aligned.offset,
    _, _, has.found, isRead, gathered, fun rows success => ?_⟩
  · rcases placed with ⟨e', refused, kind⟩ | ⟨rows, picked, success, -⟩
    · cases refused.symm.trans failure
      exact kind
    · cases success.symm.trans failure
  · rcases placed with ⟨e', refused, kind⟩ | ⟨rows', picked, success', sameKey, -, addresses⟩
    · cases refused.symm.trans success
    · cases success'.symm.trans success
      exact ⟨sameKey, addresses.shape, has.gather_view laid sameKey addresses,
        fun isFinite => Number.nan_notMem_of_denotes (addresses.numbers isFinite)⟩

/-- Three rows of two numbers each. -/
def shelf : Base :=
  ⟨0, "shelf", .float32, [3, 2], [5, 7, 11, 13, 17, 19], false, true, by decide +kernel,
    .inr (by decide +kernel)⟩

/-- The last two rows, the very last one first. -/
def backwards : Signal :=
  ⟨shelf, some ⟨1, "shelf[view]", ⟨[2, 2], 4, [-2, 1]⟩, rfl⟩, by decide +kernel⟩

def shelfRows : Rows :=
  ⟨[some (.count 0), some (.count 1), some (.count 2)], .count 0, .float .single, [3, 2], true,
    "shelf"⟩

/-- The shelf with each number twice. -/
def shelved : MemoryLayout where
  arrays := [⟨.count 0, .float .single, [3, 2, 2], #[5, 5, 7, 7, 11, 11, 13, 13, 17, 17, 19, 19],
    false, true⟩]
  rows := [(.ofBase shelf, shelfRows)]
  minibatchSize := 2

def backwardsRows : Rows :=
  ⟨[some (.count 2), some (.count 1)], .count 0, .float .single, [2, 2], true, "shelf[view]"⟩

theorem buildFor_shelf : buildFor [.ofBase shelf] [] .single 2 = .ok shelved := by decide +kernel

theorem viewRows_addresses_backwards :
    backwards.viewRows shelfRows = .ok backwardsRows ∧
      ∃ array values read, shelved.array? shelfRows.key = some array ∧
        shelved.read backwards.root = .ok values ∧
        backwardsRows.gather array = .ok (tile read (shelved.copies backwards)) ∧
        List.Forall₂ (Number.Reads values) backwards.elements read ∧
        .nan ∉ backwards.elements := by
  have measured : backwards.Measured := ⟨by decide +kernel, by decide +kernel, by decide +kernel⟩
  obtain ⟨-, -, array, values, isArray, isRead, -, addresses⟩ :=
    viewRows_addresses buildFor_shelf (rfl : backwards.isView = true) measured
      (rfl : shelved.rows.lookup backwards.root = some shelfRows)
  have placed : backwards.viewRows shelfRows = .ok backwardsRows := by decide +kernel
  obtain ⟨-, -, ⟨read, gathered, reads⟩, numbers⟩ := addresses _ placed
  exact ⟨placed, array, values, read, isArray, isRead, gathered, reads,
    numbers (by decide +kernel)⟩

/-- One row of three numbers. -/
def plank : Base :=
  ⟨0, "plank", .float32, [1, 3], [5, 7, 11], false, false, by decide +kernel,
    .inr (by decide +kernel)⟩

/-- The same row, as the only one that a step of `10 ^ 308` rows leaves. -/
def onlyRow : Signal :=
  ⟨plank, some ⟨1, "row", ⟨[1, 3], 0, [.infinity false, 1]⟩, rfl⟩, by decide +kernel⟩

def plankRows : Rows :=
  ⟨[some (.count 0)], .count 0, .float .single, [1, 3], false, "plank"⟩

def planked : MemoryLayout where
  arrays := [⟨.count 0, .float .single, [1, 3], #[5, 7, 11], false, false⟩]
  rows := [(.ofBase plank, plankRows)]
  minibatchSize := 1

/-- Three numbers. -/
def triple : Base :=
  ⟨0, "triple", .float32, [3], [5, 7, 11], false, false, by decide +kernel,
    .inr (by decide +kernel)⟩

/-- The same numbers, as two rows of one and a half each. -/
def halved : Signal :=
  ⟨triple, some ⟨1, "halved", ⟨[2, .finite (3 / 2)], 0, [.finite (3 / 2), 1]⟩, rfl⟩,
    by decide +kernel⟩

def tripleRows : Rows :=
  ⟨[some (.count 0), some (.count 1), some (.count 2)], .count 0, .float .single, [3], false,
    "triple"⟩

def tripled : MemoryLayout where
  arrays := [⟨.count 0, .float .single, [3], #[5, 7, 11], false, false⟩]
  rows := [(.ofBase triple, tripleRows)]
  minibatchSize := 1

/-- The rows of a view with an infinite stride give the stored values in their order, although none
of its elements is a number, and so do those of a view with a fractional extent, although one of its
elements is no position. -/
theorem viewRows_astray :
    (buildFor [.ofBase plank] [] .single 1 = .ok planked ∧
      (Signal.ofBase plank).slice 1 0 1 (.ofDecimal 1 308) (some "row") = .ok onlyRow ∧
        (onlyRow.viewRows plankRows >>= fun rows => planked.arrays.mapM rows.gather) =
          .ok [[some 5, some 7, some 11]] ∧ onlyRow.elements = [.nan, .nan, .nan]) ∧
    buildFor [.ofBase triple] [] .single 1 = .ok tripled ∧
      (Signal.ofBase triple).view 1 [2, .finite (3 / 2)] 0 none (some "halved") = .ok halved ∧
        (halved.viewRows tripleRows >>= fun rows => tripled.arrays.mapM rows.gather) =
          .ok [[some 5, some 7, some 11]] ∧ halved.elements = [0, 1, .finite (3 / 2)] := by
  decide +kernel

end MemoryLayout

end BatchGraph
