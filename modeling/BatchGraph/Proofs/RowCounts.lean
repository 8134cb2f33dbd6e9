import BatchGraph.Layout.Rows
import BatchGraph.Proofs.Except
import BatchGraph.Proofs.Number.Product
import BatchGraph.Proofs.Number.Signed

/-!
How many values rows hold, and how many their shape announces.

Rows hold the values of a row of the array for each of their indices, and announce as many values as
their shape has elements, as often as the minibatch is large (`Rows.Fills`).  Reshaping keeps both
numbers.  Slicing takes the inner extents of the shape as they are, but rows of the array: the
numbers agree afterwards exactly if these extents make a row (`Rows.Rowwise`), or no row is taken.
So after a chain of both it depends on the last slice alone whether as many values are gathered as
are announced (`fills_iff`).  The rows that the extents of a base make are rows of its array
(`Fills.rowwise`); after reshaping they may be others, and slicing then picks the wrong ones
(`sliceRows_unfit`).
-/

namespace BatchGraph

namespace Number

variable {x y z u : Number} {n : Nat}

theorem Tracks.denotes_of_ne_nan (hx : x.Tracks n) (small : n < 2 ^ 53) (number : x ≠ nan) :
    x.Denotes n := by
  cases hx with
  | exact denotes => exact denotes
  | large _ large => omega
  | lost noValue => exact absurd noValue number

/-- A product looks equal to what it was if a factor does. -/
theorem same_mul_of_same (factors : x.same y = true) (products : (x * z).same u = true) :
    (y * z).same u = true := by
  rcases eq_or_isZero_of_same factors with rfl | ⟨isZero, isZero'⟩
  · exact products
  have factor : x.Denotes 0 := by simpa [Number.isZero, Denotes] using isZero
  have factor' : y.Denotes 0 := by simpa [Number.isZero, Denotes] using isZero'
  -- Otherwise the product is not a number, which looks equal to nothing.
  obtain ⟨q, isValue⟩ : ∃ q, z.value? = some q := by
    rcases denotes_iff.1 factor with rfl | ⟨rfl, -⟩ <;> cases z <;>
      first | exact ⟨_, rfl⟩ | cases products
  have zero := factor.zero_mul isValue
  have zero' := factor'.zero_mul isValue
  exact same_trans ((zero'.same_iff zero).2 rfl) products

end Number

theorem BackingArray.length_row (a : BackingArray) (i : Option Number) :
    (a.row i).length = a.rowSize.countBelow := by
  rw [row, List.length_map, List.length_range]

namespace Rows

variable {r r' : Rows} {a : BackingArray} {m width : Nat}

/-- The shape announces as many values as the rows hold, for a minibatch of `m`. -/
def Fills (r : Rows) (a : BackingArray) (m : Nat) : Prop :=
  (Shape.size r.shape * Number.ofNat m).same (Number.count r.count * a.rowSize) = true

instance (r : Rows) (a : BackingArray) (m : Nat) : Decidable (r.Fills a m) :=
  inferInstanceAs (Decidable (_ = true))

/-- A step along axis 0 of the shape passes over a row of the array. -/
def Rowwise (r : Rows) (a : BackingArray) (m : Nat) : Prop :=
  a.rowSize.Denotes (((Shape.tail r.shape).map Number.countBelow).prod * m)

instance (r : Rows) (a : BackingArray) (m : Nat) : Decidable (r.Rowwise a m) :=
  inferInstanceAs (Decidable (Number.Denotes _ _))

/-! ## Gathering -/

theorem gather_eq (key : a.key.same r.key = true) :
    r.gather a = .ok (r.indices.flatMap a.row) := by
  rw [gather, key]
  rfl

theorem exists_gather (key : a.key.same r.key = true) (isWidth : a.rowSize.Denotes width) :
    ∃ values, r.gather a = .ok values ∧ values.length = r.count * width := by
  refine ⟨_, gather_eq key, ?_⟩
  simp [List.length_flatMap, a.length_row, isWidth.countBelow_eq, count]

/-- Announcing as many values as there are is announcing as many as are gathered. -/
theorem fills_iff_denotes (isWidth : a.rowSize.Denotes width) (few : r.count * width < 2 ^ 53) :
    r.Fills a m ↔ (Shape.size r.shape * Number.ofNat m).Denotes (r.count * width) := by
  have held := (Number.denotes_count r.count).mul isWidth few
  constructor
  · intro fills
    rw [Fills, Number.same_comm] at fills
    exact held.of_same fills
  · exact fun announced => (announced.same_iff held).2 rfl

/-- A shape announces what its inner extents do, once for every step along axis 0. -/
theorem tracks_announced {leading : Number} {inner : List Number} {c : Nat} {ns : List Nat} (m : Nat)
    (shape : r.shape = leading :: inner) (isLeading : leading.Denotes c)
    (tail : Shape.Denotes inner ns) :
    (Shape.size r.shape * Number.ofNat m).Tracks (c * (ns.prod * m)) := by
  have extents : Shape.Denotes r.shape (c :: ns) := shape ▸ .cons isLeading tail
  rw [← Nat.mul_assoc, ← List.prod_cons]
  exact extents.tracks_size.mul (Number.tracks_ofNat m)

/-! ## Reshaping -/

theorem of_reshape_eq_ok {shape : List Number} {label : String}
    (success : r.reshape shape label = .ok r') :
    (Shape.size shape).same (Shape.size r.shape) = true ∧ r' = { r with shape, label } := by
  unfold reshape at success
  split at success
  case isTrue => cases success
  case isFalse same =>
    cases success
    exact ⟨by simpa using same, rfl⟩

theorem fills_reshape_iff {shape : List Number} {label : String}
    (success : r.reshape shape label = .ok r') : r'.Fills a m ↔ r.Fills a m := by
  obtain ⟨same, rfl⟩ := of_reshape_eq_ok success
  exact ⟨Number.same_mul_of_same same, Number.same_mul_of_same (Number.same_comm _ _ ▸ same)⟩

/-! ## Slicing -/

theorem length_of_pick_eq_ok {start step : Number} {k count : Nat} {indices : List (Option Number)}
    (success : r.pick start step k count = .ok indices) : indices.length = count := by
  induction count generalizing k indices with
  | zero =>
    cases success
    rfl
  | succ count ih =>
    obtain ⟨first, -, success⟩ := Except.bind_eq_ok_iff.1 success
    obtain ⟨rest, areRest, success⟩ := Except.bind_eq_ok_iff.1 success
    cases success
    rw [List.length_cons, ih areRest]

theorem of_sliceRows_eq_ok {start step count : Number} {label : String}
    (success : r.sliceRows start step count label = .ok r') :
    r'.key = r.key ∧ r'.shape = count :: Shape.tail r.shape ∧ r'.count = count.countBelow := by
  obtain ⟨indices, picked, success⟩ := Except.bind_eq_ok_iff.1 success
  cases success
  exact ⟨rfl, rfl, length_of_pick_eq_ok picked⟩

theorem fills_sliceRows_iff {start step count : Number} {label : String} {c : Nat} {ns : List Nat}
    (success : r.sliceRows start step count label = .ok r') (isCount : count.Denotes c)
    (tail : Shape.Denotes (Shape.tail r.shape) ns) (isWidth : a.rowSize.Denotes width)
    (few : c * width < 2 ^ 53) (number : Shape.size r'.shape * Number.ofNat m ≠ .nan) :
    r'.Fills a m ↔ r'.count = 0 ∨ r.Rowwise a m := by
  obtain ⟨-, shape, picked⟩ := of_sliceRows_eq_ok success
  rw [isCount.countBelow_eq] at picked
  have announced := tracks_announced m shape isCount tail
  have inner : r.Rowwise a m ↔ ns.prod * m = width := by
    rw [Rowwise, Shape.map_countBelow tail]
    exact ⟨fun denotes => denotes.unique isWidth, fun same => same ▸ isWidth⟩
  rw [fills_iff_denotes isWidth (by rwa [picked]), inner, picked]
  constructor
  · intro denotes
    have total := announced.eq_of_denotes denotes few
    rcases Nat.eq_zero_or_pos c with none_ | some_
    · exact .inl none_
    · exact .inr (Nat.eq_of_mul_eq_mul_left some_ total)
  · intro agree
    have total : c * (ns.prod * m) = c * width := by
      rcases agree with rfl | rfl
      · rw [Nat.zero_mul, Nat.zero_mul]
      · rfl
    rw [total] at announced
    exact announced.denotes_of_ne_nan few number

/-- Rows that are as many as the leading extent of their shape announces fill it row by row. -/
theorem Fills.rowwise {leading : Number} {inner : List Number} {ns : List Nat} (fills : r.Fills a m)
    (shape : r.shape = leading :: inner) (isLeading : leading.Denotes r.count)
    (tail : Shape.Denotes inner ns) (isWidth : a.rowSize.Denotes width)
    (few : r.count * width < 2 ^ 53) (some_ : 0 < r.count) : r.Rowwise a m := by
  have announced := tracks_announced m shape isLeading tail
  have total := announced.eq_of_denotes ((fills_iff_denotes isWidth few).1 fills) few
  rw [Rowwise, shape, Shape.tail, List.drop_one, List.tail_cons, Shape.map_countBelow tail,
    Nat.eq_of_mul_eq_mul_left some_ total]
  exact isWidth

/-! ## Chains -/

/-- What comes of rows by reshaping and slicing them, and the rows that were sliced last.  Every
slice takes a natural number of rows of natural inner extents; it holds less than `2 ^ 53` values,
and what it announces is a number. -/
inductive Derives (width m : Nat) (start : Rows) : Option Rows → Rows → Prop
  | start : Derives width m start none start
  | reshape {source : Option Rows} {r r' : Rows} {shape : List Number} {label : String}
      (derives : Derives width m start source r) (success : r.reshape shape label = .ok r') :
      Derives width m start source r'
  | sliceRows {source : Option Rows} {r r' : Rows} {first step count : Number} {label : String}
      {c : Nat} {ns : List Nat} (derives : Derives width m start source r)
      (success : r.sliceRows first step count label = .ok r') (isCount : count.Denotes c)
      (tail : Shape.Denotes (Shape.tail r.shape) ns) (few : c * width < 2 ^ 53)
      (number : Shape.size r'.shape * Number.ofNat m ≠ .nan) : Derives width m start (some r) r'

namespace Derives

variable {start : Rows} {source : Option Rows}

theorem key_eq (derives : Derives width m start source r) : r.key = start.key := by
  induction derives with
  | start => rfl
  | reshape _ success ih =>
    obtain ⟨-, rfl⟩ := of_reshape_eq_ok success
    exact ih
  | sliceRows _ success _ _ _ _ ih => exact (of_sliceRows_eq_ok success).1.trans ih

theorem few (derives : Derives width m start source r) (few : start.count * width < 2 ^ 53) :
    r.count * width < 2 ^ 53 := by
  induction derives with
  | start => exact few
  | reshape _ success ih =>
    obtain ⟨-, rfl⟩ := of_reshape_eq_ok success
    exact ih
  | sliceRows _ success isCount _ few' _ _ =>
    rwa [(of_sliceRows_eq_ok success).2.2, isCount.countBelow_eq]

/-- What reshaping and slicing keep: whether the rows fill their shape depends on the last slice. -/
theorem fills_iff (derives : Derives width m start source r) (fills : start.Fills a m)
    (isWidth : a.rowSize.Denotes width) :
    r.Fills a m ↔ r.count = 0 ∨ ∀ sliced ∈ source, sliced.Rowwise a m := by
  induction derives with
  | start => exact iff_of_true fills (.inr fun _ none_ => nomatch none_)
  | reshape _ success ih =>
    rw [fills_reshape_iff success, ih]
    obtain ⟨-, rfl⟩ := of_reshape_eq_ok success
    rfl
  | sliceRows _ success isCount tail few number _ =>
    rw [fills_sliceRows_iff success isCount tail isWidth few number]
    simp

end Derives

/-- Of rows that fill their shape, any chain of reshaping and slicing gives rows that fill theirs,
and from which as many values are gathered as it announces, exactly if no row is left or the last
slice was made where the inner extents make a row. -/
theorem gathers_announced_iff {start : Rows} {source : Option Rows} (fills : start.Fills a m)
    (isWidth : a.rowSize.Denotes width) (few : start.count * width < 2 ^ 53)
    (key : a.key.same start.key = true) (derives : Derives width m start source r) :
    (r.Fills a m ↔ r.count = 0 ∨ ∀ sliced ∈ source, sliced.Rowwise a m) ∧
      ∃ values, r.gather a = .ok values ∧
        ((Shape.size r.shape * Number.ofNat m).Denotes values.length ↔
          r.count = 0 ∨ ∀ sliced ∈ source, sliced.Rowwise a m) := by
  obtain ⟨values, gathered, held⟩ := exists_gather (derives.key_eq ▸ key) isWidth
  have iff := derives.fills_iff fills isWidth
  refine ⟨iff, values, gathered, ?_⟩
  rw [held, ← fills_iff_denotes isWidth (derives.few few), iff]

/-- Four rows of two elements for a minibatch of three. -/
def tray : BackingArray where
  key := 0
  storage := .float .single
  shape := [4, 2, 3]
  data := (Array.range 24).map Number.ofNat
  trainable := false
  minibatched := true

def trayRows : Rows := ⟨[some 0, some 1, some 2, some 3], 0, .float .single, [4, 2], true, "tray"⟩

def oddRows : Rows := { trayRows with indices := [some 1, some 3], shape := [2, 2], label := "odd" }

def oddVector : Rows := { oddRows with shape := [4], label := "vector" }

/-- Every other row of the tray, and these rows as a vector. -/
theorem gathers_announced_iff_tray :
    trayRows.Fills tray 3 ∧ tray.rowSize.Denotes 6 ∧ trayRows.count * 6 < 2 ^ 53 ∧
      tray.key.same trayRows.key = true ∧ trayRows.sliceRows 1 2 2 "odd" = .ok oddRows ∧
      oddRows.reshape [4] "vector" = .ok oddVector ∧
      Derives 6 3 trayRows (some trayRows) oddVector ∧ oddVector.Fills tray 3 ∧
      ∃ values, oddVector.gather tray = .ok values ∧
        (Shape.size oddVector.shape * Number.ofNat 3).Denotes values.length := by
  have fills : trayRows.Fills tray 3 := by decide +kernel
  have isWidth : tray.rowSize.Denotes 6 := by decide +kernel
  have few : trayRows.count * 6 < 2 ^ 53 := by decide
  have key : tray.key.same trayRows.key = true := by decide +kernel
  have isTwo : Number.Denotes 2 2 := by decide +kernel
  have sliced : trayRows.sliceRows 1 2 2 "odd" = .ok oddRows := by decide +kernel
  have reshaped : oddRows.reshape [4] "vector" = .ok oddVector := by decide +kernel
  have derives : Derives 6 3 trayRows (some trayRows) oddVector :=
    .reshape (.sliceRows .start sliced isTwo (.cons isTwo .nil) (by decide) (by decide +kernel))
      reshaped
  have whole : ∀ sliced ∈ some trayRows, sliced.Rowwise tray 3 := by
    rintro _ ⟨⟩
    exact fills.rowwise rfl (by decide +kernel) (.cons isTwo .nil) isWidth few (by decide)
  obtain ⟨filled, values, gathered, announced⟩ :=
    gathers_announced_iff fills isWidth few key derives
  exact ⟨fills, isWidth, few, key, sliced, reshaped, derives, filled.2 (.inr whole), values, gathered,
    announced.2 (.inr whole)⟩

/-- Four rows of three elements. -/
def sheet : BackingArray where
  key := 0
  storage := .float .single
  shape := [4, 3]
  data := (Array.range 12).map Number.ofNat
  trainable := false
  minibatched := false

def sheetRows : Rows :=
  ⟨[some 0, some 1, some 2, some 3], 0, .float .single, [4, 3], false, "sheet"⟩

/-- The sheet as six rows of two elements has two rows of four elements, but six values. -/
theorem sliceRows_unfit :
    sheetRows.Fills sheet 1 ∧ sheet.key.same sheetRows.key = true ∧ ∃ folded part values,
      sheetRows.reshape [6, 2] "folded" = .ok folded ∧
      folded.sliceRows 0 1 2 "part" = .ok part ∧ part.gather sheet = .ok values ∧
      ¬ part.Fills sheet 1 ∧ Shape.size part.shape * Number.ofNat 1 = 4 ∧ values.length = 6 := by
  refine ⟨by decide +kernel, by decide +kernel, { sheetRows with shape := [6, 2], label := "folded" },
    { sheetRows with indices := [some 0, some 1], shape := [2, 2], label := "part" },
    [some 0, some 1, some 2, some 3, some 4, some 5], ?_⟩
  decide +kernel

end Rows

end BatchGraph
