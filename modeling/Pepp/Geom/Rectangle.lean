import Mathlib.Data.Prod.Lex
import Mathlib.Order.WithBot
import Pepp.Integers
import Pepp.Lib.FlatMap

/-!
# Rectangles

Closed intervals of `i16` and rectangles of two of them, in screen coordinates
with y increasing downward. The arithmetic is that of the source: it is done in
`int` and cut to 16 bits when it is stored.
-/

namespace Pepp

abbrev I16 := Int16

structure Point (T : Type) where
  x : T
  y : T
  deriving DecidableEq, Repr

/-- A closed interval; it is empty where its lower endpoint exceeds the upper one. -/
structure Interval (T : Type) where
  lower : T
  upper : T
  deriving DecidableEq, Repr

namespace Interval

/-- `Interval<T>()`, an empty one. -/
def empty : Interval I16 := ⟨1, 0⟩

def valid (self : Interval I16) : Prop := self.lower ≤ self.upper

instance (self : Interval I16) : Decidable self.valid := inferInstanceAs (Decidable (_ ≤ _))

/-- `operator==`: empty intervals are equal. -/
def same (self other : Interval I16) : Prop :=
  if ¬ self.valid ∧ ¬ other.valid then True else if ¬ self.valid ∨ ¬ other.valid then False else self = other

instance (self other : Interval I16) : Decidable (self.same other) := by unfold same; infer_instance

/-- In the wider type, where it does not overflow. -/
def sizeInclusive (interval : Interval I16) : Int :=
  if ¬ interval.valid then 0 else interval.upper.toInt - interval.lower.toInt + 1

def contains (outer : Interval I16) (inner : I16) : Prop := outer.valid ∧ outer.lower ≤ inner ∧ inner ≤ outer.upper

instance (outer : Interval I16) (inner : I16) : Decidable (outer.contains inner) := inferInstanceAs (Decidable (_ ∧ _))

def intersects (lhs rhs : Interval I16) : Prop :=
  lhs.valid ∧ rhs.valid ∧ lhs.lower ≤ rhs.upper ∧ rhs.lower ≤ lhs.upper

instance (lhs rhs : Interval I16) : Decidable (lhs.intersects rhs) := inferInstanceAs (Decidable (_ ∧ _))

def intersection (lhs rhs : Interval I16) : Interval I16 :=
  if lhs.intersects rhs then ⟨max lhs.lower rhs.lower, min lhs.upper rhs.upper⟩ else empty

end Interval

structure Rectangle (T : Type) where
  x : Interval T
  y : Interval T
  deriving DecidableEq, Repr

namespace Rectangle

def left (self : Rectangle I16) : I16 := self.x.lower
def right (self : Rectangle I16) : I16 := self.x.upper
def top (self : Rectangle I16) : I16 := self.y.lower
def bottom (self : Rectangle I16) : I16 := self.y.upper
def topLeft (self : Rectangle I16) : Point I16 := ⟨self.x.lower, self.y.lower⟩

def valid (self : Rectangle I16) : Prop := self.x.valid ∧ self.y.valid

instance (self : Rectangle I16) : Decidable self.valid := inferInstanceAs (Decidable (_ ∧ _))

/-- `operator==`. -/
def same (self other : Rectangle I16) : Prop := self.x.same other.x ∧ self.y.same other.y

instance (self other : Rectangle I16) : Decidable (self.same other) := inferInstanceAs (Decidable (_ ∧ _))

/-- `operator<`: scanline order, empty rectangles first. -/
def lt (self other : Rectangle I16) : Bool :=
  if ¬ self.valid ∧ ¬ other.valid then false
  else if ¬ self.valid then true
  else if ¬ other.valid then false
  else if self.y.lower ≠ other.y.lower then self.y.lower < other.y.lower
  else if self.x.lower ≠ other.x.lower then self.x.lower < other.x.lower
  else if self.y.upper ≠ other.y.upper then self.y.upper < other.y.upper
  else self.x.upper < other.x.upper

def ofPoint (pt : Point I16) : Rectangle I16 := ⟨⟨pt.x, pt.x⟩, ⟨pt.y, pt.y⟩⟩

def ofPointSize (pt : Point I16) (width height : I16) : Rectangle I16 :=
  ⟨⟨pt.x, pt.x + width - 1⟩, ⟨pt.y, pt.y + height - 1⟩⟩

def height (self : Rectangle I16) : I16 := Int16.ofInt self.y.sizeInclusive
def width (self : Rectangle I16) : I16 := Int16.ofInt self.x.sizeInclusive

/-- The same size somewhere else. -/
def translated (self : Rectangle I16) (delta : Point I16) : Rectangle I16 :=
  ⟨⟨self.x.lower + delta.x, self.x.upper + delta.x⟩, ⟨self.y.lower + delta.y, self.y.upper + delta.y⟩⟩

/-- Height and width exchanged, around the top left corner. -/
def transposed (self : Rectangle I16) : Rectangle I16 := ofPointSize self.topLeft self.height self.width

def contains (rect : Rectangle I16) (inner : Point I16) : Prop := rect.x.contains inner.x ∧ rect.y.contains inner.y

instance (rect : Rectangle I16) (inner : Point I16) : Decidable (rect.contains inner) :=
  inferInstanceAs (Decidable (_ ∧ _))

def intersects (lhs rhs : Rectangle I16) : Prop := lhs.x.intersects rhs.x ∧ lhs.y.intersects rhs.y

instance (lhs rhs : Rectangle I16) : Decidable (lhs.intersects rhs) := inferInstanceAs (Decidable (_ ∧ _))

def intersection (lhs rhs : Rectangle I16) : Rectangle I16 := ⟨lhs.x.intersection rhs.x, lhs.y.intersection rhs.y⟩

/-! ## Points and rectangles -/

variable {a b c : Rectangle I16} {p : Point I16}

theorem le_iff {a b : I16} : a ≤ b ↔ a.toInt ≤ b.toInt := Int16.le_iff_toInt_le

theorem toInt_max (a b : I16) : (max a b).toInt = max a.toInt b.toInt := by
  change (if a ≤ b then b else a).toInt = _
  split <;> next h => rw [le_iff] at h; omega

theorem toInt_min (a b : I16) : (min a b).toInt = min a.toInt b.toInt := by
  change (if a ≤ b then a else b).toInt = _
  split <;> next h => rw [le_iff] at h; omega

theorem contains_iff : a.contains p ↔
    a.left.toInt ≤ p.x.toInt ∧ p.x.toInt ≤ a.right.toInt ∧ a.top.toInt ≤ p.y.toInt ∧ p.y.toInt ≤ a.bottom.toInt := by
  simp only [contains, Interval.contains, Interval.valid, le_iff, left, right, top, bottom]
  omega

theorem valid_iff : a.valid ↔ a.left.toInt ≤ a.right.toInt ∧ a.top.toInt ≤ a.bottom.toInt := by
  simp only [valid, Interval.valid, le_iff, left, right, top, bottom]

theorem intersects_iff : a.intersects b ↔ a.valid ∧ b.valid ∧ a.left.toInt ≤ b.right.toInt ∧
    b.left.toInt ≤ a.right.toInt ∧ a.top.toInt ≤ b.bottom.toInt ∧ b.top.toInt ≤ a.bottom.toInt := by
  simp only [intersects, Interval.intersects, valid, Interval.valid, le_iff, left, right, top, bottom]
  tauto

theorem valid_of_contains (h : a.contains p) : a.valid := ⟨h.1.1, h.2.1⟩

theorem intersects_comm : a.intersects b ↔ b.intersects a := by
  rw [intersects_iff, intersects_iff]
  tauto

/-- Rectangles intersect where they share a point. -/
theorem intersects_iff_exists : a.intersects b ↔ ∃ p, a.contains p ∧ b.contains p := by
  constructor
  · intro h
    refine ⟨⟨max a.left b.left, max a.top b.top⟩, ?_⟩
    rw [intersects_iff, valid_iff, valid_iff] at h
    rw [contains_iff, contains_iff, toInt_max, toInt_max]
    omega
  · rintro ⟨p, ha, hb⟩
    rw [intersects_iff]
    refine ⟨valid_of_contains ha, valid_of_contains hb, ?_⟩
    rw [contains_iff] at ha hb
    omega

theorem intersects_of_contains (ha : a.contains p) (hb : b.contains p) : a.intersects b :=
  intersects_iff_exists.mpr ⟨p, ha, hb⟩

theorem contains_topLeft (h : a.valid) : a.contains a.topLeft := by
  rw [valid_iff] at h
  rw [contains_iff]
  exact ⟨le_rfl, h.1, le_rfl, h.2⟩

theorem same_iff (ha : a.valid) (hb : b.valid) : a.same b ↔ a = b := by
  obtain ⟨ax, ay⟩ := a
  obtain ⟨bx, by_⟩ := b
  have h : ∀ {i j : Interval I16}, i.valid → j.valid → (i.same j ↔ i = j) := fun hi hj => by
    rw [Interval.same, if_neg (fun h => h.1 hi), if_neg (fun h => h.elim (· hi) (· hj))]
  rw [same, h ha.1 hb.1, h ha.2 hb.2, mk.injEq]

theorem eq_of_same (ha : a.valid) (h : a.same b) : a = b := by
  by_cases hb : b.valid
  · exact (same_iff ha hb).mp h
  · rcases not_and_or.mp hb with hx | hy
    · have := h.1
      simp [Interval.same, ha.1, hx] at this
    · have := h.2
      simp [Interval.same, ha.2, hy] at this

/-! ## Scanline order -/

/-- What the order compares: top, left, bottom and right in turn. -/
def key (r : Rectangle I16) : WithBot (Int ×ₗ Int ×ₗ Int ×ₗ Int) :=
  if r.valid then
    (toLex (r.top.toInt, toLex (r.left.toInt, toLex (r.bottom.toInt, r.right.toInt))) : Int ×ₗ Int ×ₗ Int ×ₗ Int)
  else ⊥

theorem compares : Containers.Compares lt key := by
  intro a b
  unfold lt key
  by_cases ha : a.valid <;> by_cases hb : b.valid
  · have hne : ∀ {i j : I16}, i ≠ j ↔ i.toInt ≠ j.toInt := Int16.toInt_inj.not.symm
    simp only [ha, hb, not_true, and_self, if_false, if_true, hne, WithBot.coe_lt_coe, Prod.Lex.toLex_lt_toLex, top, left, bottom, right]
    split
    · rw [decide_eq_true_iff, Int16.lt_iff_toInt_lt]
      omega
    · split
      · rw [decide_eq_true_iff, Int16.lt_iff_toInt_lt]
        omega
      · split <;> rw [decide_eq_true_iff, Int16.lt_iff_toInt_lt] <;> omega
  · simp only [ha, hb, not_true, not_false_eq_true, false_and, if_false, if_true, Bool.false_eq_true, false_iff]
    exact not_lt_bot
  · simp only [ha, hb, not_true, not_false_eq_true, and_false, if_false, if_true, true_iff]
    exact WithBot.bot_lt_coe _
  · simp [ha, hb]

theorem eq_of_key (ha : a.valid) (h : key a = key b) : a = b := by
  by_cases hb : b.valid
  · rw [key, key, if_pos ha, if_pos hb] at h
    simp only [WithBot.coe_inj, EmbeddingLike.apply_eq_iff_eq, Prod.mk.injEq, Int16.toInt_inj] at h
    obtain ⟨ht, hl, hb', hr⟩ := h
    obtain ⟨⟨al, ar⟩, ⟨at_, ab⟩⟩ := a
    obtain ⟨⟨bl, br⟩, ⟨bt, bb⟩⟩ := b
    simp only [top, left, bottom, right] at ht hl hb' hr
    rw [ht, hl, hb', hr]
  · rw [key, key, if_pos ha, if_neg hb] at h
    exact absurd h (by simp)

theorem top_le_of_lt (ha : a.valid) (hb : b.valid) (h : lt a b = true) : a.top.toInt ≤ b.top.toInt := by
  have hkey := ((compares a b).mp h).le
  rw [key, key, if_pos ha, if_pos hb] at hkey
  have hle := WithBot.coe_le_coe.mp hkey
  rw [Prod.Lex.toLex_le_toLex] at hle
  omega

end Rectangle

end Pepp

/-! ## Occupancy grids

A dense grid is 64 bits for 8x8 points. A sparse grid keeps one for every block
of points that has an occupied one; a rectangle is handled block by block, from
left to right and from top to bottom. The walk over the blocks counts in 16
bits: where it wraps around it may never arrive at its end, and the rectangle
clipped to a block may then ask for a shift that is not defined. -/

namespace Pepp

/-- Bit `8 * y + x` is point `(x, y)`. -/
abbrev DenseOccupancyGrid := U64

namespace DenseOccupancyGrid

def setRowBits (grid : DenseOccupancyGrid) (row : Nat) (bits : U8) : DenseOccupancyGrid :=
  if 8 ≤ row then grid
  else (grid &&& ~~~(0xFF#64 <<< (8 * row))) ||| (bits.setWidth 64 <<< (8 * row))

/-- The points of a rectangle. A shift by a negative amount, or by more than an `int` has bits, has no result. -/
def ofRectangle (rect : Rectangle U8) : Option DenseOccupancyGrid :=
  let lowX := rect.x.lower
  let highX := rect.x.upper
  if 7 < highX.toNat ∨ 32 ≤ lowX.toNat then none
  else
    let lowMask : U8 := 0xFF#8 >>> (7 - highX.toNat)
    let highMask : U8 := 0xFF#8 <<< lowX.toNat
    let rowBits := lowMask &&& highMask
    some ((List.range' rect.y.lower.toNat (rect.y.upper.toNat + 1 - rect.y.lower.toNat)).foldl
      (fun grid row => setRowBits grid row rowBits) 0)

end DenseOccupancyGrid

namespace RectangleDecomposer

/-- The corner of the block with the first point. -/
def begin_ (src : Rectangle I16) : Point I16 := ⟨src.x.lower &&& ~~~7, src.y.lower &&& ~~~7⟩

/-- The first block below the rectangle. -/
def endFor (src : Rectangle I16) : Point I16 := ⟨src.x.lower &&& ~~~7, (src.y.upper &&& ~~~7) + 8⟩

def next (src : Rectangle I16) (pos : Point I16) : Point I16 :=
  if src.x.upper < pos.x + 8 then ⟨src.x.lower &&& ~~~7, pos.y + 8⟩ else ⟨pos.x + 8, pos.y⟩

/-- The part of the rectangle in a block, relative to its corner. -/
def clip (src : Rectangle I16) (pos : Point I16) : Rectangle U8 :=
  let rectMask := Rectangle.ofPointSize pos 8 8
  let isec := src.intersection rectMask
  let clippedX := BitVec.ofInt 8 (isec.x.lower.toInt - rectMask.x.lower.toInt)
  let clippedY := BitVec.ofInt 8 (isec.y.lower.toInt - rectMask.y.lower.toInt)
  let clippedW := BitVec.ofInt 8 isec.width.toInt
  let clippedH := BitVec.ofInt 8 isec.height.toInt
  ⟨⟨clippedX, clippedX + clippedW - 1⟩, ⟨clippedY, clippedY + clippedH - 1⟩⟩

/-- A block's corner is a multiple of eight both ways; a walk longer than there are such corners does not end. -/
def corners : Nat := 2 ^ 13 * 2 ^ 13

/-- `for (const auto &[grid_pt, clip_rect] : decomposer)`; the body may leave the loop. -/
def loop {β : Type} (src : Rectangle I16) (body : Point I16 → Rectangle U8 → β → Option (ForInStep β)) :
    Nat → Point I16 → β → Option β
  | 0, _, _ => none
  | fuel + 1, pos, b =>
    if pos = endFor src then some b
    else
      match body pos (clip src pos) b with
      | none => none
      | some (.done b) => some b
      | some (.yield b) => loop src body fuel (next src pos) b

def forEach {β : Type} (src : Rectangle I16) (body : Point I16 → Rectangle U8 → β → Option (ForInStep β)) (b : β) :
    Option β :=
  loop src body (corners + 1) (begin_ src) b

end RectangleDecomposer

/-- The dense grid of each block that has one. -/
abbrev SparseOccupancyGrid := Point I16 → Option DenseOccupancyGrid

namespace SparseOccupancyGrid

def overlap (grid : SparseOccupancyGrid) (rect : Rectangle I16) : Option Bool :=
  RectangleDecomposer.forEach rect (fun pos clip found =>
    match grid pos with
    | none => some (.yield found)
    | some dense => do
      let mask ← DenseOccupancyGrid.ofRectangle clip
      return if dense &&& mask ≠ 0 then .done true else .yield found) false

/-- `_grid[Coordinate{grid_pt}] |= clip_rect` -/
def add (grid : SparseOccupancyGrid) (pos : Point I16) (mask : DenseOccupancyGrid) : SparseOccupancyGrid :=
  Function.update grid pos (some ((grid pos).getD 0 ||| mask))

/-- No block is created, and one without points goes. -/
def subtract (grid : SparseOccupancyGrid) (pos : Point I16) (dense mask : DenseOccupancyGrid) : SparseOccupancyGrid :=
  if dense &&& ~~~mask = 0 then Function.update grid pos none else Function.update grid pos (some (dense &&& ~~~mask))

def tryAdd (grid : SparseOccupancyGrid) (rect : Rectangle I16) : Option (Bool × SparseOccupancyGrid) := do
  if ← grid.overlap rect then return (false, grid)
  let grid ← RectangleDecomposer.forEach rect (fun pos clip (grid : SparseOccupancyGrid) => do
    let mask ← DenseOccupancyGrid.ofRectangle clip
    return .yield (grid.add pos mask)) grid
  return (true, grid)

def remove (grid : SparseOccupancyGrid) (rect : Rectangle I16) : Option SparseOccupancyGrid :=
  RectangleDecomposer.forEach rect (fun pos clip (grid : SparseOccupancyGrid) =>
    match grid pos with
    | none => some (.yield grid)
    | some dense => do
      let mask ← DenseOccupancyGrid.ofRectangle clip
      return .yield (grid.subtract pos dense mask)) grid

end SparseOccupancyGrid

end Pepp
