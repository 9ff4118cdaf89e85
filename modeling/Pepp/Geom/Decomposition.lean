import Pepp.Geom.GridCells

/-!
# Decomposing a rectangle

The walk over the blocks as a tiling. A rectangle that reaches the last column
of blocks has no tiling, since the walk never leaves its first row; one that
spans every row has none, since the walk ends where it begins.
-/

namespace Pepp

namespace RectangleDecomposer

variable {r : Rectangle I16} {p : Point I16}

/-- The block the walk is at after so many steps. -/
def posAt (r : Rectangle I16) (k : Nat) : Point I16 := (next r)^[k] (begin_ r)

/-- The rectangle of a piece is relative to the corner of its block. -/
def covers (pos : Point I16) (piece : Rectangle U8) (p : Point I16) : Prop :=
  (pos.x.toInt + piece.x.lower.toNat ≤ p.x.toInt ∧ p.x.toInt ≤ pos.x.toInt + piece.x.upper.toNat) ∧
    pos.y.toInt + piece.y.lower.toNat ≤ p.y.toInt ∧ p.y.toInt ≤ pos.y.toInt + piece.y.upper.toNat

/-- The walk ends after `n` steps, and its pieces are an exact tiling of the rectangle. -/
structure Tiles (r : Rectangle I16) (n : Nat) : Prop where
  runs : ∀ k < n, posAt r k ≠ endFor r
  ends : posAt r n = endFor r
  aligned : ∀ k < n, (posAt r k).x.toInt % 8 = 0 ∧ (posAt r k).y.toInt % 8 = 0
  inside : ∀ k < n, (clip r (posAt r k)).x.upper.toNat < 8 ∧ (clip r (posAt r k)).y.upper.toNat < 8
  disjoint : ∀ j < n, ∀ k < n, j ≠ k → ∀ p,
    ¬ (covers (posAt r j) (clip r (posAt r j)) p ∧ covers (posAt r k) (clip r (posAt r k)) p)
  union : ∀ p, r.contains p ↔ ∃ k < n, covers (posAt r k) (clip r (posAt r k)) p

/-- Setting the rectangle, where nothing is set yet, sets its points. -/
def SetsExactly (r : Rectangle I16) : Prop :=
  ∀ grid : SparseOccupancyGrid, (∀ p, r.contains p → grid.cell p = false) →
    ∃ grid', grid.tryAdd r = some (true, grid') ∧ ∀ p, grid'.cell p = true ↔ grid.cell p = true ∨ r.contains p

theorem posAt_succ (r : Rectangle I16) (k : Nat) : posAt r (k + 1) = next r (posAt r k) :=
  Function.iterate_succ_apply' _ _ _

/-! ## Where the walk is right -/

theorem blocks_pos (h : r.Decomposable) : 0 < columns r * rows r := by
  have hv := Rectangle.valid_iff.mp h.valid
  refine Nat.mul_pos (columns_pos h.valid) ?_
  unfold rows
  omega

theorem posAt_eq (h : r.Decomposable) : ∀ k ≤ columns r * rows r,
    posAt r k = if k = columns r * rows r then endFor r else blockAt r k := by
  intro k
  induction k with
  | zero =>
    intro _
    rw [if_neg (blocks_pos h).ne]
    exact begin_eq h
  | succ k ih =>
    intro hk
    rw [posAt_succ, ih (by omega), if_neg (by omega), next_blockAt h hk]

theorem posAt_of_lt (h : r.Decomposable) {k : Nat} (hk : k < columns r * rows r) : posAt r k = blockAt r k := by
  rw [posAt_eq h k hk.le, if_neg hk.ne]

theorem block_eq_iff_toInt {pos : Point I16} (halign : pos.x.toInt % 8 = 0 ∧ pos.y.toInt % 8 = 0) :
    p.block = pos ↔ (pos.x.toInt ≤ p.x.toInt ∧ p.x.toInt ≤ pos.x.toInt + 7) ∧
      pos.y.toInt ≤ p.y.toInt ∧ p.y.toInt ≤ pos.y.toInt + 7 := by
  have hbx : p.block.x.toInt = 8 * (p.x.toInt / 8) := toInt_and_not_seven _
  have hby : p.block.y.toInt = 8 * (p.y.toInt / 8) := toInt_and_not_seven _
  constructor
  · intro hblock
    rw [hblock] at hbx hby
    omega
  · intro hin
    refine Point.ext_toInt ?_ ?_ <;> omega

/-- A piece is the rectangle's points in its block. -/
theorem covers_iff (h : r.Decomposable) {k : Nat} (hk : k < columns r * rows r) :
    covers (blockAt r k) (clip r (blockAt r k)) p ↔ p.block = blockAt r k ∧ r.contains p := by
  obtain ⟨halign, -, -⟩ := blockAt_meets h hk
  obtain ⟨⟨hxl, hxu⟩, hyl, hyu⟩ := clip_bounds h hk
  rw [block_eq_iff_toInt halign, Rectangle.contains_iff]
  unfold covers
  omega

theorem tiles (h : r.Decomposable) : Tiles r (columns r * rows r) where
  runs := by
    intro k hk
    rw [posAt_of_lt h hk]
    exact blockAt_ne_end h hk
  ends := by
    rw [posAt_eq h _ le_rfl, if_pos rfl]
  aligned := by
    intro k hk
    rw [posAt_of_lt h hk]
    exact (blockAt_meets h hk).1
  inside := by
    intro k hk
    obtain ⟨⟨-, hxu⟩, -, hyu⟩ := clip_bounds h hk
    rw [posAt_of_lt h hk]
    omega
  disjoint := by
    intro j hj k hk hne p hboth
    rw [posAt_of_lt h hj, posAt_of_lt h hk, covers_iff h hj, covers_iff h hk] at hboth
    obtain ⟨⟨hbj, hp⟩, hbk, -⟩ := hboth
    have hij := (block_eq_iff h hp hj).mp hbj
    have hik := (block_eq_iff h hp hk).mp hbk
    exact hne (hij.symm.trans hik)
  union := by
    intro p
    constructor
    · intro hp
      have hk := indexOf_lt hp
      refine ⟨indexOf r p, hk, ?_⟩
      rw [posAt_of_lt h hk, covers_iff h hk]
      exact ⟨(block_eq_iff h hp hk).mpr rfl, hp⟩
    · rintro ⟨k, hk, hcovers⟩
      rw [posAt_of_lt h hk, covers_iff h hk] at hcovers
      exact hcovers.2

/-! ## Where it is not -/

/-- A walk that has the last column in front of it stays in its row. -/
theorem posAt_row (hright : 32760 ≤ r.right.toInt) (k : Nat) :
    (posAt r k).x.toInt % 8 = 0 ∧ (posAt r k).y = (begin_ r).y := by
  induction k with
  | zero =>
    have hx : (posAt r 0).x.toInt = 8 * (r.left.toInt / 8) := toInt_and_not_seven _
    exact ⟨by omega, rfl⟩
  | succ k ih =>
    obtain ⟨hx, hy⟩ := ih
    have hb := bounds ((posAt r k).x + 8)
    have hx8 : ((posAt r k).x + 8).toInt = ((posAt r k).x.toInt + 8).bmod (2 ^ 16) := by
      rw [Int16.toInt_add]
      rfl
    have halign : ((posAt r k).x + 8).toInt % 8 = 0 := by
      rw [hx8, Int.bmod_def]
      omega
    have hle : ¬ r.x.upper < (posAt r k).x + 8 := by
      rw [Int16.lt_iff_toInt_lt]
      change ¬ r.right.toInt < _
      omega
    rw [posAt_succ, next, if_neg hle]
    exact ⟨halign, hy⟩

section

variable {n : Nat} (hv : r.valid) (h : Tiles r n)
include hv h

theorem begin_ne_end : begin_ r ≠ endFor r := by
  intro heq
  obtain ⟨k, hk, -⟩ := (h.union r.topLeft).mp (Rectangle.contains_topLeft hv)
  exact h.runs 0 (by omega) heq

theorem right_of_tiles : r.right.toInt < 32760 := by
  by_contra hright
  have hrow := (posAt_row (not_lt.mp hright) n).2
  rw [h.ends] at hrow
  exact begin_ne_end hv h (congrArg (Point.mk _) hrow.symm)

theorem rows_of_tiles : -32760 ≤ r.top.toInt ∨ r.bottom.toInt < 32760 := by
  by_contra hrows
  rw [not_or, not_le, not_lt] at hrows
  refine begin_ne_end hv h (Point.ext_toInt rfl ?_)
  have hbegin : (begin_ r).y.toInt = 8 * (r.top.toInt / 8) := toInt_and_not_seven _
  have ht := bounds r.top
  have hb := bounds r.bottom
  rw [hbegin, (toInt_endFor r).2, Int.bmod_def]
  omega

theorem decomposable_of_tiles : r.Decomposable :=
  ⟨hv, right_of_tiles hv h, rows_of_tiles hv h⟩

end

/-- A valid rectangle is tiled, and set in the sparse grid, just where it ends in front of the last
column and leaves out the first or the last row. -/
theorem tiled_iff (r : Rectangle I16) (hv : r.valid) : (∃ n, Tiles r n) ∧ SetsExactly r ↔ r.Decomposable := by
  constructor
  · rintro ⟨⟨n, h⟩, -⟩
    exact decomposable_of_tiles hv h
  · intro h
    exact ⟨⟨_, tiles h⟩, fun grid hfree => (SparseOccupancyGrid.tryAdd_spec h grid).2 hfree⟩

/-- Three blocks wide and two high, on both sides of the origin's row. -/
def inTheMiddle : Rectangle I16 := ⟨⟨-20, -5⟩, ⟨-3, 4⟩⟩

theorem tiled_iff_inTheMiddle : inTheMiddle.valid ∧
    ((∃ n, Tiles inTheMiddle n) ∧ SetsExactly inTheMiddle ↔ inTheMiddle.Decomposable) :=
  ⟨by decide, tiled_iff inTheMiddle (by decide)⟩

/-- Eight points in the last block of the first row. -/
def atTheEnd : Rectangle I16 := ⟨⟨32760, 32767⟩, ⟨0, 0⟩⟩

theorem atTheEnd_not_tiled : atTheEnd.valid ∧ ¬ ∃ n, Tiles atTheEnd n := by
  refine ⟨by decide, ?_⟩
  rintro ⟨n, h⟩
  exact absurd (right_of_tiles (by decide) h) (by decide)

end RectangleDecomposer

end Pepp
