import Pepp.Geom.Rectangle

/-!
# Cells of an occupancy grid

What a sparse grid says of single points. A rectangle the walk over its blocks
gets through is added, removed and looked up as the set of its points.
-/

namespace Pepp

/-! ## Dense grids -/

namespace DenseOccupancyGrid

theorem setRowBits_bit (grid : DenseOccupancyGrid) (bits : U8) {row i j : Nat} (hi : i < 8) (hj : j < 8) :
    (grid.setRowBits row bits).getLsbD (8 * j + i) = if j = row then bits.getLsbD i else grid.getLsbD (8 * j + i) := by
  have hmask : ∀ k : Nat, (0xFF#64).getLsbD k = decide (k < 8) := by
    intro k
    by_cases hk : k < 64
    · exact (by decide : ∀ k : Fin 64, (0xFF#64).getLsbD k = decide (k.val < 8)) ⟨k, hk⟩
    · rw [BitVec.getLsbD_of_ge _ _ (by omega), eq_comm, decide_eq_false_iff_not]
      omega
  unfold setRowBits
  by_cases hrow : 8 ≤ row
  · rw [if_pos hrow, if_neg (by omega)]
  · rw [if_neg hrow]
    simp only [BitVec.getLsbD_or, BitVec.getLsbD_and, BitVec.getLsbD_not, BitVec.getLsbD_shiftLeft, hmask,
      BitVec.getLsbD_setWidth]
    by_cases h : j = row
    · subst h
      simp [hi, show 8 * j + i < 64 by omega, show i < 64 by omega, show ¬ 8 * j + i < 8 * j by omega]
    · by_cases hlt : j < row
      · simp [h, show 8 * j + i < 64 by omega, show 8 * j + i < 8 * row by omega]
      · have hbit : bits.getLsbD (8 * j + i - 8 * row) = false := BitVec.getLsbD_of_ge _ _ (by omega)
        simp [h, hbit, show 8 * j + i < 64 by omega, show ¬ 8 * j + i < 8 * row by omega,
          show ¬ 8 * j + i - 8 * row < 8 by omega]

theorem foldl_setRowBits_bit (rows : List Nat) (grid : DenseOccupancyGrid) (bits : U8) {i j : Nat} (hi : i < 8)
    (hj : j < 8) : (rows.foldl (fun grid row => setRowBits grid row bits) grid).getLsbD (8 * j + i) =
      if j ∈ rows then bits.getLsbD i else grid.getLsbD (8 * j + i) := by
  induction rows generalizing grid with
  | nil => simp
  | cons row rows ih =>
    rw [List.foldl_cons, ih, setRowBits_bit _ _ hi hj]
    by_cases h : j ∈ rows
    · simp [h]
    · by_cases hrow : j = row <;> simp [h, hrow]

/-- A rectangle inside the grid sets the bits of its points. -/
theorem ofRectangle_bit {rect : Rectangle U8} (hx : rect.x.lower.toNat ≤ rect.x.upper.toNat)
    (hx7 : rect.x.upper.toNat ≤ 7) :
    ∃ mask, ofRectangle rect = some mask ∧ ∀ i < 8, ∀ j < 8, mask.getLsbD (8 * j + i) = true ↔
      (rect.x.lower.toNat ≤ i ∧ i ≤ rect.x.upper.toNat) ∧ rect.y.lower.toNat ≤ j ∧ j ≤ rect.y.upper.toNat := by
  refine ⟨_, if_neg (by omega), fun i hi j hj => ?_⟩
  have hones : ∀ k : Nat, (0xFF#8).getLsbD k = decide (k < 8) := by
    intro k
    by_cases hk : k < 8
    · exact (by decide : ∀ k : Fin 8, (0xFF#8).getLsbD k = decide (k.val < 8)) ⟨k, hk⟩
    · rw [BitVec.getLsbD_of_ge _ _ (by omega), eq_comm, decide_eq_false_iff_not]
      omega
  rw [foldl_setRowBits_bit _ _ _ hi hj]
  simp only [List.mem_range'_1, BitVec.getLsbD_and, BitVec.getLsbD_ushiftRight, BitVec.getLsbD_shiftLeft, hones, hi]
  split
  · simp only [decide_true, Bool.true_and, Bool.and_eq_true, Bool.not_eq_true', decide_eq_true_eq, decide_eq_false_iff_not]
    omega
  · simp only [BitVec.ofNat_eq_ofNat, BitVec.getLsbD_zero, Bool.false_eq_true, false_iff]
    omega

end DenseOccupancyGrid

/-! ## Blocks -/

theorem toInt_and_not_seven (v : I16) : (v &&& ~~~7).toInt = 8 * (v.toInt / 8) := by
  have hbits : v.toBitVec &&& ~~~7#16 = v.toBitVec >>> 3 <<< 3 := by
    have hseven : ∀ j : Fin 16, (7#16).getLsbD j = decide (j.val < 3) := by decide
    ext i hi
    have h7 : (7#16)[i] = decide (i < 3) := hseven ⟨i, hi⟩
    simp only [BitVec.getElem_and, BitVec.getElem_not, h7, BitVec.getElem_shiftLeft]
    by_cases h : i < 3
    · simp [h]
    · simp [h, show 3 + (i - 3) = i by omega, BitVec.getLsbD_eq_getElem hi]
  have hnat : (v.toBitVec &&& ~~~7#16).toNat = v.toBitVec.toNat / 8 * 8 := by
    rw [hbits, BitVec.toNat_shiftLeft, BitVec.toNat_ushiftRight, Nat.shiftRight_eq_div_pow, Nat.shiftLeft_eq]
    have := v.toBitVec.isLt
    omega
  change (v.toBitVec &&& ~~~7#16).toInt = 8 * (v.toBitVec.toInt / 8)
  rw [BitVec.toInt_eq_toNat_cond, BitVec.toInt_eq_toNat_cond, hnat]
  have := v.toBitVec.isLt
  split <;> split <;> omega

/-- The corner of a point's block. -/
def Point.block (p : Point I16) : Point I16 := ⟨p.x &&& ~~~7, p.y &&& ~~~7⟩

theorem Point.ext_toInt {p q : Point I16} (hx : p.x.toInt = q.x.toInt) (hy : p.y.toInt = q.y.toInt) : p = q := by
  obtain ⟨px, py⟩ := p
  obtain ⟨qx, qy⟩ := q
  exact congrArg₂ mk (Int16.toInt_inj.mp hx) (Int16.toInt_inj.mp hy)

/-- The bit of a point in the dense grid of its block. -/
def Point.bit (p : Point I16) : Nat := 8 * (p.y.toInt % 8).toNat + (p.x.toInt % 8).toNat

/-- The rectangle is not empty, it ends in front of the last column of blocks, and it does not reach
from the first row of blocks to the last. -/
structure Rectangle.Decomposable (r : Rectangle I16) : Prop where
  valid : r.valid
  right : r.right.toInt < 32760
  rows : -32760 ≤ r.top.toInt ∨ r.bottom.toInt < 32760

namespace RectangleDecomposer

variable (r : Rectangle I16)

def columns : Nat := (r.right.toInt / 8 - r.left.toInt / 8 + 1).toNat

def rows : Nat := (r.bottom.toInt / 8 - r.top.toInt / 8 + 1).toNat

/-- The blocks in the order of the walk. -/
def blockAt (k : Nat) : Point I16 :=
  ⟨Int16.ofInt (8 * (r.left.toInt / 8 + (k % columns r : Nat))), Int16.ofInt (8 * (r.top.toInt / 8 + (k / columns r : Nat)))⟩

variable {r} {p : Point I16}

theorem columns_pos (h : r.valid) : 0 < columns r := by
  rw [Rectangle.valid_iff] at h
  unfold columns
  omega

theorem bounds (v : I16) : -32768 ≤ v.toInt ∧ v.toInt < 32768 := ⟨v.le_toInt, v.toInt_lt⟩

theorem toInt_ofInt {n : Int} (h : -32768 ≤ n ∧ n < 32768) : (Int16.ofInt n).toInt = n :=
  Int16.toInt_ofInt_of_le h.1 h.2

theorem toInt_blockAt_x (h : r.Decomposable) (k : Nat) :
    (blockAt r k).x.toInt = 8 * (r.left.toInt / 8 + (k % columns r : Nat)) := by
  have hpos := columns_pos h.valid
  have hmod := Nat.mod_lt k hpos
  have hv := Rectangle.valid_iff.mp h.valid
  have hr := h.right
  have hl := bounds r.left
  refine toInt_ofInt ?_
  generalize k % columns r = column at hmod ⊢
  unfold columns at hmod
  omega

theorem toInt_blockAt_y (h : r.Decomposable) {k : Nat} (hk : k < columns r * rows r) :
    (blockAt r k).y.toInt = 8 * (r.top.toInt / 8 + (k / columns r : Nat)) := by
  have hdiv := Nat.div_lt_of_lt_mul hk
  have hv := Rectangle.valid_iff.mp h.valid
  have ht := bounds r.top
  have hb := bounds r.bottom
  refine toInt_ofInt ?_
  generalize k / columns r = row at hdiv ⊢
  unfold rows at hdiv
  omega

theorem begin_eq (h : r.Decomposable) : begin_ r = blockAt r 0 := by
  have hx := toInt_blockAt_x h 0
  have hv := Rectangle.valid_iff.mp h.valid
  have hrows : 0 < columns r * rows r := by
    refine Nat.mul_pos (columns_pos h.valid) ?_
    unfold rows
    omega
  have hy := toInt_blockAt_y h hrows
  simp only [Nat.zero_mod, Nat.zero_div, Nat.cast_zero, Int.add_zero] at hx hy
  refine Point.ext_toInt ?_ ?_
  · rw [hx]
    exact toInt_and_not_seven _
  · rw [hy]
    exact toInt_and_not_seven _

theorem toInt_endFor (r : Rectangle I16) : (endFor r).x.toInt = 8 * (r.left.toInt / 8) ∧
    (endFor r).y.toInt = (8 * (r.bottom.toInt / 8) + 8).bmod (2 ^ 16) := by
  refine ⟨toInt_and_not_seven _, ?_⟩
  change ((r.y.upper &&& ~~~7) + 8).toInt = _
  rw [Int16.toInt_add, toInt_and_not_seven]
  rfl

/-- The walk does not stop at a block of the rectangle. -/
theorem blockAt_ne_end (h : r.Decomposable) {k : Nat} (hk : k < columns r * rows r) : blockAt r k ≠ endFor r := by
  intro heq
  obtain ⟨hx, hy⟩ := toInt_endFor r
  rw [← heq] at hy
  rw [toInt_blockAt_y h hk] at hy
  have hdiv := Nat.div_lt_of_lt_mul hk
  have hv := Rectangle.valid_iff.mp h.valid
  have hrows := h.rows
  have ht := bounds r.top
  have hb := bounds r.bottom
  generalize k / columns r = row at hdiv hy
  unfold rows at hdiv
  rw [Int.bmod_def] at hy
  omega

theorem next_blockAt (h : r.Decomposable) {k : Nat} (hk : k < columns r * rows r) :
    next r (blockAt r k) = if k + 1 = columns r * rows r then endFor r else blockAt r (k + 1) := by
  have hpos := columns_pos h.valid
  have hx := toInt_blockAt_x h k
  have hy := toInt_blockAt_y h hk
  have hmod := Nat.mod_lt k hpos
  have hdiv := Nat.div_lt_of_lt_mul hk
  have hsplit := Nat.div_add_mod k (columns r)
  have hv := Rectangle.valid_iff.mp h.valid
  have hright := h.right
  have hl := bounds r.left
  have ht := bounds r.top
  have hb := bounds r.bottom
  have hx8 : ((blockAt r k).x + 8).toInt = 8 * (r.left.toInt / 8 + (k % columns r : Nat)) + 8 := by
    rw [Int16.toInt_add, hx]
    change Int.bmod (_ + 8) _ = _
    generalize k % columns r = column at hmod ⊢
    unfold columns at hmod
    rw [Int.bmod_def]
    omega
  have hcolumns : (columns r : Int) = r.right.toInt / 8 - r.left.toInt / 8 + 1 := by
    unfold columns
    omega
  have hrows : (rows r : Int) = r.bottom.toInt / 8 - r.top.toInt / 8 + 1 := by
    unfold rows
    omega
  have hy8 : ((blockAt r k).y + 8).toInt = (8 * (r.top.toInt / 8 + (k / columns r : Nat)) + 8).bmod (2 ^ 16) := by
    rw [Int16.toInt_add, hy]
    rfl
  unfold next
  simp only [Int16.lt_iff_toInt_lt, hx8]
  by_cases hlast : k % columns r + 1 = columns r
  · rw [if_pos (by change r.right.toInt < _; omega)]
    have hnext : k + 1 = columns r * (k / columns r + 1) := by
      rw [Nat.mul_add, Nat.mul_one]
      omega
    by_cases hend : k + 1 = columns r * rows r
    · rw [if_pos hend]
      have hrow : k / columns r + 1 = rows r := Nat.eq_of_mul_eq_mul_left hpos (by rw [← hnext, hend])
      refine Point.ext_toInt rfl ?_
      change ((blockAt r k).y + 8).toInt = _
      rw [hy8]
      refine Eq.trans ?_ (toInt_endFor r).2.symm
      congr 1
      omega
    · rw [if_neg hend]
      have hkn : k + 1 < columns r * rows r := by omega
      have hx' := toInt_blockAt_x h (k + 1)
      have hy' := toInt_blockAt_y h hkn
      rw [show (k + 1) % columns r = 0 by rw [hnext, Nat.mul_mod_right]] at hx'
      rw [show (k + 1) / columns r = k / columns r + 1 by rw [hnext, Nat.mul_div_cancel_left _ hpos]] at hy'
      have hdiv' := Nat.div_lt_of_lt_mul hkn
      rw [show (k + 1) / columns r = k / columns r + 1 by rw [hnext, Nat.mul_div_cancel_left _ hpos]] at hdiv'
      refine Point.ext_toInt ?_ ?_
      · rw [hx', Nat.cast_zero, Int.add_zero]
        exact toInt_and_not_seven _
      · change ((blockAt r k).y + 8).toInt = _
        rw [hy8, hy', Int.bmod_def]
        generalize k / columns r = row at *
        omega
  · rw [if_neg (by change ¬ r.right.toInt < _; omega)]
    have hdivmod : (k + 1) / columns r = k / columns r ∧ (k + 1) % columns r = k % columns r + 1 := by
      rw [Nat.div_mod_unique hpos]
      exact ⟨by omega, by omega⟩
    have hkn : k + 1 < columns r * rows r := by
      have hle := Nat.mul_le_mul_left (columns r) (Nat.succ_le_of_lt hdiv)
      rw [Nat.succ_eq_add_one, Nat.mul_add, Nat.mul_one] at hle
      omega
    rw [if_neg (by omega)]
    have hx' := toInt_blockAt_x h (k + 1)
    have hy' := toInt_blockAt_y h hkn
    rw [hdivmod.2] at hx'
    rw [hdivmod.1] at hy'
    refine Point.ext_toInt ?_ ?_
    · change ((blockAt r k).x + 8).toInt = _
      rw [hx8, hx']
      omega
    · exact hy.trans hy'.symm

/-- A walk over the blocks keeps what each of its steps keeps, and ends. -/
theorem forEach_meets {β : Type} {body : Point I16 → Rectangle U8 → β → Option (ForInStep β)} {b : β}
    (h : r.Decomposable) (inv : Nat → β → Prop) (post : β → Prop) (hinit : inv 0 b)
    (hstep : ∀ k < columns r * rows r, ∀ s, inv k s → ∃ o, body (blockAt r k) (clip r (blockAt r k)) s = some o ∧
      match o with
      | .done s' => post s'
      | .yield s' => inv (k + 1) s')
    (hend : ∀ s, inv (columns r * rows r) s → post s) : ∃ s, forEach r body b = some s ∧ post s := by
  have hloop : ∀ m k s fuel, k + m = columns r * rows r → m < fuel → inv k s →
      ∃ s', loop r body fuel (if k = columns r * rows r then endFor r else blockAt r k) s = some s' ∧ post s' := by
    intro m
    induction m with
    | zero =>
      intro k s fuel hk hfuel hinv
      obtain ⟨fuel, rfl⟩ : ∃ f, fuel = f + 1 := ⟨fuel - 1, by omega⟩
      rw [Nat.add_zero] at hk
      subst hk
      refine ⟨s, ?_, hend s hinv⟩
      rw [if_pos rfl, loop, if_pos rfl]
    | succ m ih =>
      intro k s fuel hk hfuel hinv
      obtain ⟨fuel, rfl⟩ : ∃ f, fuel = f + 1 := ⟨fuel - 1, by omega⟩
      have hlt : k < columns r * rows r := by omega
      obtain ⟨o, ho, hpost⟩ := hstep k hlt s hinv
      rw [if_neg (by omega), loop, if_neg (blockAt_ne_end h hlt), ho]
      cases o with
      | done s' => exact ⟨s', rfl, hpost⟩
      | yield s' =>
        simp only [next_blockAt h hlt]
        exact ih (k + 1) s' fuel (by omega) (by omega) hpost
  have hv := Rectangle.valid_iff.mp h.valid
  have hc : columns r ≤ 2 ^ 13 := by
    have hl := bounds r.left
    have hr := bounds r.right
    unfold columns
    omega
  have hr : rows r ≤ 2 ^ 13 := by
    have ht := bounds r.top
    have hb := bounds r.bottom
    unfold rows
    omega
  have hcount : columns r * rows r ≤ corners := Nat.mul_le_mul hc hr
  have hpos : 0 < columns r * rows r := by
    refine Nat.mul_pos (columns_pos h.valid) ?_
    unfold rows
    omega
  have hwalk := hloop (columns r * rows r) 0 b (corners + 1) (by omega) (by omega) hinit
  rw [if_neg (by omega), ← begin_eq h] at hwalk
  exact hwalk

/-! ## Points of a rectangle -/

/-- Where the walk meets the block of a point. -/
def indexOf (r : Rectangle I16) (p : Point I16) : Nat :=
  columns r * (p.y.toInt / 8 - r.top.toInt / 8).toNat + (p.x.toInt / 8 - r.left.toInt / 8).toNat

theorem indexOf_lt (h : r.contains p) : indexOf r p < columns r * rows r := by
  rw [Rectangle.contains_iff] at h
  have hrow : (p.y.toInt / 8 - r.top.toInt / 8).toNat + 1 ≤ rows r := by
    unfold rows
    omega
  have hle := Nat.mul_le_mul_left (columns r) hrow
  rw [Nat.mul_add, Nat.mul_one] at hle
  have hcolumn : (p.x.toInt / 8 - r.left.toInt / 8).toNat < columns r := by
    unfold columns
    omega
  unfold indexOf
  omega

/-- A point of the rectangle is in the block the walk meets then, and in no other. -/
theorem block_eq_iff (h : r.Decomposable) (hp : r.contains p) {k : Nat} (hk : k < columns r * rows r) :
    p.block = blockAt r k ↔ indexOf r p = k := by
  have hx := toInt_blockAt_x h k
  have hy := toInt_blockAt_y h hk
  have hpos := columns_pos h.valid
  rw [Rectangle.contains_iff] at hp
  have hcolumn : (p.x.toInt / 8 - r.left.toInt / 8).toNat < columns r := by
    unfold columns
    omega
  have hdivmod : indexOf r p = k ↔
      k / columns r = (p.y.toInt / 8 - r.top.toInt / 8).toNat ∧ k % columns r = (p.x.toInt / 8 - r.left.toInt / 8).toNat := by
    rw [Nat.div_mod_unique hpos, indexOf, Nat.add_comm]
    exact ⟨fun h => ⟨h, hcolumn⟩, fun h => h.1⟩
  rw [hdivmod]
  generalize k / columns r = row at *
  generalize k % columns r = column at *
  have hbx : p.block.x.toInt = 8 * (p.x.toInt / 8) := toInt_and_not_seven _
  have hby : p.block.y.toInt = 8 * (p.y.toInt / 8) := toInt_and_not_seven _
  constructor
  · intro hblock
    rw [hblock] at hbx hby
    omega
  · rintro ⟨rfl, rfl⟩
    refine Point.ext_toInt ?_ ?_ <;> omega

theorem toInt_width (r : Rectangle I16) : r.width.toInt = r.x.sizeInclusive.bmod (2 ^ 16) := Int16.toInt_ofInt

theorem toInt_height (r : Rectangle I16) : r.height.toInt = r.y.sizeInclusive.bmod (2 ^ 16) := Int16.toInt_ofInt

/-- Clipping an interval to the eight points from `pos` on: where it begins and ends among them. -/
theorem clip_interval {src : Interval I16} {pos : I16} (hpos : pos.toInt + 7 < 32768) (hv : src.valid)
    (hl : src.lower.toInt ≤ pos.toInt + 7) (hu : pos.toInt ≤ src.upper.toInt) :
    let isec := src.intersection ⟨pos, pos + 8 - 1⟩
    let clipped := BitVec.ofInt 8 (isec.lower.toInt - pos.toInt)
    let size := BitVec.ofInt 8 (Int16.ofInt isec.sizeInclusive).toInt
    (clipped.toNat : Int) = max src.lower.toInt pos.toInt - pos.toInt ∧
      ((clipped + size - 1).toNat : Int) = min src.upper.toInt (pos.toInt + 7) - pos.toInt := by
  have hb := bounds pos
  have hmask : (pos + 8 - 1).toInt = pos.toInt + 7 := by
    rw [Int16.toInt_sub, Int16.toInt_add]
    change Int.bmod (Int.bmod (pos.toInt + 8) _ - 1) _ = _
    rw [Int.bmod_def, Int.bmod_def]
    omega
  have hmeet : src.intersects ⟨pos, pos + 8 - 1⟩ := by
    refine ⟨hv, ?_, ?_, ?_⟩
    · change pos ≤ pos + 8 - 1
      rw [Rectangle.le_iff, hmask]
      omega
    · change src.lower ≤ pos + 8 - 1
      rw [Rectangle.le_iff, hmask]
      omega
    · exact Rectangle.le_iff.mpr hu
  have hv' := Rectangle.le_iff.mp hv
  simp only [Interval.intersection, if_pos hmeet, Interval.sizeInclusive, Interval.valid, Rectangle.le_iff,
    Rectangle.toInt_max, Rectangle.toInt_min, hmask]
  have hone : BitVec.toNat (1 : U8) = 1 := rfl
  rw [if_neg (by omega), toInt_ofInt (by omega)]
  simp only [BitVec.toNat_add, BitVec.toNat_sub, BitVec.toNat_ofInt, hone]
  omega

section

variable {k : Nat} (h : r.Decomposable) (hk : k < columns r * rows r)
include h hk

/-- A block of the walk is aligned and meets the rectangle. -/
theorem blockAt_meets :
    ((blockAt r k).x.toInt % 8 = 0 ∧ (blockAt r k).y.toInt % 8 = 0) ∧
      ((blockAt r k).x.toInt ≤ r.right.toInt ∧ r.left.toInt ≤ (blockAt r k).x.toInt + 7) ∧
      (blockAt r k).y.toInt ≤ r.bottom.toInt ∧ r.top.toInt ≤ (blockAt r k).y.toInt + 7 := by
  have hx := toInt_blockAt_x h k
  have hy := toInt_blockAt_y h hk
  have hmod := Nat.mod_lt k (columns_pos h.valid)
  have hdiv := Nat.div_lt_of_lt_mul hk
  have hv := Rectangle.valid_iff.mp h.valid
  refine ⟨by omega, ?_, ?_⟩
  · generalize k % columns r = column at *
    unfold columns at hmod
    omega
  · generalize k / columns r = row at *
    unfold rows at hdiv
    omega

/-- The clipped rectangle is the part of the rectangle in that block. -/
theorem clip_bounds :
    (((clip r (blockAt r k)).x.lower.toNat : Int) = max r.left.toInt (blockAt r k).x.toInt - (blockAt r k).x.toInt ∧
      ((clip r (blockAt r k)).x.upper.toNat : Int) =
        min r.right.toInt ((blockAt r k).x.toInt + 7) - (blockAt r k).x.toInt) ∧
      ((clip r (blockAt r k)).y.lower.toNat : Int) = max r.top.toInt (blockAt r k).y.toInt - (blockAt r k).y.toInt ∧
      ((clip r (blockAt r k)).y.upper.toNat : Int) =
        min r.bottom.toInt ((blockAt r k).y.toInt + 7) - (blockAt r k).y.toInt := by
  obtain ⟨halign, hcolumn, hrow⟩ := blockAt_meets h hk
  have hb := bounds r.bottom
  have hr := h.right
  exact ⟨clip_interval (by omega) h.valid.1 hcolumn.2 hcolumn.1, clip_interval (by omega) h.valid.2 hrow.2 hrow.1⟩

/-- The clipped rectangle's bits are the points of the rectangle in that block. -/
theorem clip_bit :
    ∃ mask, DenseOccupancyGrid.ofRectangle (clip r (blockAt r k)) = some mask ∧
      ∀ p : Point I16, p.block = blockAt r k → (mask.getLsbD p.bit = true ↔ r.contains p) := by
  obtain ⟨halign, hcolumn, hrow⟩ := blockAt_meets h hk
  obtain ⟨⟨hxl, hxu⟩, hyl, hyu⟩ := clip_bounds h hk
  have hv := Rectangle.valid_iff.mp h.valid
  obtain ⟨mask, hmask, hbits⟩ := @DenseOccupancyGrid.ofRectangle_bit (clip r (blockAt r k)) (by omega) (by omega)
  refine ⟨mask, hmask, fun p hp => ?_⟩
  have hpx : 8 * (p.x.toInt / 8) = (blockAt r k).x.toInt := by
    rw [← hp]
    exact (toInt_and_not_seven _).symm
  have hpy : 8 * (p.y.toInt / 8) = (blockAt r k).y.toInt := by
    rw [← hp]
    exact (toInt_and_not_seven _).symm
  rw [Point.bit, hbits _ (by omega) _ (by omega), Rectangle.contains_iff]
  omega

/-- Every bit of a block's dense grid is that of a point. -/
theorem exists_point {n : Nat} (hn : n < 64) : ∃ p : Point I16, p.block = blockAt r k ∧ p.bit = n := by
  have hx := toInt_blockAt_x h k
  have hy := toInt_blockAt_y h hk
  have hbx := bounds (blockAt r k).x
  have hby := bounds (blockAt r k).y
  have hpx : (Int16.ofInt ((blockAt r k).x.toInt + (n % 8 : Nat))).toInt = (blockAt r k).x.toInt + (n % 8 : Nat) :=
    toInt_ofInt (by omega)
  have hpy : (Int16.ofInt ((blockAt r k).y.toInt + (n / 8 : Nat))).toInt = (blockAt r k).y.toInt + (n / 8 : Nat) :=
    toInt_ofInt (by omega)
  refine ⟨⟨Int16.ofInt ((blockAt r k).x.toInt + (n % 8 : Nat)), Int16.ofInt ((blockAt r k).y.toInt + (n / 8 : Nat))⟩,
    Point.ext_toInt ?_ ?_, ?_⟩
  · refine (toInt_and_not_seven _).trans ?_
    rw [hpx]
    omega
  · refine (toInt_and_not_seven _).trans ?_
    rw [hpy]
    omega
  · rw [Point.bit, hpx, hpy]
    omega

end

end RectangleDecomposer

/-! ## Sparse grids -/

namespace SparseOccupancyGrid

/-- A point is occupied. -/
def cell (grid : SparseOccupancyGrid) (p : Point I16) : Bool :=
  match grid p.block with
  | none => false
  | some dense => dense.getLsbD p.bit

open RectangleDecomposer

variable {grid : SparseOccupancyGrid} {r : Rectangle I16} {p : Point I16} {pos : Point I16}

theorem cell_add (mask : DenseOccupancyGrid) :
    (grid.add pos mask).cell p = if p.block = pos then grid.cell p || mask.getLsbD p.bit else grid.cell p := by
  unfold cell add
  by_cases h : p.block = pos
  · subst h
    rw [Function.update_self, if_pos rfl]
    cases grid p.block <;> simp
  · rw [Function.update_of_ne h, if_neg h]

theorem cell_subtract {dense : DenseOccupancyGrid} (hd : grid pos = some dense) (mask : DenseOccupancyGrid) :
    (grid.subtract pos dense mask).cell p =
      if p.block = pos then grid.cell p && !mask.getLsbD p.bit else grid.cell p := by
  unfold cell subtract
  by_cases h : p.block = pos
  · subst h
    have hbit : p.bit < 64 := by
      unfold Point.bit
      omega
    rw [if_pos rfl, hd]
    by_cases hz : dense &&& ~~~mask = 0
    · rw [if_pos hz, Function.update_self]
      have hclear : (dense &&& ~~~mask).getLsbD p.bit = false := by rw [hz]; exact BitVec.getLsbD_zero
      rw [BitVec.getLsbD_and, BitVec.getLsbD_not] at hclear
      simpa [hbit] using hclear.symm
    · rw [if_neg hz, Function.update_self]
      simp only [BitVec.getLsbD_and, BitVec.getLsbD_not, hbit, decide_true, Bool.true_and]
  · rw [if_neg h]
    by_cases hz : dense &&& ~~~mask = 0
    · rw [if_pos hz, Function.update_of_ne h]
    · rw [if_neg hz, Function.update_of_ne h]

/-- Whether some point of the rectangle is occupied. -/
theorem overlap_spec (h : r.Decomposable) (grid : SparseOccupancyGrid) :
    ∃ found, grid.overlap r = some found ∧ (found = true ↔ ∃ p, r.contains p ∧ grid.cell p = true) := by
  refine forEach_meets h (fun k found => found = false ∧ ∀ p, r.contains p → indexOf r p < k → grid.cell p = false)
    _ ⟨rfl, fun p _ hp => absurd hp (Nat.not_lt_zero _)⟩ (fun k hk found hinv => ?_) fun found hinv => ?_
  · obtain ⟨rfl, hseen⟩ := hinv
    obtain ⟨mask, hmask, hbits⟩ := clip_bit h hk
    have hkeep : (∀ p : Point I16, p.block = blockAt r k → r.contains p → grid.cell p = false) →
        ∀ p, r.contains p → indexOf r p < k + 1 → grid.cell p = false := fun hblock p hp hlt => by
      by_cases heq : indexOf r p = k
      · exact hblock p ((block_eq_iff h hp hk).mpr heq) hp
      · exact hseen p hp (by omega)
    cases hgrid : grid (blockAt r k) with
    | none =>
      refine ⟨_, rfl, rfl, hkeep fun p hblock _ => ?_⟩
      rw [cell, hblock, hgrid]
    | some dense =>
      simp only [hmask, Option.bind_eq_bind, Option.bind_some, Option.pure_def, Option.some.injEq]
      refine ⟨_, rfl, ?_⟩
      have hcell : ∀ p : Point I16, p.block = blockAt r k → grid.cell p = dense.getLsbD p.bit := fun p hblock => by
        rw [cell, hblock, hgrid]
      by_cases hz : dense &&& mask = 0
      · rw [if_neg (by simpa using hz)]
        refine ⟨rfl, hkeep fun p hblock hp => ?_⟩
        have hclear : (dense &&& mask).getLsbD p.bit = false := by rw [hz]; exact BitVec.getLsbD_zero
        rw [BitVec.getLsbD_and, (hbits p hblock).mpr hp, Bool.and_true] at hclear
        rw [hcell p hblock, hclear]
      · rw [if_pos (by simpa using hz)]
        refine iff_of_true rfl ?_
        by_contra hnone
        refine hz (BitVec.eq_of_getLsbD_eq fun n hn => ?_)
        obtain ⟨p, hblock, rfl⟩ := exists_point h hk hn
        rw [BitVec.getLsbD_and, BitVec.ofNat_eq_ofNat, BitVec.getLsbD_zero, Bool.and_eq_false_iff]
        by_contra hboth
        rw [not_or, Bool.not_eq_false, Bool.not_eq_false] at hboth
        exact hnone ⟨p, (hbits p hblock).mp hboth.2, (hcell p hblock).trans hboth.1⟩
  · obtain ⟨rfl, hseen⟩ := hinv
    refine iff_of_false Bool.false_ne_true ?_
    rintro ⟨p, hp, hcell⟩
    rw [hseen p hp (indexOf_lt hp)] at hcell
    exact Bool.false_ne_true hcell

theorem addAll_spec (h : r.Decomposable) (grid : SparseOccupancyGrid) :
    ∃ grid', forEach r (fun pos clip (grid : SparseOccupancyGrid) => do
        let mask ← DenseOccupancyGrid.ofRectangle clip
        return .yield (grid.add pos mask)) grid = some grid' ∧
      ∀ p, grid'.cell p = true ↔ grid.cell p = true ∨ r.contains p := by
  refine forEach_meets h
    (fun k grid' => ∀ p, grid'.cell p = true ↔ grid.cell p = true ∨ r.contains p ∧ indexOf r p < k)
    _ (fun p => by simp) (fun k hk grid' hinv => ?_) fun grid' hinv p => ?_
  · obtain ⟨mask, hmask, hbits⟩ := clip_bit h hk
    simp only [hmask, Option.bind_eq_bind, Option.bind_some, Option.pure_def, Option.some.injEq]
    refine ⟨_, rfl, fun p => ?_⟩
    rw [cell_add]
    split
    · next hblock =>
      rw [Bool.or_eq_true, hinv, hbits p hblock]
      constructor
      · rintro ((hc | hp) | hp)
        · exact .inl hc
        · exact .inr ⟨hp.1, by omega⟩
        · have := (block_eq_iff h hp hk).mp hblock
          exact .inr ⟨hp, by omega⟩
      · rintro (hc | hp)
        · exact .inl (.inl hc)
        · exact .inr hp.1
    · next hblock =>
      rw [hinv]
      refine or_congr_right (and_congr_right fun hp => ?_)
      have := (block_eq_iff h hp hk).not.mp hblock
      omega
  · rw [hinv]
    exact or_congr_right (and_iff_left_of_imp indexOf_lt)

/-- Points are added only if all of them are free. -/
theorem tryAdd_spec (h : r.Decomposable) (grid : SparseOccupancyGrid) :
    ((∃ p, r.contains p ∧ grid.cell p = true) → grid.tryAdd r = some (false, grid)) ∧
      ((∀ p, r.contains p → grid.cell p = false) → ∃ grid', grid.tryAdd r = some (true, grid') ∧
        ∀ p, grid'.cell p = true ↔ grid.cell p = true ∨ r.contains p) := by
  obtain ⟨found, hfound, hiff⟩ := overlap_spec h grid
  unfold tryAdd
  rw [hfound]
  constructor
  · intro hoverlap
    rw [hiff.mpr hoverlap]
    rfl
  · intro hfree
    have hnot : found = false := by
      rw [← Bool.not_eq_true, hiff]
      rintro ⟨p, hp, hcell⟩
      rw [hfree p hp] at hcell
      exact Bool.false_ne_true hcell
    rw [hnot]
    obtain ⟨grid', hloop, hcells⟩ := addAll_spec h grid
    refine ⟨grid', ?_, hcells⟩
    change (forEach r _ grid >>= fun grid => some (true, grid)) = _
    rw [hloop]
    rfl

theorem remove_spec (h : r.Decomposable) (grid : SparseOccupancyGrid) :
    ∃ grid', grid.remove r = some grid' ∧ ∀ p, grid'.cell p = true ↔ grid.cell p = true ∧ ¬ r.contains p := by
  refine forEach_meets h
    (fun k grid' => ∀ p, grid'.cell p = true ↔ grid.cell p = true ∧ ¬ (r.contains p ∧ indexOf r p < k))
    _ (fun p => by simp) (fun k hk grid' hinv => ?_) fun grid' hinv p => ?_
  · obtain ⟨mask, hmask, hbits⟩ := clip_bit h hk
    have hstep : ∀ p : Point I16, (¬ (r.contains p ∧ indexOf r p < k + 1)) ↔
        ¬ (r.contains p ∧ indexOf r p < k) ∧ ¬ (r.contains p ∧ p.block = blockAt r k) := fun p => by
      by_cases hp : r.contains p
      · simp only [hp, true_and, block_eq_iff h hp hk]
        omega
      · simp [hp]
    cases hgrid : grid' (blockAt r k) with
    | none =>
      refine ⟨_, rfl, fun p => ?_⟩
      rw [hinv, hstep, ← and_assoc]
      refine (and_iff_left_of_imp fun hc => ?_).symm
      rintro ⟨-, hblock⟩
      have hcell := (hinv p).mpr hc
      rw [cell, hblock, hgrid] at hcell
      exact Bool.false_ne_true hcell
    | some dense =>
      simp only [hmask, Option.bind_eq_bind, Option.bind_some, Option.pure_def, Option.some.injEq]
      refine ⟨_, rfl, fun p => ?_⟩
      rw [cell_subtract hgrid, hstep, ← and_assoc, ← hinv]
      split
      · next hblock =>
        rw [Bool.and_eq_true, Bool.not_eq_true', ← Bool.not_eq_true, hbits p hblock]
        simp [hblock]
      · next hblock => simp [hblock]
  · rw [hinv]
    exact and_congr_right fun _ => not_congr (and_iff_left_of_imp indexOf_lt)

end SparseOccupancyGrid

end Pepp
