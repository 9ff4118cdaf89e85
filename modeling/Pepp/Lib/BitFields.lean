import Mathlib.Data.BitVec

/-!
# Fields of a word

A field is a run of bits. Putting a value into one leaves every other bit alone,
and what is taken out again is the part of the value that there is room for.
-/

namespace BitFields

variable {w : Nat}

/-- The lowest `width` bits. -/
def lowMask (w width : Nat) : BitVec w := (1#w <<< width) - 1#w

/-- A mask of more bits than the word has is all ones. -/
def cappedMask (w width : Nat) : BitVec w := if w ≤ width then BitVec.allOnes w else lowMask w width

def extract (whole : BitVec w) (offset width : Nat) : BitVec w := whole >>> offset &&& lowMask w width

def insert (whole value : BitVec w) (offset width : Nat) : BitVec w :=
  whole &&& ~~~(cappedMask w width <<< offset) ||| (value &&& cappedMask w width) <<< offset

variable {width : Nat}

theorem toNat_lowMask (h : width < w) : (lowMask w width).toNat = 2 ^ width - 1 := by
  have hlt : 2 ^ width < 2 ^ w := Nat.pow_lt_pow_right (by decide) h
  have hpos := Nat.two_pow_pos width
  have hone : 1 < 2 ^ w := Nat.one_lt_two_pow (by omega)
  have hshift : (1#w <<< width).toNat = 2 ^ width := by
    rw [BitVec.toNat_shiftLeft, BitVec.toNat_ofNat, Nat.mod_eq_of_lt hone, Nat.one_shiftLeft, Nat.mod_eq_of_lt hlt]
  rw [lowMask, BitVec.toNat_sub_of_le]
  · rw [hshift, BitVec.toNat_ofNat, Nat.mod_eq_of_lt hone]
  · rw [BitVec.le_def, hshift, BitVec.toNat_ofNat, Nat.mod_eq_of_lt hone]
    exact hpos

theorem cappedMask_of_lt (h : width < w) : cappedMask w width = lowMask w width :=
  if_neg (Nat.not_le.mpr h)

theorem getLsbD_cappedMask (width i : Nat) :
    (cappedMask w width).getLsbD i = (decide (i < w) && decide (i < width)) := by
  by_cases h : w ≤ width
  · rw [cappedMask, if_pos h, BitVec.getLsbD_allOnes]
    by_cases hi : i < w <;> simp [hi]
    omega
  · rw [cappedMask_of_lt (by omega), BitVec.getLsbD, toNat_lowMask (by omega), Nat.testBit_two_pow_sub_one]
    by_cases hi : i < width <;> simp [hi]
    omega

/-- What is taken out of a field is what was put in, cut to the field. -/
theorem extract_insert (whole value : BitVec w) {offset width : Nat} (hw : width < w) (h : offset + width ≤ w) :
    extract (insert whole value offset width) offset width = value &&& lowMask w width := by
  rw [extract, insert, ← cappedMask_of_lt hw]
  apply BitVec.eq_of_getLsbD_eq
  intro i hi
  simp only [BitVec.getLsbD_and, BitVec.getLsbD_ushiftRight, BitVec.getLsbD_or, BitVec.getLsbD_not,
    BitVec.getLsbD_shiftLeft, getLsbD_cappedMask, Nat.add_sub_cancel_left]
  by_cases hf : i < width
  · simp [hi, hf, show offset + i < w by omega, show ¬ offset + i < offset by omega]
  · simp [hf]

/-- A field is known from its bits. -/
theorem extract_congr {a b : BitVec w} {offset width : Nat} (hw : width < w)
    (h : ∀ i < width, a.getLsbD (offset + i) = b.getLsbD (offset + i)) :
    extract a offset width = extract b offset width := by
  rw [extract, extract, ← cappedMask_of_lt hw]
  apply BitVec.eq_of_getLsbD_eq
  intro i hi
  simp only [BitVec.getLsbD_and, BitVec.getLsbD_ushiftRight, getLsbD_cappedMask]
  by_cases hf : i < width
  · rw [h i hf]
  · simp [hf]

/-- The bits on either side of a field stay. -/
theorem getLsbD_insert (whole value : BitVec w) {offset width i : Nat} (h : i < offset ∨ offset + width ≤ i) :
    (insert whole value offset width).getLsbD i = whole.getLsbD i := by
  simp only [insert, BitVec.getLsbD_or, BitVec.getLsbD_and, BitVec.getLsbD_not, BitVec.getLsbD_shiftLeft,
    getLsbD_cappedMask]
  by_cases hi : i < w
  · have hout : decide (i < offset) = true ∨ decide (i - offset < width) = false := by
      simp only [decide_eq_true_eq, decide_eq_false_iff_not]
      omega
    rcases hout with hout | hout <;> simp [hi, hout]
  · simp [hi, BitVec.getLsbD_of_ge whole i (by omega)]

theorem toNat_and_lowMask (value : BitVec w) (h : width < w) :
    (value &&& lowMask w width).toNat = value.toNat % 2 ^ width := by
  rw [BitVec.toNat_and, toNat_lowMask h, Nat.and_two_pow_sub_one_eq_mod]

end BitFields
