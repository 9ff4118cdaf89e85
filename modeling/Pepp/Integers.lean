import Mathlib.Data.BitVec

/-!
# Fixed-width integers

The repository's `u8`, `u16`, `u32` and `u64` are bit vectors, so that every
wrap-around of the source is the wrap-around of the model. A word is split into
bytes and put together again here, most significant byte first.
-/

namespace Pepp

abbrev U8 := BitVec 8
abbrev U16 := BitVec 16
abbrev U32 := BitVec 32
abbrev U64 := BitVec 64

instance : LawfulBEq U32 := instLawfulBEq

/-- High byte of a 16-bit word. -/
def hiByte (w : U16) : U8 := (w >>> 8).setWidth 8

/-- Low byte of a 16-bit word. -/
def loByte (w : U16) : U8 := w.setWidth 8

/-- The word whose most significant byte comes first, as Pep memory stores it. -/
def bigEndian (hi lo : U8) : U16 := hi.setWidth 16 <<< 8 ||| lo.setWidth 16

@[simp] theorem bigEndian_bytes (w : U16) : bigEndian (hiByte w) (loByte w) = w := by
  ext i hi
  by_cases h : i < 8
  · simp [bigEndian, hiByte, loByte, h, BitVec.getLsbD_eq_getElem hi]
  · simp [bigEndian, hiByte, loByte, h, show i - 8 < 8 by omega, show 8 + (i - 8) = i by omega,
      BitVec.getLsbD_eq_getElem hi]

@[simp] theorem hiByte_bigEndian (hi lo : U8) : hiByte (bigEndian hi lo) = hi := by
  ext i h
  simp [hiByte, bigEndian, BitVec.getLsbD_eq_getElem h, show 8 + i < 16 by omega]

@[simp] theorem loByte_bigEndian (hi lo : U8) : loByte (bigEndian hi lo) = lo := by
  ext i h
  simp [loByte, bigEndian]

end Pepp
