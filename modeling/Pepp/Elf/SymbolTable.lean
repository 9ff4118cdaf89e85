import Pepp.Integers

/-!
# Symbol tables

A symbol table section with the string table it is linked to. The number of
symbols is computed from the section header, in 32 bits.
-/

namespace Pepp.Elf

inductive ElfBits where
  | b32
  | b64
  deriving DecidableEq, Repr

def ElfBits.width : ElfBits → Nat
  | .b32 => 32
  | .b64 => 64

abbrev Word (b : ElfBits) := BitVec b.width

structure Symbol (b : ElfBits) where
  stName : U32 := 0
  stInfo : U8 := 0
  stOther : U8 := 0
  stShndx : U16 := 0
  stValue : Word b := 0
  stSize : Word b := 0
  deriving DecidableEq

/-- `sizeof(PackedElfSymbol<B, E>)` -/
def symbolSize : ElfBits → Nat
  | .b32 => 16
  | .b64 => 24

structure SymbolTable (b : ElfBits) where
  shSize : Word b
  shEntsize : Word b
  /-- The entries of the section's data. -/
  data : List (Symbol b)
  /-- What `get_string_span` has at an offset of the string table. -/
  strings : Word b → List U8

namespace SymbolTable

variable {b : ElfBits} (t : SymbolTable b)

/-- Both numbers are cut to 32 bits before they are divided. -/
def symbolCount : Nat :=
  if t.shEntsize = 0 ∨ t.shSize = 0 then 0 else t.shSize.toNat % 2 ^ 32 / (t.shEntsize.toNat % 2 ^ 32)

def getSymbol (index : Nat) : Symbol b := if t.symbolCount ≤ index then {} else t.data.getD index {}

def getSymbolName (index : Nat) : List U8 :=
  if t.symbolCount ≤ index then [] else t.strings ((t.getSymbol index).stName.setWidth b.width)

/-- The name of an entry, also of one that is not counted. -/
def nameOf (index : Nat) : List U8 := t.strings ((t.data.getD index {}).stName.setWidth b.width)

/-- The header says how large the data are. -/
structure WellFormed : Prop where
  entsize : t.shEntsize.toNat = symbolSize b
  size : t.shSize.toNat = t.data.length * symbolSize b

variable {t}

theorem getSymbolName_eq {index : Nat} (h : index < t.symbolCount) : t.getSymbolName index = t.nameOf index := by
  rw [getSymbolName, if_neg (by omega), getSymbol, if_neg (by omega), nameOf]

theorem symbolCount_eq (h : t.WellFormed) :
    t.symbolCount = t.data.length * symbolSize b % 2 ^ 32 / symbolSize b := by
  have hsize : 0 < symbolSize b ∧ symbolSize b < 2 ^ 32 := by cases b <;> decide
  have hent : t.shEntsize ≠ 0 := by
    intro hzero
    have := h.entsize
    rw [hzero] at this
    simp only [BitVec.ofNat_eq_ofNat, BitVec.toNat_ofNat, Nat.zero_mod] at this
    omega
  rw [symbolCount, h.entsize, h.size, Nat.mod_eq_of_lt hsize.2]
  split
  · next hor =>
    have hzero := h.size
    rw [hor.resolve_left hent] at hzero
    simp only [BitVec.ofNat_eq_ofNat, BitVec.toNat_ofNat, Nat.zero_mod] at hzero
    rw [← hzero, Nat.zero_mod, Nat.zero_div]
  · rfl

/-- No entry is counted that is not there, and there are never as many as would not fit in an `i32`. -/
theorem symbolCount_le (h : t.WellFormed) : t.symbolCount ≤ t.data.length ∧ t.symbolCount < 2 ^ 31 := by
  have hsize : 16 ≤ symbolSize b := by cases b <;> decide
  rw [symbolCount_eq h]
  constructor
  · calc t.data.length * symbolSize b % 2 ^ 32 / symbolSize b ≤ t.data.length * symbolSize b / symbolSize b :=
          Nat.div_le_div_right (Nat.mod_le _ _)
      _ = t.data.length := Nat.mul_div_cancel _ (by omega)
  · have hmod := Nat.mod_lt (t.data.length * symbolSize b) (show 0 < 2 ^ 32 by decide)
    refine lt_of_le_of_lt (Nat.div_le_div_left hsize (by decide)) ?_
    omega

end SymbolTable

end Pepp.Elf
