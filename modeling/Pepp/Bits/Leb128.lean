import Mathlib.Tactic.Ring
import Pepp.Integers

/-!
# Signed LEB128

A number is written seven bits at a time, the lowest first, until what is left
repeats the sign bit of the last byte. The decoder extends that sign to the
width of the host's integer.
-/

namespace Pepp.Bits

/-- The bytes of a value that is not padded. -/
def encodeSLEB128 (value : Int) : List U8 :=
  let byte := BitVec.ofInt 8 (value % 128)
  let rest := value / 128
  if (rest = 0 ∧ value % 128 < 64) ∨ (rest = -1 ∧ 64 ≤ value % 128) then [byte]
  else (byte ||| 0x80) :: encodeSLEB128 rest
termination_by value.natAbs

/-- The decoded value and the number of its bytes, from the bits that are decoded so far. A shift of an integer by its
width is undefined. -/
def decodeSLEB128From (value : U64) (shift : Nat) : List U8 → Option (U64 × Nat)
  | [] => none
  | byte :: p =>
    if 64 ≤ shift then none
    else
      let value := value ||| (byte &&& 0x7f).setWidth 64 <<< shift
      let shift := shift + 7
      if 128 ≤ byte then (decodeSLEB128From value shift p).map fun r => (r.1, r.2 + 1)
      else if byte &&& 0x40 ≠ 0 then
        if 64 ≤ shift then none else some (value ||| BitVec.allOnes 64 <<< shift, 1)
      else some (value, 1)

/-- Decoding past the end of the bytes is undefined. -/
def decodeSLEB128 (p : List U8) : Option (U64 × Nat) := decodeSLEB128From 0 0 p

section Bits

variable {value : U64} {shift : Nat}

/-- Bits above all that are there are added to them. -/
theorem or_shifted (h : value.toNat < 2 ^ shift) (x : U64) : value ||| x <<< shift = value + x <<< shift := by
  refine (BitVec.add_eq_or_of_and_eq_zero value (x <<< shift) ?_).symm
  apply BitVec.eq_of_getLsbD_eq
  intro i _
  rw [BitVec.getLsbD_and, BitVec.getLsbD_shiftLeft]
  rcases Nat.lt_or_ge i shift with hi | hi
  · simp [hi]
  · rw [BitVec.getLsbD, Nat.testBit_lt_two_pow (h.trans_le (Nat.pow_le_pow_right (by decide) hi))]
    simp

theorem ofInt_shifted (x : Int) : BitVec.ofInt 64 x <<< shift = BitVec.ofInt 64 (x * 2 ^ shift) := by
  have hpow : BitVec.twoPow 64 shift = BitVec.ofInt 64 (2 ^ shift) := by
    apply BitVec.eq_of_toNat_eq
    rw [BitVec.toNat_twoPow]
    have hcast : (2 : Int) ^ shift = ((2 ^ shift : Nat) : Int) := by push_cast; rfl
    rw [hcast, BitVec.ofInt_natCast, BitVec.toNat_ofNat]
  rw [BitVec.shiftLeft_eq_mul_twoPow, hpow, BitVec.ofInt_mul]

end Bits

/-- The seven bits of a byte, whether or not more bytes follow. -/
theorem low_bits : ∀ d < 128, ((BitVec.ofNat 8 d &&& 0x7f).setWidth 64 : U64) = BitVec.ofNat 64 d ∧
    (((BitVec.ofNat 8 d ||| 0x80) &&& 0x7f).setWidth 64 : U64) = BitVec.ofNat 64 d ∧
    ¬ 128 ≤ BitVec.ofNat 8 d ∧ 128 ≤ BitVec.ofNat 8 d ||| 0x80 ∧
    (BitVec.ofNat 8 d &&& 0x40 ≠ 0 ↔ 64 ≤ d) := by
  decide +kernel

theorem toNat_low (v : Int) : ∃ d : Nat, d < 128 ∧ v % 128 = (d : Int) ∧ BitVec.ofInt 8 (v % 128) = BitVec.ofNat 8 d := by
  refine ⟨(v % 128).toNat, by omega, by omega, ?_⟩
  rw [← BitVec.ofInt_natCast, Int.toNat_of_nonneg (by omega)]

theorem lt_shifted {value : U64} {shift d : Nat} (h : value.toNat < 2 ^ shift) (hs : shift + 7 < 64) (hd : d < 128) :
    (value + BitVec.ofNat 64 d <<< shift).toNat < 2 ^ (shift + 7) := by
  have hpow : 2 ^ (shift + 7) = 2 ^ shift * 128 := Nat.pow_add 2 shift 7
  have hlt : 2 ^ (shift + 7) < 2 ^ 64 := Nat.pow_lt_pow_right (by decide) hs
  have hmul : d * 2 ^ shift ≤ 127 * 2 ^ shift := Nat.mul_le_mul_right _ (by omega)
  rw [BitVec.toNat_add, BitVec.toNat_shiftLeft, BitVec.toNat_ofNat, Nat.mod_eq_of_lt (show d < 2 ^ 64 by omega),
    Nat.shiftLeft_eq, Nat.mod_eq_of_lt (show d * 2 ^ shift < 2 ^ 64 by omega)]
  exact (Nat.mod_le _ _).trans_lt (by omega)

/-- Decoding adds the encoded number above the bits that are there. -/
theorem decode_encodeSLEB128 (v : Int) (p : List U8) {value : U64} {shift : Nat} (h : value.toNat < 2 ^ shift)
    (hs : shift + 7 * (encodeSLEB128 v).length < 64) :
    decodeSLEB128From value shift (encodeSLEB128 v ++ p) =
      some (value + BitVec.ofInt 64 (v * 2 ^ shift), (encodeSLEB128 v).length) := by
  have hcast : ∀ d : Nat, BitVec.ofNat 64 d <<< shift = BitVec.ofInt 64 (d * 2 ^ shift) := fun d => by
    rw [← ofInt_shifted, BitVec.ofInt_natCast]
  induction v using encodeSLEB128.induct generalizing value shift with
  | case1 v rest =>
    rename_i hstop
    obtain ⟨d, hd, hv, hbyte⟩ := toNat_low v
    obtain ⟨hlast, -, hshort, -, hsign⟩ := low_bits d hd
    have henc : encodeSLEB128 v = [BitVec.ofNat 8 d] := by
      rw [encodeSLEB128, if_pos hstop, hbyte]
    rw [henc] at hs ⊢
    rw [List.length_singleton] at hs
    have hlt := lt_shifted h hs hd
    rw [List.singleton_append, decodeSLEB128From, if_neg (by omega)]
    simp only [hlast, if_neg hshort, or_shifted h]
    by_cases hneg : 64 ≤ d
    · have hv' : v = d - 128 := by omega
      rw [if_pos (hsign.mpr hneg), if_neg (by omega), or_shifted hlt, hcast,
        show BitVec.allOnes 64 = BitVec.ofInt 64 (-1) from rfl, ofInt_shifted, BitVec.add_assoc, ← BitVec.ofInt_add, hv',
        show (d : Int) * 2 ^ shift + -1 * 2 ^ (shift + 7) = (d - 128) * 2 ^ shift by ring]
      rfl
    · have hv' : v = d := by omega
      rw [if_neg (fun hc => hneg (hsign.mp hc)), hcast, hv']
      rfl
  | case2 v rest hgo =>
    rename_i ih
    obtain ⟨d, hd, hv, hbyte⟩ := toNat_low v
    obtain ⟨-, hmore, -, hlong, -⟩ := low_bits d hd
    have henc : encodeSLEB128 v = (BitVec.ofNat 8 d ||| 0x80) :: encodeSLEB128 (v / 128) := by
      rw [encodeSLEB128, if_neg hgo, hbyte]
    rw [henc] at hs ⊢
    rw [List.length_cons] at hs
    rw [List.cons_append, decodeSLEB128From, if_neg (by omega)]
    simp only [hmore, if_pos hlong, or_shifted h]
    have hlen : shift + 7 + 7 * (encodeSLEB128 (v / 128)).length < 64 := by omega
    rw [ih (lt_shifted h (by omega) hd) hlen (fun d => by rw [← ofInt_shifted, BitVec.ofInt_natCast]), hcast,
      BitVec.add_assoc, ← BitVec.ofInt_add,
      show (d : Int) * 2 ^ shift + v / 128 * 2 ^ (shift + 7) = (v % 128 + 128 * (v / 128)) * 2 ^ shift by rw [hv]; ring,
      Int.emod_add_mul_ediv]
    rfl

/-- How many bytes a number takes. -/
theorem length_encodeSLEB128 (k : Nat) {v : Int} (h : -2 ^ (7 * k + 6) ≤ v) (h' : v < 2 ^ (7 * k + 6)) :
    (encodeSLEB128 v).length ≤ k + 1 := by
  induction k generalizing v with
  | zero =>
    rw [encodeSLEB128, if_pos (by omega)]
    exact Nat.le_refl _
  | succ k ih =>
    have hpow : (2 : Int) ^ (7 * (k + 1) + 6) = 128 * 2 ^ (7 * k + 6) := by
      rw [show 7 * (k + 1) + 6 = 7 + (7 * k + 6) by ring, pow_add]
      rfl
    rw [encodeSLEB128]
    split
    · simp
    · rw [List.length_cons]
      exact Nat.succ_le_succ (ih (by omega) (by omega))

end Pepp.Bits
