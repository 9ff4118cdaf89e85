import Mathlib.Tactic.IntervalCases
import Pepp.Bits.Escapes

/-!
# Bytes as hexadecimal text

Bytes are written as two digits each, with separators by rules that count the
bytes, into as much room as there is. Text is read back pair by pair; white
space may stand between pairs.
-/

namespace Pepp.Bits

structure SeparatorRule where
  skipFirst : Bool
  separator : U8
  modulus : U16
  deriving DecidableEq, Repr

/-- What the first rule that divides the number of a byte puts behind it; a division by zero is undefined. -/
def separatorAfter (number : Nat) : List SeparatorRule → Option (List U8)
  | [] => some []
  | rule :: rules =>
    if rule.modulus = 0 then none
    else if number % rule.modulus.toNat = 0 then some [rule.separator]
    else separatorAfter number rules

/-- The loop from byte `inIt` on, with the characters that are written so far. -/
def bytesToAsciiHexFrom (size : Nat) (separators : List SeparatorRule) :
    Nat → List U8 → List U8 → Option (List U8)
  | _, out, [] => some out
  | inIt, out, byte :: bytes =>
    if out.length + 2 ≤ size then
      let out := out ++ [upperDigit (byte >>> 4 &&& 0xf).toNat, upperDigit (byte &&& 0xf).toNat]
      if size < out.length + 1 then some out
      else do
        let separator ← separatorAfter (inIt + 1) separators
        bytesToAsciiHexFrom size separators (inIt + 1) (out ++ separator) bytes
    else some out

/-- The characters written to an output of `size` characters. -/
def bytesToAsciiHex (size : Nat) (bytes : List U8) (separators : List SeparatorRule) : Option (List U8) :=
  bytesToAsciiHexFrom size separators 0 [] bytes

/-- What is no digit comes to -1, as an unsigned byte. -/
def hexToInt (c : U8) : U8 :=
  if ch '0' ≤ c ∧ c ≤ ch '9' then c - ch '0'
  else if ch 'A' ≤ c ∧ c ≤ ch 'F' then c - ch 'A' + 10
  else if ch 'a' ≤ c ∧ c ≤ ch 'f' then c - ch 'a' + 10
  else 255

/-- White space between octets. -/
def isBlank (c : U8) : Bool := c = ch ' ' ∨ c = ch '\t' ∨ c = ch '\n' ∨ c = ch '\r'

/-- The loop, with the bytes that are read so far. -/
def asciiHexToByteFrom (ret : List U8) : List U8 → Option (List U8)
  | [] => some ret
  | [c] => if isBlank c then some ret else none
  | c :: d :: text =>
    if isBlank c then asciiHexToByteFrom ret (d :: text)
    else
      let byte : U16 := (hexToInt c).setWidth 16 <<< 4 ||| (hexToInt d).setWidth 16
      -- Bit 15 of the sum of two bytes, one shifted by four, is never set.
      if byte &&& 0x8000 ≠ 0 then some ret
      else asciiHexToByteFrom (ret ++ [byte.setWidth 8]) text

def asciiHexToByte (text : List U8) : Option (List U8) := asciiHexToByteFrom [] text

/-! ## The grammar -/

/-- Pairs of digits with white space around them, and the bytes they denote. -/
inductive Pairs : List U8 → List U8 → Prop
  | nil : Pairs [] []
  | blank {c : U8} {text bytes : List U8} (h : isBlank c) (htext : Pairs text bytes) : Pairs (c :: text) bytes
  | pair {c d : U8} {high low : Nat} {text bytes : List U8} (hc : xdigit c = some high) (hd : xdigit d = some low)
      (htext : Pairs text bytes) : Pairs (c :: d :: text) (BitVec.ofNat 8 (16 * high + low) :: bytes)

theorem Pairs.append {text text' bytes bytes' : List U8} (h : Pairs text bytes) (h' : Pairs text' bytes') :
    Pairs (text ++ text') (bytes ++ bytes') := by
  induction h with
  | nil => exact h'
  | blank h _ ih => exact .blank h ih
  | pair hc hd _ ih => exact .pair hc hd ih

/-- What a digit comes to. -/
theorem hexToInt_digit : ∀ c : U8, ∀ value ∈ xdigit c, isBlank c = false ∧ value < 16 ∧ (hexToInt c).toNat = value := by
  decide +kernel

theorem sum_unsigned (c d : U8) : ¬((hexToInt c).setWidth 16 <<< 4 ||| (hexToInt d).setWidth 16) &&& (0x8000 : U16) ≠ 0 := by
  rw [not_not]
  apply BitVec.eq_of_getLsbD_eq
  intro i hi
  interval_cases i <;> simp

variable {c d : U8} (b : U8) {inIt : Nat} {bytes : List U8}

/-- Two digits make the byte they denote. -/
theorem byte_of_digits {high low : Nat} (hc : xdigit c = some high) (hd : xdigit d = some low) :
    ((hexToInt c).setWidth 16 <<< 4 ||| (hexToInt d).setWidth 16 : U16).setWidth 8 = BitVec.ofNat 8 (16 * high + low) := by
  obtain ⟨-, hhigh, hc⟩ := hexToInt_digit c high hc
  obtain ⟨-, hlow, hd⟩ := hexToInt_digit d low hd
  apply BitVec.eq_of_toNat_eq
  rw [BitVec.toNat_setWidth, BitVec.toNat_or, BitVec.toNat_shiftLeft, BitVec.toNat_setWidth, BitVec.toNat_setWidth, hc, hd,
    BitVec.toNat_ofNat, Nat.mod_eq_of_lt (show high < 2 ^ 16 by omega), Nat.mod_eq_of_lt (show low < 2 ^ 16 by omega),
    Nat.shiftLeft_eq, Nat.mod_eq_of_lt (show high * 2 ^ 4 < 2 ^ 16 by omega), ← Nat.shiftLeft_eq,
    ← Nat.shiftLeft_add_eq_or_of_lt (show low < 2 ^ 4 by omega), Nat.shiftLeft_eq]
  omega

theorem asciiHexToByteFrom_blank {c : U8} (h : isBlank c) (ret text : List U8) :
    asciiHexToByteFrom ret (c :: text) = asciiHexToByteFrom ret text := by
  cases text with
  | nil => exact if_pos h
  | cons d text => exact if_pos h

theorem asciiHexToByteFrom_pair {high low : Nat} (hc : xdigit c = some high) (hd : xdigit d = some low)
    (ret text : List U8) :
    asciiHexToByteFrom ret (c :: d :: text) =
      asciiHexToByteFrom (ret ++ [BitVec.ofNat 8 (16 * high + low)]) text := by
  rw [asciiHexToByteFrom, if_neg (by rw [(hexToInt_digit c high hc).1]; decide)]
  rw [if_neg (sum_unsigned c d), byte_of_digits hc hd]

/-- A text of the grammar is read to its end. -/
theorem Pairs.read {text bytes : List U8} (h : Pairs text bytes) (ret rest : List U8) :
    asciiHexToByteFrom ret (text ++ rest) = asciiHexToByteFrom (ret ++ bytes) rest := by
  induction h generalizing ret with
  | nil => rw [List.append_nil, List.nil_append]
  | blank h _ ih => rw [List.cons_append, asciiHexToByteFrom_blank h, ih]
  | pair hc hd _ ih =>
    rw [List.cons_append, List.cons_append, asciiHexToByteFrom_pair hc hd, ih, List.append_assoc, List.singleton_append]

/-- The characters that are taken together, blanks in front of them left out, and one that is left over. -/
def octets : List U8 → List (U8 × U8) × Option U8
  | [] => ([], none)
  | [c] => ([], if isBlank c then none else some c)
  | c :: d :: text =>
    if isBlank c then octets (d :: text)
    else ((c, d) :: (octets text).1, (octets text).2)

/-- What two characters come to, digits or not. -/
def byteOf (p : U8 × U8) : U8 := ((hexToInt p.1).setWidth 16 <<< 4 ||| (hexToInt p.2).setWidth 16 : U16).setWidth 8

def AreDigits (p : U8 × U8) : Prop := (xdigit p.1).isSome ∧ (xdigit p.2).isSome

theorem octets_blank {c : U8} (h : isBlank c) (text : List U8) : octets (c :: text) = octets text := by
  cases text with
  | nil => simp [octets, h]
  | cons d text => rw [octets, if_pos h]

theorem octets_pair (h : isBlank c = false) (text : List U8) :
    octets (c :: d :: text) = ((c, d) :: (octets text).1, (octets text).2) := by
  rw [octets, if_neg (by simp [h])]

/-- The reader takes any two characters for a byte, and gives up when one is left over. -/
theorem asciiHexToByteFrom_octets (ret text : List U8) :
    asciiHexToByteFrom ret text =
      if (octets text).2 = none then some (ret ++ (octets text).1.map byteOf) else none := by
  fun_induction octets text generalizing ret with
  | case1 => simp [asciiHexToByteFrom]
  | case2 c => cases h : isBlank c <;> simp [asciiHexToByteFrom, h]
  | case3 c d text h ih => rw [asciiHexToByteFrom, if_pos h, ih]
  | case4 c d text h ih =>
    rw [asciiHexToByteFrom, if_neg h, if_neg (sum_unsigned c d), ih, List.map_cons, List.append_assoc]
    rfl

theorem Pairs.octets_eq {text bytes : List U8} (h : Pairs text bytes) :
    (octets text).2 = none ∧ (∀ p ∈ (octets text).1, AreDigits p) ∧ bytes = (octets text).1.map byteOf := by
  induction h with
  | nil => simp [octets]
  | blank h _ ih => rwa [octets_blank h]
  | @pair c d high low text bytes hc hd _ ih =>
    obtain ⟨hleft, hdigits, rfl⟩ := ih
    rw [octets_pair (hexToInt_digit c high hc).1]
    refine ⟨hleft, ?_, ?_⟩
    · rintro p (_ | ⟨_, hp⟩)
      · exact ⟨by rw [hc]; rfl, by rw [hd]; rfl⟩
      · exact hdigits p hp
    · rw [← byte_of_digits hc hd]
      rfl

theorem pairs_octets {text : List U8} (hleft : (octets text).2 = none) (hdigits : ∀ p ∈ (octets text).1, AreDigits p) :
    Pairs text ((octets text).1.map byteOf) := by
  fun_induction octets text with
  | case1 => exact .nil
  | case2 c =>
    cases h : isBlank c with
    | true => exact .blank h .nil
    | false => simp [h] at hleft
  | case3 c d text h ih => exact .blank h (ih hleft hdigits)
  | case4 c d text h ih =>
    obtain ⟨⟨hc, hd⟩, hrest⟩ := List.forall_mem_cons.mp hdigits
    obtain ⟨high, hc⟩ := Option.isSome_iff_exists.mp hc
    obtain ⟨low, hd⟩ := Option.isSome_iff_exists.mp hd
    have hpair := Pairs.pair hc hd (ih hleft hrest)
    rwa [← byte_of_digits hc hd] at hpair

/-- Blanks are the only characters that are not taken together with another one. -/
theorem countP_octets {text : List U8} (hleft : (octets text).2 = none) :
    text.countP (!isBlank ·) ≤ 2 * (octets text).1.length := by
  fun_induction octets text with
  | case1 => simp
  | case2 c => cases h : isBlank c <;> simp_all
  | case3 c d text h ih =>
    rw [List.countP_cons_of_neg (by simp [h])]
    exact ih hleft
  | case4 c d text h ih =>
    have hd := List.countP_cons (p := fun c => !isBlank c) (a := d) (l := text)
    have := ih hleft
    simp only [List.countP_cons, List.length_cons]
    split <;> split <;> omega

/-! ## Formatting -/

theorem xdigit_upperDigit : ∀ n < 16, xdigit (upperDigit n) = some n := by
  decide

theorem pairs_byte : Pairs [upperDigit (b >>> 4 &&& 0xf).toNat, upperDigit (b &&& 0xf).toNat] [b] := by
  have hlow : (b &&& 0xf).toNat = b.toNat % 16 := Nat.and_two_pow_sub_one_eq_mod b.toNat 4
  have hhigh : (b >>> 4 &&& 0xf).toNat = b.toNat / 16 := by
    have hand : (b >>> 4 &&& 0xf).toNat = (b >>> 4).toNat % 16 := Nat.and_two_pow_sub_one_eq_mod (b >>> 4).toNat 4
    rw [hand, BitVec.toNat_ushiftRight, Nat.shiftRight_eq_div_pow]
    omega
  have hb := b.isLt
  have hpair := Pairs.pair (xdigit_upperDigit (b.toNat / 16) (by omega)) (xdigit_upperDigit (b.toNat % 16) (by omega))
    Pairs.nil
  rw [show 16 * (b.toNat / 16) + b.toNat % 16 = b.toNat by omega, BitVec.ofNat_toNat, BitVec.setWidth_eq] at hpair
  rwa [hlow, hhigh]

/-- How many of the first `n` bytes have a separator behind them. -/
def separatorCount (separators : List SeparatorRule) (n : Nat) : Nat :=
  ((List.range n).filter fun i => separators.any fun rule => (i + 1) % rule.modulus.toNat = 0).length

theorem separatorCount_succ (separators : List SeparatorRule) (n : Nat) :
    separatorCount separators (n + 1) =
      separatorCount separators n + if separators.any fun rule => (n + 1) % rule.modulus.toNat = 0 then 1 else 0 := by
  rw [separatorCount, List.range_succ, List.filter_append, List.length_append]
  congr 1
  by_cases h : separators.any fun rule => (n + 1) % rule.modulus.toNat = 0 <;> simp [h]

theorem separatorCount_mono (separators : List SeparatorRule) {m n : Nat} (h : m ≤ n) :
    separatorCount separators m ≤ separatorCount separators n := by
  induction h with
  | refl => exact Nat.le_refl _
  | step _ ih =>
    rw [separatorCount_succ]
    omega

/-- A separator is one character or none. -/
theorem length_separatorAfter {number : Nat} {separators : List SeparatorRule} {separator : List U8}
    (h : separatorAfter number separators = some separator) :
    separator.length = if separators.any fun rule => number % rule.modulus.toNat = 0 then 1 else 0 := by
  induction separators with
  | nil =>
    cases h
    rfl
  | cons rule rules ih =>
    rw [separatorAfter] at h
    split at h
    · contradiction
    · split at h
      · rename_i hmod
        cases h
        simp [hmod]
      · rename_i hmod
        rw [ih h]
        simp [hmod]

/-- The output has room for the digits of `n` bytes and for the separators between them. -/
def Roomy (size : Nat) (separators : List SeparatorRule) (n : Nat) : Prop :=
  n ≠ 0 → 2 * n + separatorCount separators (n - 1) ≤ size

/-- The separator that is put behind byte number `number` is white space, or there is none. -/
def BlankAfter (separators : List SeparatorRule) (number : Nat) : Prop :=
  ∃ separator, separatorAfter number separators = some separator ∧ ∀ c ∈ separator, isBlank c

/-- The bytes whose digits are written with room behind them. -/
def Followed (size : Nat) (separators : List SeparatorRule) (number : Nat) : Prop :=
  2 * number + separatorCount separators (number - 1) < size

instance (size : Nat) (separators : List SeparatorRule) (number : Nat) : Decidable (Followed size separators number) :=
  inferInstanceAs (Decidable (_ < _))

variable {size : Nat} {separators : List SeparatorRule}

theorem pairs_of_blank {separator : List U8} (h : ∀ c ∈ separator, isBlank c) : Pairs separator [] := by
  induction separator with
  | nil => exact .nil
  | cons c separator ih =>
    obtain ⟨hc, hrest⟩ := List.forall_mem_cons.mp h
    exact .blank hc (ih hrest)

/-- One byte of the loop, with room for its digits: either they fill the output, or its separator follows. -/
theorem bytesToAsciiHexFrom_cons {out : List U8} (bytes : List U8)
    (hlen : out.length = 2 * inIt + separatorCount separators inIt) :
    bytesToAsciiHexFrom size separators inIt out (b :: bytes) =
      let digits := out ++ [upperDigit (b >>> 4 &&& 0xf).toNat, upperDigit (b &&& 0xf).toNat]
      if size < 2 * (inIt + 1) + separatorCount separators inIt then some out
      else if ¬ Followed size separators (inIt + 1) then some digits
      else (separatorAfter (inIt + 1) separators).bind fun separator =>
        bytesToAsciiHexFrom size separators (inIt + 1) (digits ++ separator) bytes := by
  rw [bytesToAsciiHexFrom]
  have hdigits : (out ++ [upperDigit (b >>> 4 &&& 0xf).toNat, upperDigit (b &&& 0xf).toNat]).length =
      2 * (inIt + 1) + separatorCount separators inIt := by
    rw [List.length_append, hlen]
    simp only [List.length_cons, List.length_nil]
    omega
  by_cases hroom : out.length + 2 ≤ size
  · rw [if_pos hroom]
    dsimp only
    rw [hdigits]
    simp only [Followed, Nat.add_sub_cancel]
    by_cases hfull : size < 2 * (inIt + 1) + separatorCount separators inIt + 1
    · rw [if_pos hfull, if_neg (by omega), if_pos (by omega)]
    · rw [if_neg hfull, if_neg (by omega), if_neg (by omega)]
      rfl
  · rw [if_neg hroom]
    exact (if_pos (by omega)).symm

theorem length_next {out separator : List U8} (hlen : out.length = 2 * inIt + separatorCount separators inIt)
    (hs : separatorAfter (inIt + 1) separators = some separator) :
    (out ++ [upperDigit (b >>> 4 &&& 0xf).toNat, upperDigit (b &&& 0xf).toNat] ++ separator).length =
      2 * (inIt + 1) + separatorCount separators (inIt + 1) := by
  rw [List.length_append, List.length_append, hlen, length_separatorAfter hs, separatorCount_succ]
  simp only [List.length_cons, List.length_nil]
  omega

/-- With white space for separators the loop writes a text of the grammar. It denotes every byte if there is room. -/
theorem bytesToAsciiHexFrom_pairs {bytes : List U8} {inIt : Nat} {out done : List U8}
    (hlen : out.length = 2 * inIt + separatorCount separators inIt) (hout : Pairs out done)
    (hblank : ∀ number, inIt < number → number ≤ inIt + bytes.length → Followed size separators number →
      BlankAfter separators number) :
    ∃ text m, bytesToAsciiHexFrom size separators inIt out bytes = some text ∧ Pairs text (done ++ bytes.take m) ∧
      m ≤ bytes.length ∧ (m = bytes.length ↔ bytes = [] ∨ Roomy size separators (inIt + bytes.length)) := by
  induction bytes generalizing inIt out done with
  | nil => exact ⟨out, 0, rfl, by rwa [List.take_nil, List.append_nil], Nat.le_refl _, by simp⟩
  | cons b bytes ih =>
    rw [List.length_cons] at hblank
    rw [bytesToAsciiHexFrom_cons b bytes hlen]
    have hpairs := hout.append (pairs_byte b)
    have hmono := separatorCount_mono separators (show inIt ≤ inIt + bytes.length by omega)
    have hroomy : Roomy size separators (inIt + (b :: bytes).length) ↔
        2 * (inIt + bytes.length + 1) + separatorCount separators (inIt + bytes.length) ≤ size :=
      ⟨fun h => h (Nat.succ_ne_zero _), fun h _ => h⟩
    dsimp only
    by_cases hnone : size < 2 * (inIt + 1) + separatorCount separators inIt
    · rw [if_pos hnone]
      exact ⟨out, 0, rfl, by rwa [List.take_zero, List.append_nil], Nat.zero_le _, by
        rw [hroomy, List.length_cons]
        exact ⟨fun h => absurd h (Nat.succ_ne_zero _).symm, fun h => by
          have := h.resolve_left (List.cons_ne_nil _ _)
          omega⟩⟩
    · rw [if_neg hnone]
      by_cases hfollowed : Followed size separators (inIt + 1)
      · obtain ⟨separator, hs, hsep⟩ := hblank (inIt + 1) (by omega) (by omega) hfollowed
        have hnext := @ih (inIt + 1) (out ++
            [upperDigit (b >>> 4 &&& 0xf).toNat, upperDigit (b &&& 0xf).toNat] ++ separator) (done ++ [b])
          (length_next b hlen hs) (by simpa using hpairs.append (pairs_of_blank hsep))
          (fun number hlo hhi => hblank number (by omega) (by omega))
        obtain ⟨text, m, htext, hread, hle, hm⟩ := hnext
        refine ⟨text, m + 1, ?_, by rwa [List.append_assoc, List.singleton_append] at hread, ?_, ?_⟩
        · rw [if_neg (not_not.mpr hfollowed), hs]
          exact htext
        · exact Nat.succ_le_succ hle
        · rw [List.length_cons, Nat.add_right_cancel_iff, hm, ← Nat.add_assoc, Nat.add_right_comm]
          refine ⟨fun h => .inr ?_, fun h => .inr (h.resolve_left (List.cons_ne_nil _ _))⟩
          rcases h with rfl | h
          · exact fun _ => by simpa [Followed] using Nat.le_of_lt hfollowed
          · exact h
      · -- The digits fill the output, so this byte is the last one written.
        rw [if_pos hfollowed]
        refine ⟨_, 1, rfl, by simpa using hpairs, by simp, ?_⟩
        rw [Followed, Nat.add_sub_cancel] at hfollowed
        rw [hroomy, List.length_cons]
        refine ⟨fun h => .inr ?_, fun h => ?_⟩
        · obtain rfl : bytes = [] := List.length_eq_zero_iff.mp (by omega)
          change 2 * (inIt + 1) + separatorCount separators inIt ≤ size
          omega
        · have := h.resolve_left (List.cons_ne_nil _ _)
          omega

theorem countP_digits : [upperDigit (b >>> 4 &&& 0xf).toNat, upperDigit (b &&& 0xf).toNat].countP (!isBlank ·) = 2 := by
  have hdigit : ∀ n < 16, isBlank (upperDigit n) = false := by decide
  have hhigh : (b >>> 4 &&& 0xf).toNat < 16 := Nat.lt_of_le_of_lt Nat.and_le_right (by decide)
  have hlow : (b &&& 0xf).toNat < 16 := Nat.lt_of_le_of_lt Nat.and_le_right (by decide)
  simp only [List.countP_cons, List.countP_nil, hdigit _ hhigh, hdigit _ hlow]
  rfl

/-- The loop writes two digits for each byte there is room for, and any other separator comes on top of them. -/
theorem countP_bytesToAsciiHexFrom {out text : List U8} (hlen : out.length = 2 * inIt + separatorCount separators inIt)
    (hroom : bytes = [] ∨ Roomy size separators (inIt + bytes.length))
    (h : bytesToAsciiHexFrom size separators inIt out bytes = some text) :
    out.countP (!isBlank ·) + 2 * bytes.length ≤ text.countP (!isBlank ·) ∧
      ((∃ number, inIt < number ∧ number ≤ inIt + bytes.length ∧ Followed size separators number ∧
        ¬ BlankAfter separators number) → out.countP (!isBlank ·) + 2 * bytes.length < text.countP (!isBlank ·)) := by
  induction bytes generalizing inIt out with
  | nil =>
    cases h
    refine ⟨Nat.le_refl _, fun ⟨number, hlo, hhi, _⟩ => ?_⟩
    rw [List.length_nil] at hhi
    omega
  | cons b bytes ih =>
    have hsize := hroom.resolve_left (List.cons_ne_nil _ _) (Nat.succ_ne_zero _)
    rw [List.length_cons, ← Nat.add_assoc, Nat.add_sub_cancel] at hsize
    have hmono := separatorCount_mono separators (show inIt ≤ inIt + bytes.length by omega)
    rw [bytesToAsciiHexFrom_cons b bytes hlen] at h
    dsimp only at h
    rw [if_neg (by omega)] at h
    by_cases hfollowed : Followed size separators (inIt + 1)
    · rw [if_neg (not_not.mpr hfollowed), Option.bind_eq_some_iff] at h
      obtain ⟨separator, hs, h⟩ := h
      have hroom' : bytes = [] ∨ Roomy size separators (inIt + 1 + bytes.length) := by
        refine .inr fun _ => ?_
        rwa [Nat.add_right_comm, Nat.add_sub_cancel]
      obtain ⟨hle, hlt⟩ := ih (length_next b hlen hs) hroom' h
      rw [List.countP_append, List.countP_append, countP_digits] at hle hlt
      rw [List.length_cons]
      refine ⟨by omega, fun ⟨number, hlo, hhi, hfoll, hbad⟩ => ?_⟩
      rcases Nat.lt_or_ge (inIt + 1) number with hnext | hhere
      · have := hlt ⟨number, hnext, by omega, hfoll, hbad⟩
        omega
      · -- The separator behind this very byte is no white space.
        have hnumber : number = inIt + 1 := by omega
        subst hnumber
        have hpos : 0 < separator.countP (!isBlank ·) := by
          rw [List.countP_pos_iff]
          by_contra hnone
          push Not at hnone
          exact hbad ⟨separator, hs, fun c hc => by simpa using hnone c hc⟩
        omega
    · rw [if_pos hfollowed] at h
      cases h
      rw [Followed, Nat.add_sub_cancel] at hfollowed
      have hzero : bytes.length = 0 := by omega
      rw [List.length_cons, hzero, List.countP_append, countP_digits]
      refine ⟨Nat.le_refl _, fun ⟨number, hlo, hhi, hfoll, _⟩ => ?_⟩
      obtain rfl : number = inIt + 1 := by omega
      exact absurd hfoll hfollowed

/-- Every separator that is written is white space. -/
def Blanks (size : Nat) (separators : List SeparatorRule) (n : Nat) : Prop :=
  ∀ number, 0 < number → number ≤ n → Followed size separators number → BlankAfter separators number

def ReadsBack (size : Nat) (bytes : List U8) (separators : List SeparatorRule) : Prop :=
  ∃ text, bytesToAsciiHex size bytes separators = some text ∧ asciiHexToByte text = some bytes

/-- Separators other than white space are taken for digits: more bytes are read than were written. -/
theorem blanks_of_readsBack (hroom : Roomy size separators bytes.length) (h : ReadsBack size bytes separators) :
    Blanks size separators bytes.length := by
  obtain ⟨text, htext, hread⟩ := h
  intro number hlo hhi hfollowed
  by_contra hbad
  have hlen : ([] : List U8).length = 2 * 0 + separatorCount separators 0 := rfl
  have hcount := (countP_bytesToAsciiHexFrom hlen (.inr (by rwa [Nat.zero_add])) htext).2
    ⟨number, hlo, by rwa [Nat.zero_add], hfollowed, hbad⟩
  rw [asciiHexToByte, asciiHexToByteFrom_octets] at hread
  split at hread
  · rename_i hleft
    have hlength := congrArg List.length (Option.some.inj hread)
    rw [List.nil_append, List.length_map] at hlength
    have := countP_octets hleft
    rw [List.countP_nil] at hcount
    omega
  · contradiction

/-- A text is accepted with the bytes it denotes and no other one is, if and only if a character is left over or all
that are taken together are digits. Formatted bytes come back if and only if their digits have room and all separators
are white space. -/
theorem hex_text_exact_iff (text : List U8) (size : Nat) (bytes : List U8) (separators : List SeparatorRule) :
    ((∀ bytes, asciiHexToByte text = some bytes ↔ Pairs text bytes) ↔
      (octets text).2 ≠ none ∨ ∀ p ∈ (octets text).1, AreDigits p) ∧
    (Roomy size separators bytes.length ∨ Blanks size separators bytes.length →
      (ReadsBack size bytes separators ↔ Roomy size separators bytes.length ∧ Blanks size separators bytes.length)) := by
  constructor
  · have hread := asciiHexToByteFrom_octets [] text
    rw [← asciiHexToByte, List.nil_append] at hread
    by_cases hleft : (octets text).2 = none
    · rw [if_pos hleft] at hread
      refine ⟨fun h => .inr ((h _).mp hread).octets_eq.2.1, fun h bytes => ?_⟩
      have hdigits := h.resolve_left (not_not.mpr hleft)
      rw [hread]
      constructor
      · rintro ⟨⟩
        exact pairs_octets hleft hdigits
      · exact fun hp => congrArg some hp.octets_eq.2.2.symm
    · rw [if_neg hleft] at hread
      refine ⟨fun _ => .inl hleft, fun _ bytes => ?_⟩
      rw [hread]
      exact ⟨fun h => by contradiction, fun hp => absurd hp.octets_eq.1 hleft⟩
  · intro hor
    have hpairs : Blanks size separators bytes.length →
        (ReadsBack size bytes separators ↔ Roomy size separators bytes.length) := by
      intro hblank
      obtain ⟨text, m, htext, hp, hle, hm⟩ := @bytesToAsciiHexFrom_pairs size separators bytes 0 [] [] rfl .nil
        (fun number hlo hhi => hblank number hlo (by rwa [Nat.zero_add] at hhi))
      rw [Nat.zero_add] at hm
      rw [List.nil_append] at hp
      have hread : asciiHexToByte text = some (bytes.take m) := by
        have := hp.read [] []
        rwa [List.append_nil] at this
      have hiff : ReadsBack size bytes separators ↔ bytes.take m = bytes := by
        rw [ReadsBack, bytesToAsciiHex, htext]
        simp [hread]
      rw [hiff, List.take_eq_self_iff, ← show m = bytes.length ↔ bytes.length ≤ m by omega, hm]
      refine ⟨fun h => ?_, .inr⟩
      rcases h with rfl | h
      · exact fun hne => absurd rfl hne
      · exact h
    refine ⟨fun h => ?_, fun h => (hpairs h.2).mpr h.1⟩
    rcases hor with hroom | hblank
    · exact ⟨hroom, blanks_of_readsBack hroom h⟩
    · exact ⟨(hpairs hblank).mp h, hblank⟩

/-- Three bytes, a space behind each and a line break behind every second, in as little room as they take. -/
theorem hex_text_exact_three :
    (∀ bytes, asciiHexToByte [ch '4', ch '1', ch ' ', ch 'f', ch 'F'] = some bytes ↔
      Pairs [ch '4', ch '1', ch ' ', ch 'f', ch 'F'] bytes) ∧
    ReadsBack 8 [1, 2, 3] [⟨false, ch '\n', 2⟩, ⟨false, ch ' ', 1⟩] := by
  have hroom : Roomy 8 [⟨false, ch '\n', 2⟩, ⟨false, ch ' ', 1⟩] 3 := fun _ => by decide
  have hblank : Blanks 8 [⟨false, ch '\n', 2⟩, ⟨false, ch ' ', 1⟩] 3 := by
    intro number hlo hhi _
    interval_cases number
    · exact ⟨[ch ' '], by decide, by decide⟩
    · exact ⟨[ch '\n'], by decide, by decide⟩
    · exact ⟨[ch ' '], by decide, by decide⟩
  obtain ⟨htext, hformat⟩ := hex_text_exact_iff _ 8 [1, 2, 3] _
  refine ⟨htext.mpr (.inr ?_), (hformat (.inl hroom)).mpr ⟨hroom, hblank⟩⟩
  have hdigits : ∀ p ∈ [(ch '4', ch '1'), (ch 'f', ch 'F')], (xdigit p.1).isSome ∧ (xdigit p.2).isSome := by
    rw [List.forall_mem_cons, List.forall_mem_singleton]
    exact ⟨⟨rfl, rfl⟩, rfl, rfl⟩
  exact hdigits

/-- `G0 01` is read as two bytes, though `G` is no digit. -/
theorem no_digit_accepted :
    asciiHexToByte [ch 'G', ch '0', ch ' ', ch '0', ch '1'] = some [0xF0, 0x01] ∧
      ∀ bytes, ¬ Pairs [ch 'G', ch '0', ch ' ', ch '0', ch '1'] bytes := by
  refine ⟨by decide, fun bytes h => ?_⟩
  have hdigits := h.octets_eq.2.1 (ch 'G', ch '0') (by decide)
  exact absurd hdigits.1 (by decide)

end Pepp.Bits
