import Mathlib.Data.Nat.Bitwise
import Pepp.Lib.CarryChains
import Pepp.Lib.Endian
import Pepp.Mc2.Processor

/-!
# Long arithmetic on the ALU

Numbers of any length, fed through the ALU byte by byte. An addition loses the
carry of `0xFF + 0xFF + 1`, the one sum whose byte is not below an operand that
carries; and the negated logic functions negate a byte as a whole.
-/

namespace Pepp.Mc2

open CarryChains

/-! ## Chains -/

/-- The bytes of two numbers of one length, least significant first. -/
abbrev Operands := List (U8 × U8)

namespace Operands

variable (ops : Operands)

def left : Nat := Endian.ofLE (ops.map Prod.fst)

def right : Nat := Endian.ofLE (ops.map Prod.snd)

def digits : List (Nat × Nat) := ops.map fun p => (p.1.toNat, p.2.toNat)

def complemented : Operands := ops.map fun p => (p.1, ~~~p.2)

end Operands

/-- The carry of each byte is passed to the next. -/
def chain (fn : BitVec 4) : Bool → Operands → List AluResult
  | _, [] => []
  | cin, (a, b) :: rest => computeALU fn a b cin :: chain fn (computeALU fn a b cin).c rest

/-- The plain function for the first byte, the one with a carry for the rest. -/
def chained (plain carrying : BitVec 4) (cin : Bool) : Operands → List AluResult
  | [] => []
  | (a, b) :: rest => computeALU plain a b cin :: chain carrying (computeALU plain a b cin).c rest

def bytewise (fn : BitVec 4) (cin : Bool) (ops : Operands) : Nat :=
  Endian.ofLE (ops.map fun p => (computeALU fn p.1 p.2 cin).value)

/-- The bytes, the last carry, and the last overflow and sign of a signed result. -/
structure Yields (n value : Nat) (carry : Prop) (exact : Int) (out : List AluResult) : Prop where
  length : out.length = n
  bytes : Endian.ofLE (out.map AluResult.value) = value
  carry : ∀ last ∈ out.getLast?, last.c = true ↔ carry
  overflow : ∀ last ∈ out.getLast?, last.v = true ↔ ¬ Fits (256 ^ n / 2) exact
  sign : ∀ last ∈ out.getLast?, last.n = true ↔ signed (256 ^ n / 2) value < 0

def IsSum (ops : Operands) : List AluResult → Prop :=
  Yields ops.length ((ops.left + ops.right) % 256 ^ ops.length) (256 ^ ops.length ≤ ops.left + ops.right)
    (signed (256 ^ ops.length / 2) ops.left + signed (256 ^ ops.length / 2) ops.right)

/-- The carry of a difference says that nothing was borrowed. -/
def IsDifference (ops : Operands) : List AluResult → Prop :=
  Yields ops.length ((ops.left + (256 ^ ops.length - ops.right)) % 256 ^ ops.length) (ops.right ≤ ops.left)
    (signed (256 ^ ops.length / 2) ops.left - signed (256 ^ ops.length / 2) ops.right)

inductive Operation where
  | add | subtract | and | nand | or | nor | xor | not
  deriving DecidableEq, Repr

/-- The chain of an operation's functions computes it on the whole numbers. -/
def Correct (cin : Bool) (ops : Operands) : Operation → Prop
  | .add => IsSum ops (chained 1 2 cin ops)
  | .subtract => IsDifference ops (chained 3 4 cin ops)
  | .and => bytewise 5 cin ops = ops.left &&& ops.right
  | .nand => bytewise 6 cin ops = 256 ^ ops.length - 1 - (ops.left &&& ops.right)
  | .or => bytewise 7 cin ops = ops.left ||| ops.right
  | .nor => bytewise 8 cin ops = 256 ^ ops.length - 1 - (ops.left ||| ops.right)
  | .xor => bytewise 9 cin ops = ops.left ^^^ ops.right
  | .not => bytewise 10 cin ops = 256 ^ ops.length - 1 - ops.left

/-- No two bytes `0xFF` are added to a carry; a negation is of nothing but ones. -/
def Exact (ops : Operands) : Operation → Prop
  | .add => ∀ i, ops[i]? = some (0xFF, 0xFF) → Operands.left (ops.take i) + Operands.right (ops.take i) < 256 ^ i
  | .subtract => ∀ i, ops[i]? = some (0xFF, 0) → Operands.left (ops.take i) < Operands.right (ops.take i)
  | .nand => ∀ p ∈ ops, p.1 &&& p.2 = 0xFF
  | .nor => ∀ p ∈ ops, p.1 ||| p.2 = 0xFF
  | .and | .or | .xor | .not => True

/-! ## One byte -/

theorem and_sign (w : U8) : (w &&& 0x80 != 0) = w.msb := by
  rw [show (0x80 : U8) = BitVec.twoPow 8 7 by decide, BitVec.and_twoPow, BitVec.msb_eq_getLsbD_last]
  cases w.getLsbD 7 <;> rfl

variable (a b : U8) (cin : Bool)

theorem plus_value : (plus a b cin).value.toNat = (a.toNat + b.toNat + cin.toNat) % 256 := by
  change (a + b + (if cin then 1 else 0)).toNat = _
  cases cin <;> simp [BitVec.toNat_add]

theorem plus_c (h : (a, b) = (0xFF, 0xFF) → cin = false) :
    (plus a b cin).c.toNat = (a.toNat + b.toNat + cin.toNat) / 256 := by
  have ha := a.isLt
  have hb := b.isLt
  have hc : (plus a b cin).c = (decide ((plus a b cin).value.toNat < a.toNat) ||
      decide ((plus a b cin).value.toNat < b.toNat)) := rfl
  rw [hc, plus_value]
  have hff : a.toNat = 255 → b.toNat = 255 → cin.toNat = 0 := by
    intro h1 h2
    rw [h (congrArg₂ Prod.mk (BitVec.eq_of_toNat_eq h1) (BitVec.eq_of_toNat_eq h2))]
    rfl
  have hcin : cin.toNat ≤ 1 := Bool.toNat_le cin
  by_cases hcarry : 256 ≤ a.toNat + b.toNat + cin.toNat
  · have hlt : (a.toNat + b.toNat + cin.toNat) % 256 < a.toNat ∨ (a.toNat + b.toNat + cin.toNat) % 256 < b.toNat := by
      omega
    rw [← Bool.decide_or, decide_eq_true hlt]
    change 1 = _
    omega
  · rw [decide_eq_false (by omega), decide_eq_false (by omega)]
    change 0 = _
    omega

theorem plus_n : (plus a b cin).n = decide (128 ≤ (plus a b cin).value.toNat) := by
  rw [← BitVec.msb_eq_decide (plus a b cin).value]
  exact and_sign _

theorem plus_v : (plus a b cin).v = true ↔
    ¬ Fits 128 (signed 128 a.toNat + signed 128 b.toNat + cin.toNat) := by
  have ha := a.isLt
  have hb := b.isLt
  have hcin : cin.toNat ≤ 1 := Bool.toNat_le cin
  have hv : (plus a b cin).v = ((a ^^^ (plus a b cin).value) &&& (b ^^^ (plus a b cin).value) &&& 0x80 != 0) := rfl
  rw [hv, and_sign, BitVec.msb_and, BitVec.msb_xor, BitVec.msb_xor]
  simp only [BitVec.msb_eq_decide, plus_value]
  unfold Fits signed
  by_cases h1 : 128 ≤ a.toNat <;> by_cases h2 : 128 ≤ b.toNat <;>
    by_cases h3 : 128 ≤ (a.toNat + b.toNat + cin.toNat) % 256 <;>
    simp only [Nat.reduceSub, Nat.reducePow, h1, h2, h3, decide_true, decide_false] <;>
    simp <;> split <;> split <;> omega

/-! ## Additions -/

/-- What both kinds of chain are. -/
def pluses : Bool → Operands → List AluResult
  | _, [] => []
  | cin, (a, b) :: rest => plus a b cin :: pluses (plus a b cin).c rest

/-- The carry behind a chain. -/
def carryOut : Bool → Operands → Bool
  | cin, [] => cin
  | cin, (a, b) :: rest => carryOut (plus a b cin).c rest

/-- No step of a sum loses its carry. -/
def KeepsCarry (cin : Bool) (ops : Operands) : Prop :=
  ∀ i, ops[i]? = some (0xFF, 0xFF) → total 256 cin.toNat (Operands.digits (ops.take i)) < 256 ^ i

variable {cin} {ops : Operands}

theorem chain_pluses (ops : Operands) (cin : Bool) : chain 2 cin ops = pluses cin ops := by
  induction ops generalizing cin with
  | nil => rfl
  | cons p rest ih =>
    obtain ⟨a, b⟩ := p
    exact congrArg (plus a b cin :: ·) (ih _)

theorem chain_pluses_complemented (ops : Operands) (cin : Bool) : chain 4 cin ops = pluses cin ops.complemented := by
  induction ops generalizing cin with
  | nil => rfl
  | cons p rest ih =>
    obtain ⟨a, b⟩ := p
    exact congrArg (plus a (~~~b) cin :: ·) (ih _)

theorem chained_add (ops : Operands) (cin : Bool) : chained 1 2 cin ops = pluses false ops := by
  cases ops with
  | nil => rfl
  | cons p rest => exact congrArg (plus p.1 p.2 false :: ·) (chain_pluses rest _)

theorem chained_subtract (ops : Operands) (cin : Bool) : chained 3 4 cin ops = pluses true ops.complemented := by
  cases ops with
  | nil => rfl
  | cons p rest => exact congrArg (plus p.1 (~~~p.2) true :: ·) (chain_pluses_complemented rest _)

@[simp] theorem length_pluses (cin : Bool) (ops : Operands) : (pluses cin ops).length = ops.length := by
  induction ops generalizing cin with
  | nil => rfl
  | cons p rest ih => simp [pluses, ih]

theorem pluses_concat (cin : Bool) (ops : Operands) (p : U8 × U8) :
    pluses cin (ops ++ [p]) = pluses cin ops ++ [plus p.1 p.2 (carryOut cin ops)] := by
  induction ops generalizing cin with
  | nil => rfl
  | cons q rest ih =>
    obtain ⟨a, b⟩ := q
    exact congrArg (plus a b cin :: ·) (ih _)

theorem ofLE_eq (bytes : List U8) : Endian.ofLE bytes = Nat.ofDigits 256 (bytes.map BitVec.toNat) := by
  induction bytes with
  | nil => rfl
  | cons b bytes ih =>
    rw [Endian.ofLE, List.map_cons, Nat.ofDigits_cons, ih]

theorem total_eq (cin : Bool) (ops : Operands) : total 256 cin.toNat ops.digits = ops.left + ops.right + cin.toNat := by
  simp only [total, Operands.digits, Operands.left, Operands.right, ofLE_eq, List.map_map]
  rfl

theorem keepsCarry_cons {a b : U8} {rest : Operands} : KeepsCarry cin ((a, b) :: rest) ↔
    ((a, b) = (0xFF, 0xFF) → cin = false) ∧ KeepsCarry (decide (256 ≤ a.toNat + b.toNat + cin.toNat)) rest := by
  have ha := a.isLt
  have hb := b.isLt
  have hcin : cin.toNat ≤ 1 := Bool.toNat_le cin
  have hcarry : (decide (256 ≤ a.toNat + b.toNat + cin.toNat)).toNat = (a.toNat + b.toNat + cin.toNat) / 256 := by
    by_cases h : 256 ≤ a.toNat + b.toNat + cin.toNat
    · rw [decide_eq_true h, Bool.toNat_true]
      omega
    · rw [decide_eq_false h, Bool.toNat_false]
      omega
  have hstep : ∀ i, total 256 cin.toNat (Operands.digits (((a, b) :: rest).take (i + 1))) < 256 ^ (i + 1) ↔
      total 256 (decide (256 ≤ a.toNat + b.toNat + cin.toNat)).toNat (Operands.digits (rest.take i)) < 256 ^ i := by
    intro i
    have hcons := total_cons (b := 256) cin.toNat a.toNat b.toNat (Operands.digits (rest.take i))
    rw [hcarry, List.take_succ_cons, Nat.pow_succ]
    change total 256 cin.toNat ((a.toNat, b.toNat) :: Operands.digits (rest.take i)) < _ ↔ _
    omega
  constructor
  · intro h
    refine ⟨fun hff => ?_, fun i hi => (hstep i).mp (h (i + 1) hi)⟩
    have hzero := h 0 (congrArg some hff)
    rw [List.take_zero, Nat.pow_zero, total_eq] at hzero
    cases cin with
    | false => rfl
    | true => exact absurd hzero (by decide)
  · rintro ⟨hhead, htail⟩ i hi
    cases i with
    | zero =>
      rw [hhead (Option.some_inj.mp hi), List.take_zero, total_eq]
      decide
    | succ i => exact (hstep i).mpr (htail i hi)

theorem plus_c_eq {a b : U8} (h : (a, b) = (0xFF, 0xFF) → cin = false) :
    (plus a b cin).c = decide (256 ≤ a.toNat + b.toNat + cin.toNat) := by
  have hc := plus_c a b cin h
  have ha := a.isLt
  have hb := b.isLt
  have hcin : cin.toNat ≤ 1 := Bool.toNat_le cin
  cases hplus : (plus a b cin).c with
  | false =>
    rw [hplus, Bool.toNat_false] at hc
    rw [eq_comm, decide_eq_false_iff_not]
    omega
  | true =>
    rw [hplus, Bool.toNat_true] at hc
    rw [eq_comm, decide_eq_true_iff]
    omega

/-- The head of a chain that keeps its carries passes the right one on. -/
theorem plus_carries {a b : U8} {rest : Operands} (h : KeepsCarry cin ((a, b) :: rest)) :
    (plus a b cin).c.toNat = (a.toNat + b.toNat + cin.toNat) / 256 ∧ KeepsCarry (plus a b cin).c rest := by
  obtain ⟨hhead, htail⟩ := keepsCarry_cons.mp h
  rw [plus_c_eq hhead]
  exact ⟨by rw [← plus_c_eq hhead, plus_c a b cin hhead], htail⟩

theorem pluses_values (h : KeepsCarry cin ops) :
    (pluses cin ops).map (fun r => r.value.toNat) = sums 256 cin.toNat ops.digits := by
  induction ops generalizing cin with
  | nil => rfl
  | cons p rest ih =>
    obtain ⟨a, b⟩ := p
    obtain ⟨hc, hrest⟩ := plus_carries h
    rw [pluses, List.map_cons, ih hrest, plus_value, hc]
    rfl

theorem carryOut_eq (h : KeepsCarry cin ops) : (carryOut cin ops).toNat = carry 256 cin.toNat ops.digits := by
  induction ops generalizing cin with
  | nil => rfl
  | cons p rest ih =>
    obtain ⟨a, b⟩ := p
    obtain ⟨hc, hrest⟩ := plus_carries h
    rw [carryOut, ih hrest, hc]
    rfl

/-- The chain of a sum, once a first carry is given. -/
def IsTotal (cin : Bool) (ops : Operands) : List AluResult → Prop :=
  Yields ops.length ((ops.left + ops.right + cin.toNat) % 256 ^ ops.length)
    (256 ^ ops.length ≤ ops.left + ops.right + cin.toNat)
    (signed (256 ^ ops.length / 2) ops.left + signed (256 ^ ops.length / 2) ops.right + cin.toNat)

/-! ## Sums -/

theorem ofLE_values (rs : List AluResult) :
    Endian.ofLE (rs.map AluResult.value) = Nat.ofDigits 256 (rs.map fun r => r.value.toNat) := by
  rw [ofLE_eq, List.map_map]
  rfl

@[simp] theorem length_digits (ops : Operands) : ops.digits.length = ops.length := List.length_map _

theorem half_eq (n : Nat) : 256 ^ (n + 1) / 2 = 256 ^ n * 128 := by
  rw [Nat.pow_succ]
  omega

theorem left_concat (ops : Operands) (p : U8 × U8) :
    Operands.left (ops ++ [p]) = ops.left + 256 ^ ops.length * p.1.toNat := by
  simp [Operands.left, ofLE_eq, Nat.ofDigits_append]

theorem right_concat (ops : Operands) (p : U8 × U8) :
    Operands.right (ops ++ [p]) = ops.right + 256 ^ ops.length * p.2.toNat := by
  simp [Operands.right, ofLE_eq, Nat.ofDigits_append]

theorem left_lt (ops : Operands) : ops.left < 256 ^ ops.length := by
  have h := Endian.ofLE_lt (ops.map Prod.fst)
  rwa [List.length_map] at h

theorem right_lt (ops : Operands) : ops.right < 256 ^ ops.length := by
  have h := Endian.ofLE_lt (ops.map Prod.snd)
  rwa [List.length_map] at h

section

variable {p : U8 × U8} (h : KeepsCarry cin (ops ++ [p]))
include h

theorem keepsCarry_init : KeepsCarry cin ops := by
  intro i hi
  have hlt : i < ops.length := (List.getElem?_eq_some_iff.mp hi).1
  have hi' := h i (by rw [List.getElem?_append_left hlt, hi])
  rwa [List.take_append_of_le_length hlt.le] at hi'

/-- The last step of a chain that keeps its carries adds the right carry to the most significant bytes. -/
theorem last_step :
    (ops.left + ops.right + cin.toNat) % 256 ^ ops.length + 256 ^ ops.length * (carryOut cin ops).toNat =
        ops.left + ops.right + cin.toNat ∧
      ((p.1, p.2) = (0xFF, 0xFF) → carryOut cin ops = false) := by
  have hinit := keepsCarry_init h
  have hcarry : (carryOut cin ops).toNat = (ops.left + ops.right + cin.toNat) / 256 ^ ops.length := by
    rw [carryOut_eq hinit, carry_eq_div (by decide), total_eq, length_digits]
  rw [hcarry]
  refine ⟨Nat.mod_add_div _ _, fun hff => ?_⟩
  have hlast := h ops.length (by rw [List.getElem?_concat_length]; exact congrArg some hff)
  rw [List.take_left' rfl, total_eq] at hlast
  rw [Nat.div_eq_of_lt hlast] at hcarry
  cases hc : carryOut cin ops with
  | false => rfl
  | true =>
    rw [hc] at hcarry
    exact absurd hcarry (by decide)

theorem isTotal_concat : IsTotal cin (ops ++ [p]) (pluses cin (ops ++ [p])) := by
  obtain ⟨hsum, hff⟩ := last_step h
  have hpos : 0 < 256 ^ ops.length := Nat.pow_pos (by decide)
  have hlow : (ops.left + ops.right + cin.toNat) % 256 ^ ops.length < 256 ^ ops.length := Nat.mod_lt _ hpos
  have hc := plus_c p.1 p.2 (carryOut cin ops) hff
  have hn := plus_n p.1 p.2 (carryOut cin ops)
  have hv := plus_v p.1 p.2 (carryOut cin ops)
  rw [plus_value] at hn
  have hlast : ∀ last ∈ (pluses cin (ops ++ [p])).getLast?, last = plus p.1 p.2 (carryOut cin ops) := by
    intro last hmem
    rw [pluses_concat, List.getLast?_concat] at hmem
    exact (Option.mem_some.mp hmem).symm
  have htotal : Operands.left (ops ++ [p]) + Operands.right (ops ++ [p]) + cin.toNat =
      (ops.left + ops.right + cin.toNat) % 256 ^ ops.length +
        256 ^ ops.length * (p.1.toNat + p.2.toNat + (carryOut cin ops).toNat) := by
    rw [left_concat, right_concat]
    linarith [Nat.mul_add (256 ^ ops.length) (p.1.toNat + p.2.toNat) (carryOut cin ops).toNat,
      Nat.mul_add (256 ^ ops.length) p.1.toNat p.2.toNat]
  have hlength : (ops ++ [p]).length = ops.length + 1 := List.length_append
  refine ⟨length_pluses _ _, ?_, fun last hmem => ?_, fun last hmem => ?_, fun last hmem => ?_⟩
  · rw [ofLE_values, pluses_values h, ofDigits_sums_eq_mod (by decide), total_eq, length_digits]
  · rw [hlast last hmem, htotal, hlength, Nat.pow_succ, mul_le_add_mul_iff hlow]
    cases hplus : (plus p.1 p.2 (carryOut cin ops)).c with
    | false =>
      rw [hplus, Bool.toNat_false] at hc
      simp only [Bool.false_eq_true, false_iff]
      omega
    | true =>
      rw [hplus, Bool.toNat_true] at hc
      simp only [true_iff]
      omega
  · have hexact : signed (256 ^ (ops.length + 1) / 2) (Operands.left (ops ++ [p])) +
        signed (256 ^ (ops.length + 1) / 2) (Operands.right (ops ++ [p])) + (cin.toNat : Int) =
        ((ops.left + ops.right + cin.toNat) % 256 ^ ops.length : Nat) +
          (256 ^ ops.length : Nat) * (signed 128 p.1.toNat + signed 128 p.2.toNat + (carryOut cin ops).toNat) := by
      rw [half_eq, left_concat, right_concat, signed_append (left_lt ops), signed_append (right_lt ops)]
      have hsum' : (((ops.left + ops.right + cin.toNat) % 256 ^ ops.length : Nat) : Int) +
          (256 ^ ops.length : Nat) * ((carryOut cin ops).toNat : Int) = ops.left + ops.right + cin.toNat := by
        exact_mod_cast hsum
      linarith [hsum', mul_add ((256 ^ ops.length : Nat) : Int) (signed 128 p.1.toNat + signed 128 p.2.toNat)
        (carryOut cin ops).toNat, mul_add ((256 ^ ops.length : Nat) : Int) (signed 128 p.1.toNat) (signed 128 p.2.toNat)]
    rw [hlast last hmem, hlength, hexact, half_eq, fits_append hlow]
    exact hv
  · rw [hlast last hmem, htotal, hlength, Nat.pow_succ, add_mul_mod hlow, ← Nat.pow_succ, half_eq, signed_neg_iff, hn,
      decide_eq_true_iff, mul_le_add_mul_iff hlow]
    have hmod := Nat.mod_lt (p.1.toNat + p.2.toNat + (carryOut cin ops).toNat) (show 256 > 0 by decide)
    calc _ < 256 ^ ops.length * ((p.1.toNat + p.2.toNat + (carryOut cin ops).toNat) % 256 + 1) := by
          rw [Nat.mul_add]
          omega
      _ ≤ 256 ^ ops.length * 256 := Nat.mul_le_mul_left _ hmod
      _ = 2 * (256 ^ ops.length * 128) := by omega

end

theorem mem_getLast?_cons {α : Type} {x last : α} {l : List α} (h : last ∈ l.getLast?) : last ∈ (x :: l).getLast? := by
  rw [List.getLast?_cons, Option.mem_def.mp h]
  exact Option.mem_some_self last

/-- A lost carry is missing in the next byte, or at the end. -/
theorem keepsCarry_of_chain (ops : Operands) (cin : Bool)
    (hbytes : Endian.ofLE ((pluses cin ops).map AluResult.value) = total 256 cin.toNat ops.digits % 256 ^ ops.length)
    (hcarry : ∀ last ∈ (pluses cin ops).getLast?, last.c = true ↔ 256 ^ ops.length ≤ total 256 cin.toNat ops.digits) :
    KeepsCarry cin ops := by
  induction ops generalizing cin with
  | nil =>
    intro i hi
    exact absurd hi (by simp)
  | cons p rest ih =>
    obtain ⟨a, b⟩ := p
    have htotal := total_cons (b := 256) cin.toNat a.toNat b.toNat (Operands.digits rest)
    have hmod := Nat.mod_lt (a.toNat + b.toNat + cin.toNat) (show 256 > 0 by decide)
    change Endian.ofLE ((plus a b cin).value :: (pluses (plus a b cin).c rest).map AluResult.value) =
      total 256 cin.toNat ((a.toNat, b.toNat) :: Operands.digits rest) % _ at hbytes
    change ∀ last ∈ (plus a b cin :: pluses (plus a b cin).c rest).getLast?, last.c = true ↔
      _ ≤ total 256 cin.toNat ((a.toNat, b.toNat) :: Operands.digits rest) at hcarry
    rw [Endian.ofLE, plus_value, htotal, List.length_cons, Nat.pow_succ', add_mul_mod hmod] at hbytes
    rw [htotal, List.length_cons, Nat.pow_succ'] at hcarry
    simp only [mul_le_add_mul_iff hmod] at hcarry
    by_cases hlost : (a, b) = (0xFF, 0xFF) ∧ cin = true
    · -- the sum of this byte is right, but its carry is not
      obtain ⟨hab, rfl⟩ := hlost
      obtain ⟨rfl, rfl⟩ := Prod.mk.inj hab
      exfalso
      cases rest with
      | nil => exact absurd ((hcarry _ (Option.mem_some_self _)).mpr (by decide)) (by decide)
      | cons q rest =>
        obtain ⟨a', b'⟩ := q
        have hnext := total_cons (b := 256) 1 a'.toNat b'.toNat (Operands.digits rest)
        have hmod' := Nat.mod_lt (a'.toNat + b'.toNat + 1) (show 256 > 0 by decide)
        have hv := plus_value a' b' (plus 0xFF 0xFF true).c
        change _ + 256 * ((plus a' b' _).value.toNat + 256 * _) =
          _ + 256 * (total 256 1 ((a'.toNat, b'.toNat) :: Operands.digits rest) % _) at hbytes
        rw [hnext, List.length_cons, Nat.pow_succ', add_mul_mod hmod', hv] at hbytes
        rw [show (plus 0xFF 0xFF true).c.toNat = 0 by decide] at hbytes
        omega
    · have hkeeps : (a, b) = (0xFF, 0xFF) → cin = false := by
        intro hab
        rw [← Bool.not_eq_true]
        exact fun hcin => hlost ⟨hab, hcin⟩
      have hc := plus_c a b cin hkeeps
      rw [← hc] at hbytes hcarry
      have hrest := ih (plus a b cin).c (by omega) fun last hmem => hcarry last (mem_getLast?_cons hmem)
      refine keepsCarry_cons.mpr ⟨hkeeps, ?_⟩
      rw [← plus_c_eq hkeeps]
      exact hrest

theorem isTotal_iff (cin : Bool) (ops : Operands) : IsTotal cin ops (pluses cin ops) ↔ KeepsCarry cin ops := by
  constructor
  · intro h
    have hbytes := h.bytes
    have hcarry := h.carry
    rw [← total_eq] at hbytes hcarry
    exact keepsCarry_of_chain ops cin hbytes hcarry
  · intro h
    rcases List.eq_nil_or_concat ops with rfl | ⟨init, p, rfl⟩
    · exact ⟨rfl, by simp [pluses, Endian.ofLE, Nat.mod_one], by simp [pluses], by simp [pluses], by simp [pluses]⟩
    · rw [List.concat_eq_append] at h ⊢
      exact isTotal_concat h

theorem isSum_iff (ops : Operands) : IsSum ops (pluses false ops) ↔ Exact ops .add := by
  have hsum : IsSum ops = IsTotal false ops := by
    simp only [IsSum, IsTotal, Bool.toNat_false, Nat.add_zero, Nat.cast_zero, Int.add_zero]
  rw [hsum, isTotal_iff]
  refine forall_congr' fun i => forall_congr' fun _ => ?_
  rw [total_eq, Bool.toNat_false, Nat.add_zero]

/-! ## Differences -/

theorem ofLE_complement (bytes : List U8) :
    Endian.ofLE (bytes.map (~~~·)) = 256 ^ bytes.length - 1 - Endian.ofLE bytes := by
  induction bytes with
  | nil => rfl
  | cons b bytes ih =>
    have hb := b.isLt
    have hlt := Endian.ofLE_lt bytes
    have hnot : (~~~b).toNat = 2 ^ 8 - 1 - b.toNat := BitVec.toNat_not
    change (~~~b).toNat + 256 * Endian.ofLE (bytes.map (~~~·)) = 256 ^ (bytes.length + 1) - 1 - (b.toNat + 256 * _)
    rw [ih, hnot, Nat.pow_succ]
    omega

@[simp] theorem length_complemented (ops : Operands) : ops.complemented.length = ops.length := List.length_map _

theorem left_complemented (ops : Operands) : ops.complemented.left = ops.left := by
  simp only [Operands.left, Operands.complemented, List.map_map]
  rfl

theorem right_complemented (ops : Operands) : ops.complemented.right = 256 ^ ops.length - 1 - ops.right := by
  have h := ofLE_complement (ops.map Prod.snd)
  rw [List.map_map, List.length_map] at h
  simp only [Operands.right, Operands.complemented, List.map_map]
  exact h

theorem complemented_take (ops : Operands) (i : Nat) :
    List.take i ops.complemented = Operands.complemented (ops.take i) := List.map_take.symm

theorem yields_nil {carry : Prop} {exact : Int} {out : List AluResult} : Yields 0 0 carry exact out ↔ out = [] := by
  constructor
  · intro h
    exact List.length_eq_zero_iff.mp h.length
  · rintro rfl
    have hnone : ∀ last : AluResult, last ∉ ([] : List AluResult).getLast? := fun _ => Option.not_mem_none _
    exact ⟨rfl, rfl, fun last h => absurd h (hnone last), fun last h => absurd h (hnone last),
      fun last h => absurd h (hnone last)⟩

/-- To subtract is to add the complement and one. -/
theorem isDifference_iff_isTotal (ops : Operands) (out : List AluResult) :
    IsDifference ops out ↔ IsTotal true ops.complemented out := by
  cases ops with
  | nil => exact yields_nil.trans yields_nil.symm
  | cons p rest =>
    have hlt := right_lt (p :: rest)
    have hhalf : 256 ^ (p :: rest).length = 2 * (256 ^ (p :: rest).length / 2) := by
      rw [show (p :: rest).length = rest.length + 1 from rfl, half_eq, Nat.pow_succ]
      omega
    have hvalue : Operands.left (p :: rest) + (256 ^ (p :: rest).length - Operands.right (p :: rest)) =
        Operands.left (p :: rest) + (256 ^ (p :: rest).length - 1 - Operands.right (p :: rest)) + 1 := by omega
    have hcarry : Operands.right (p :: rest) ≤ Operands.left (p :: rest) ↔ 256 ^ (p :: rest).length ≤
        Operands.left (p :: rest) + (256 ^ (p :: rest).length - Operands.right (p :: rest)) := by omega
    have hsigned : signed (256 ^ (p :: rest).length / 2) (256 ^ (p :: rest).length - 1 - Operands.right (p :: rest)) =
        -1 - signed (256 ^ (p :: rest).length / 2) (Operands.right (p :: rest)) := by
      have h := @signed_complement (256 ^ (p :: rest).length / 2) (Operands.right (p :: rest)) (by omega)
      rwa [← hhalf] at h
    unfold IsDifference IsTotal
    rw [left_complemented, right_complemented, length_complemented, Bool.toNat_true, ← hvalue, ← propext hcarry, hsigned,
      show ∀ x y : Int, x + (-1 - y) + ((1 : Nat) : Int) = x - y by intros; omega]

theorem isDifference_iff (ops : Operands) : IsDifference ops (pluses true ops.complemented) ↔ Exact ops .subtract := by
  rw [isDifference_iff_isTotal, isTotal_iff]
  refine forall_congr' fun i => ?_
  have hget : ops.complemented[i]? = some (0xFF, 0xFF) ↔ ops[i]? = some (0xFF, 0) := by
    rw [Operands.complemented, List.getElem?_map]
    cases ops[i]? with
    | none => simp
    | some p =>
      obtain ⟨a, b⟩ := p
      have hnot : ~~~b = 0xFF ↔ b = 0 := BitVec.not_eq_comm
      simp only [Option.map_some, Option.some.injEq, Prod.mk.injEq, hnot]
  rw [hget]
  refine forall_congr' fun hi => ?_
  have hlength : (ops.take i).length = i := List.length_take_of_le (List.getElem?_eq_some_iff.mp hi).1.le
  have hlt := right_lt (ops.take i)
  rw [complemented_take, total_eq, left_complemented, right_complemented, Bool.toNat_true]
  rw [hlength] at hlt ⊢
  omega

/-! ## Logic functions -/

theorem bitwise_append {f : Bool → Bool → Bool} (hf : f false false = false) {a b : Nat} (ha : a < 256) (hb : b < 256)
    (x y : Nat) : Nat.bitwise f (a + 256 * x) (b + 256 * y) = Nat.bitwise f a b + 256 * Nat.bitwise f x y := by
  have hlow : Nat.bitwise f a b < 2 ^ 8 := Nat.bitwise_lt_two_pow ha hb
  apply Nat.eq_of_testBit_eq
  intro i
  rw [Nat.testBit_bitwise hf, Nat.add_comm a, Nat.add_comm b, Nat.add_comm (Nat.bitwise f a b),
    Nat.testBit_two_pow_mul_add (i := 8) x ha i, Nat.testBit_two_pow_mul_add (i := 8) y hb i,
    Nat.testBit_two_pow_mul_add (i := 8) _ hlow i]
  split <;> rw [Nat.testBit_bitwise hf]

/-- A bitwise operation on numbers is one on their bytes. -/
theorem ofLE_bitwise {f : Bool → Bool → Bool} (hf : f false false = false) (op : U8 → U8 → U8)
    (hop : ∀ a b, (op a b).toNat = Nat.bitwise f a.toNat b.toNat) (ops : Operands) :
    Endian.ofLE (ops.map fun p => op p.1 p.2) = Nat.bitwise f ops.left ops.right := by
  induction ops with
  | nil =>
    apply Nat.eq_of_testBit_eq
    intro i
    change Nat.testBit 0 i = Nat.testBit (Nat.bitwise f 0 0) i
    rw [Nat.testBit_bitwise hf, Nat.zero_testBit, hf]
  | cons p rest ih =>
    change (op p.1 p.2).toNat + 256 * Endian.ofLE (rest.map fun p => op p.1 p.2) =
      Nat.bitwise f (p.1.toNat + 256 * Operands.left rest) (p.2.toNat + 256 * Operands.right rest)
    rw [bitwise_append hf p.1.isLt p.2.isLt, ih, hop]

theorem ofLE_and (ops : Operands) : Endian.ofLE (ops.map fun p => p.1 &&& p.2) = ops.left &&& ops.right :=
  ofLE_bitwise rfl (· &&& ·) (fun a b => BitVec.toNat_and a b) ops

theorem ofLE_or (ops : Operands) : Endian.ofLE (ops.map fun p => p.1 ||| p.2) = ops.left ||| ops.right :=
  ofLE_bitwise rfl (· ||| ·) (fun a b => BitVec.toNat_or a b) ops

theorem ofLE_xor (ops : Operands) : Endian.ofLE (ops.map fun p => p.1 ^^^ p.2) = ops.left ^^^ ops.right :=
  ofLE_bitwise rfl (· ^^^ ·) (fun a b => BitVec.toNat_xor a b) ops

theorem ofLE_injective {xs ys : List U8} (hlength : xs.length = ys.length) (h : Endian.ofLE xs = Endian.ofLE ys) :
    xs = ys := by
  have hx := Endian.leBytes_ofLE xs.length xs
  have hy := Endian.leBytes_ofLE ys.length ys
  rw [List.take_length, Nat.sub_self, List.replicate_zero, List.append_nil] at hx hy
  rw [← hx, ← hy, hlength, h]

/-- A logical negation is the bitwise one of nothing but ones. -/
theorem negation_iff (w : U8) : (if w = 0 then 1 else 0) = ~~~w ↔ w = 0xFF := by
  have hzero : (0 : U8) = ~~~(0xFF : U8) := rfl
  by_cases h : w = 0
  · subst h
    decide
  · rw [if_neg h, hzero, BitVec.not_inj, eq_comm]

theorem negated_iff (op : U8 → U8 → U8) (ops : Operands) :
    Endian.ofLE (ops.map fun p => if op p.1 p.2 = 0 then 1 else 0) =
        256 ^ ops.length - 1 - Endian.ofLE (ops.map fun p => op p.1 p.2) ↔ ∀ p ∈ ops, op p.1 p.2 = 0xFF := by
  have hnot := ofLE_complement (ops.map fun p => op p.1 p.2)
  rw [List.map_map, List.length_map] at hnot
  rw [← hnot]
  constructor
  · intro h p hp
    have heq := ofLE_injective (by simp) h
    exact (negation_iff _).mp (List.map_inj_left.mp heq p hp)
  · intro h
    refine congrArg Endian.ofLE (List.map_congr_left fun p hp => ?_)
    exact (negation_iff _).mpr (h p hp)

/-- An operation on numbers of any length comes out of its chain just where no carry is lost and nothing
but ones is negated. -/
theorem correct_iff (op : Operation) (cin : Bool) (ops : Operands) : Correct cin ops op ↔ Exact ops op := by
  cases op with
  | add =>
    rw [Correct, chained_add]
    exact isSum_iff ops
  | subtract =>
    rw [Correct, chained_subtract]
    exact isDifference_iff ops
  | and => exact iff_of_true (ofLE_and ops) trivial
  | nand =>
    rw [Correct, ← ofLE_and]
    exact negated_iff (· &&& ·) ops
  | or => exact iff_of_true (ofLE_or ops) trivial
  | nor =>
    rw [Correct, ← ofLE_or]
    exact negated_iff (· ||| ·) ops
  | xor => exact iff_of_true (ofLE_xor ops) trivial
  | not =>
    refine iff_of_true ?_ trivial
    have h := ofLE_complement (ops.map Prod.fst)
    rw [List.map_map, List.length_map] at h
    exact h

/-- `0xFF01 + 0xFFFF`, where the second step is `0xFF + 0xFF + 1`. -/
theorem add_loses_carry : ¬ Correct false [(0x01, 0xFF), (0xFF, 0xFF)] .add := by
  intro h
  have hcarry := h.carry ⟨true, false, false, false, 0xFF⟩ rfl
  exact absurd (hcarry.mpr (by decide)) (by decide)

end Pepp.Mc2
