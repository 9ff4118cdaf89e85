import Mathlib.Data.List.Induction
import Mathlib.Tactic.IntervalCases

/-!
# Positional numerals as text

Writing a number in a base between two and sixteen, with capital letters for
the digits from ten on, and reading it back. Leading zeros are read away.
-/

namespace Numerals

/-- The digit with the value `d`. -/
def digit (d : Nat) : Char := (Nat.digitChar d).toUpper

/-- The value of a digit of either case. -/
def digitValue (c : Char) : Nat :=
  if c.isDigit then c.toNat - 48
  else if c.isUpper then c.toNat - 55
  else c.toNat - 87

def numeral (b n : Nat) : List Char := (Nat.toDigits b n).map Char.toUpper

/-- The numeral, filled up with zeros to `width` characters. -/
def padded (b width n : Nat) : List Char :=
  List.replicate (width - (numeral b n).length) '0' ++ numeral b n

def value (b : Nat) (text : List Char) : Nat := text.foldl (fun n c => n * b + digitValue c) 0

/-- The characters of numerals in base `b`. -/
def IsDigit (b : Nat) (c : Char) : Prop := ∃ d < b, c = digit d

variable {b : Nat}

theorem digitValue_digit {d : Nat} (h : d < 16) : digitValue (digit d) = d := by
  interval_cases d <;> decide

theorem isDigit_digit {c : Char} (h : IsDigit 10 c) : c.isDigit = true := by
  obtain ⟨d, hd, rfl⟩ := h
  interval_cases d <;> decide

theorem isDigit_zero (hb : 0 < b) : IsDigit b '0' := ⟨0, hb, by decide⟩

variable {n : Nat}

theorem numeral_of_lt (h : n < b) : numeral b n = [digit n] := by
  rw [numeral, Nat.toDigits_of_lt_base h]
  rfl

/-- The last digit of a numeral stands for the remainder, what is before it for the quotient. -/
theorem numeral_step (hb : 1 < b) (h : b ≤ n) : numeral b n = numeral b (n / b) ++ [digit (n % b)] := by
  rw [numeral, Nat.toDigits_of_base_le hb h, List.map_append]
  rfl

theorem numeral_ne_nil (n : Nat) : numeral b n ≠ [] := by
  rw [numeral, Ne, List.map_eq_nil_iff]
  exact Nat.toDigits_ne_nil

theorem isDigit_numeral (hb : 1 < b) (n : Nat) : ∀ c ∈ numeral b n, IsDigit b c := by
  induction n using Nat.strongRecOn with
  | ind n ih =>
    rcases Nat.lt_or_ge n b with h | h
    · rw [numeral_of_lt h]
      exact List.forall_mem_singleton.mpr ⟨n, h, rfl⟩
    · rw [numeral_step hb h]
      refine List.forall_mem_append.mpr ⟨ih _ (Nat.div_lt_self (by omega) hb), List.forall_mem_singleton.mpr ?_⟩
      exact ⟨n % b, Nat.mod_lt _ (by omega), rfl⟩

theorem isDigit_padded (hb : 1 < b) (width n : Nat) : ∀ c ∈ padded b width n, IsDigit b c := by
  refine List.forall_mem_append.mpr ⟨fun c hc => ?_, isDigit_numeral hb n⟩
  rw [List.eq_of_mem_replicate hc]
  exact isDigit_zero (by omega)

theorem value_append (xs ys : List Char) : value b (xs ++ ys) = value b xs * b ^ ys.length + value b ys := by
  induction ys using List.reverseRecOn with
  | nil => simp [value]
  | append_singleton ys c ih =>
    simp only [value, ← List.append_assoc, List.foldl_append, List.foldl_cons, List.foldl_nil,
      List.length_append, List.length_cons, List.length_nil] at ih ⊢
    rw [ih, Nat.add_mul, Nat.mul_assoc, ← Nat.pow_succ, Nat.zero_add, Nat.succ_eq_add_one, Nat.add_assoc]

theorem value_zeros (n : Nat) : value b (List.replicate n '0') = 0 := by
  induction n with
  | zero => rfl
  | succ n ih =>
    rw [List.replicate_succ', value_append, ih]
    simp [value, digitValue]

/-- Reading a numeral gives the number it was written from. -/
theorem value_numeral (hb : 1 < b) (hb' : b ≤ 16) (n : Nat) : value b (numeral b n) = n := by
  induction n using Nat.strongRecOn with
  | ind n ih =>
    rcases Nat.lt_or_ge n b with h | h
    · rw [numeral_of_lt h]
      simp [value, digitValue_digit (show n < 16 by omega)]
    · have hmod : n % b < 16 := (Nat.mod_lt n (by omega)).trans_le hb'
      rw [numeral_step hb h, value_append, ih _ (Nat.div_lt_self (by omega) hb)]
      simpa [value, digitValue_digit hmod] using Nat.div_add_mod' n b

theorem value_padded (hb : 1 < b) (hb' : b ≤ 16) (width n : Nat) : value b (padded b width n) = n := by
  rw [padded, value_append, value_zeros, value_numeral hb hb', Nat.zero_mul, Nat.zero_add]

theorem length_numeral_of_lt (h : n < b) : (numeral b n).length = 1 := by
  rw [numeral_of_lt h, List.length_singleton]

theorem length_numeral_two (hb : 1 < b) (h : b ≤ n) (h' : n < b * b) : (numeral b n).length = 2 := by
  rw [numeral_step hb h, List.length_append, numeral_of_lt (Nat.div_lt_of_lt_mul h')]
  rfl

end Numerals
