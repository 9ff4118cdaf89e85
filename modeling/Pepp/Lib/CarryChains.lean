import Mathlib.Data.Nat.Digits.Lemmas
import Mathlib.Tactic.Linarith
import Mathlib.Tactic.Ring

/-!
# Chains of carries

Two numbers of equally many digits are added digit by digit, the least
significant first, each step passing its carry on. The digits and the last carry
are those of the sum. Where the digits stand for signed numbers, the most
significant ones alone decide the sign and whether the sum fits.
-/

namespace CarryChains

variable {b : Nat}

/-- The digits of the sum. -/
def sums (b : Nat) : Nat → List (Nat × Nat) → List Nat
  | _, [] => []
  | c, (x, y) :: rest => (x + y + c) % b :: sums b ((x + y + c) / b) rest

/-- The carry out of the last digit. -/
def carry (b : Nat) : Nat → List (Nat × Nat) → Nat
  | c, [] => c
  | c, (x, y) :: rest => carry b ((x + y + c) / b) rest

/-- The two numbers and the first carry. -/
def total (b c : Nat) (digits : List (Nat × Nat)) : Nat :=
  Nat.ofDigits b (digits.map Prod.fst) + Nat.ofDigits b (digits.map Prod.snd) + c

@[simp] theorem length_sums (c : Nat) (digits : List (Nat × Nat)) : (sums b c digits).length = digits.length := by
  induction digits generalizing c with
  | nil => rfl
  | cons d rest ih => simp [sums, ih]

theorem total_cons (c x y : Nat) (rest : List (Nat × Nat)) :
    total b c ((x, y) :: rest) = (x + y + c) % b + b * total b ((x + y + c) / b) rest := by
  have h := Nat.mod_add_div (x + y + c) b
  simp only [total, List.map_cons, Nat.ofDigits_cons, Nat.mul_add]
  omega

/-- Nothing is lost between the digits and the carry. -/
theorem ofDigits_sums (c : Nat) (digits : List (Nat × Nat)) :
    Nat.ofDigits b (sums b c digits) + b ^ digits.length * carry b c digits = total b c digits := by
  induction digits generalizing c with
  | nil => simp [sums, carry, total]
  | cons d rest ih =>
    obtain ⟨x, y⟩ := d
    rw [total_cons, ← ih, sums, carry, Nat.ofDigits_cons, List.length_cons, Nat.pow_succ]
    ring

section

variable (hb : 1 < b) (c : Nat) (digits : List (Nat × Nat))
include hb c digits

theorem ofDigits_sums_lt : Nat.ofDigits b (sums b c digits) < b ^ digits.length := by
  have h : ∀ d ∈ sums b c digits, d < b := by
    induction digits generalizing c with
    | nil => exact List.forall_mem_nil _
    | cons d rest ih =>
      rw [sums, List.forall_mem_cons]
      exact ⟨Nat.mod_lt _ (by omega), ih _⟩
  rw [← length_sums (b := b) c digits]
  exact Nat.ofDigits_lt_base_pow_length hb h

theorem ofDigits_sums_eq_mod : Nat.ofDigits b (sums b c digits) = total b c digits % b ^ digits.length := by
  rw [← ofDigits_sums, Nat.add_mul_mod_self_left, Nat.mod_eq_of_lt (ofDigits_sums_lt hb c digits)]

theorem carry_eq_div : carry b c digits = total b c digits / b ^ digits.length := by
  rw [← ofDigits_sums, Nat.add_mul_div_left _ _ (Nat.pow_pos (by omega)), Nat.div_eq_of_lt (ofDigits_sums_lt hb c digits),
    Nat.zero_add]

end

/-! ## Signed numbers -/

/-- A number below `2 * half` in two's complement. -/
def signed (half x : Nat) : Int := if x < half then x else x - 2 * half

/-- Whether a number is one of those that `2 * half` of them stand for. -/
def Fits (half : Nat) (x : Int) : Prop := -half ≤ x ∧ x < half

instance (half : Nat) (x : Int) : Decidable (Fits half x) := inferInstanceAs (Decidable (_ ∧ _))

variable {half low width : Nat}

theorem mul_le_add_mul_iff (h : low < width) (k x : Nat) : width * k ≤ low + width * x ↔ k ≤ x := by
  constructor
  · intro hle
    by_contra hx
    have hlt : low + width * x < width * (x + 1) := by
      rw [Nat.mul_add]
      omega
    exact absurd (hlt.trans_le (Nat.mul_le_mul_left width (not_le.mp hx))) hle.not_gt
  · intro hk
    exact (Nat.mul_le_mul_left width hk).trans (Nat.le_add_left _ _)

theorem add_mul_mod (h : low < width) (k x : Nat) : (low + width * x) % (width * k) = low + width * (x % k) := by
  have hlow : (low + width * x) / width = x := by
    rw [Nat.add_mul_div_left _ _ (by omega), Nat.div_eq_of_lt h, Nat.zero_add]
  rw [Nat.mod_mul, hlow, Nat.add_mul_mod_self_left, Nat.mod_eq_of_lt h]

/-- The most significant digit has the sign. -/
theorem signed_append (h : low < width) (x : Nat) :
    signed (width * half) (low + width * x) = low + width * signed half x := by
  unfold signed
  have hiff := mul_le_add_mul_iff h half x
  by_cases hx : x < half
  · rw [if_pos hx, if_pos (not_le.mp (hiff.not.mpr hx.not_ge))]
    push_cast
    ring
  · rw [if_neg hx, if_neg (hiff.mpr (not_lt.mp hx)).not_gt]
    push_cast
    ring

/-- The most significant digit decides whether a number fits. -/
theorem fits_append (h : low < width) (x : Int) : Fits (width * half) (low + width * x) ↔ Fits half x := by
  have hlow : (low : Int) < width := by exact_mod_cast h
  have hpos : (0 : Int) < width := by omega
  unfold Fits
  push_cast
  constructor
  · rintro ⟨hl, hu⟩
    constructor
    · by_contra hx
      nlinarith [mul_le_mul_of_nonneg_left (show x + 1 ≤ -(half : Int) by omega) hpos.le]
    · by_contra hx
      nlinarith [mul_le_mul_of_nonneg_left (not_lt.mp hx) hpos.le]
  · rintro ⟨hl, hu⟩
    constructor
    · nlinarith [mul_le_mul_of_nonneg_left hl hpos.le]
    · nlinarith [mul_le_mul_of_nonneg_left (show x + 1 ≤ (half : Int) by omega) hpos.le]

theorem signed_neg_iff {x : Nat} (h : x < 2 * half) : signed half x < 0 ↔ half ≤ x := by
  unfold signed
  split <;> omega

/-- The number with every bit the other way. -/
theorem signed_complement {x : Nat} (h : x < 2 * half) : signed half (2 * half - 1 - x) = -1 - signed half x := by
  unfold signed
  split <;> split <;> omega

end CarryChains
