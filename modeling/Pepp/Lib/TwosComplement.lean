import Mathlib.Algebra.Ring.Divisibility.Basic
import Mathlib.Data.BitVec
import Mathlib.Data.Int.ModEq
import Mathlib.Tactic.Zify

/-!
# Numbers as bit patterns

A number is carried as a pattern of `n` bits, on which unsigned operations work,
and the low `w` bits are kept. For sums, products and shifts to the left that
makes no difference. For quotients, remainders and shifts to the right of a
negative number it does, and exactly when is said here.
-/

namespace TwosComplement

variable {n w : Nat} {x y : Int}

theorem ofInt_eq_iff : BitVec.ofInt w x = BitVec.ofInt w y ↔ (2 ^ w : Int) ∣ x - y := by
  rw [← BitVec.toInt_inj, BitVec.toInt_ofInt, BitVec.toInt_ofInt, Int.bmod_eq_bmod_iff_bmod_sub_eq_zero,
    ← Int.dvd_iff_bmod_eq_zero]
  push_cast
  rfl

theorem setWidth_ofInt (h : w ≤ n) (x : Int) : (BitVec.ofInt n x).setWidth w = BitVec.ofInt w x := by
  refine BitVec.eq_of_toInt_eq ?_
  rw [← BitVec.signExtend_eq_setWidth_of_le _ h, BitVec.toInt_signExtend, BitVec.toInt_ofInt, BitVec.toInt_ofInt,
    Nat.min_eq_left h, Int.bmod_bmod_of_dvd (Nat.pow_dvd_pow 2 h)]

theorem two_pow_ne_zero (n : Nat) : ((2 ^ n : Nat) : Int) ≠ 0 := by
  exact_mod_cast (Nat.two_pow_pos n).ne'

theorem toNat_ofInt_of_neg (h : x < 0) (hle : -(2 ^ n) ≤ x) : ((BitVec.ofInt n x).toNat : Int) = 2 ^ n + x := by
  have hshift : x % ((2 ^ n : Nat) : Int) = 2 ^ n + x := by
    rw [← Int.add_emod_left]
    push_cast
    rw [Int.emod_eq_of_lt] <;> omega
  rw [BitVec.toNat_ofInt, Int.toNat_of_nonneg (Int.emod_nonneg _ (two_pow_ne_zero n)), hshift]

theorem toNat_natCast {a : Nat} (ha : a < 2 ^ n) : (BitVec.ofInt n (a : Int)).toNat = a := by
  rw [BitVec.ofInt_natCast, BitVec.toNat_ofNat, Nat.mod_eq_of_lt ha]

/-! ## Sums and products -/

theorem setWidth_add (h : w ≤ n) (x y : Int) :
    (BitVec.ofInt n x + BitVec.ofInt n y).setWidth w = BitVec.ofInt w (x + y) := by
  rw [← BitVec.ofInt_add, setWidth_ofInt h]

theorem setWidth_sub (h : w ≤ n) (x y : Int) :
    (BitVec.ofInt n x - BitVec.ofInt n y).setWidth w = BitVec.ofInt w (x - y) := by
  rw [BitVec.sub_eq_add_neg, ← BitVec.ofInt_neg, setWidth_add h, Int.sub_eq_add_neg]

theorem setWidth_mul (h : w ≤ n) (x y : Int) :
    (BitVec.ofInt n x * BitVec.ofInt n y).setWidth w = BitVec.ofInt w (x * y) := by
  rw [← BitVec.ofInt_mul, setWidth_ofInt h]

/-! ## Quotients and remainders -/

/-- The remainders of a difference and of what is taken away add up to that of the whole, or to one divisor more. -/
theorem mod_sub_add_mod {m a b : Nat} (hb : 0 < b) (ha : a ≤ m) :
    (m - a) % b + a % b = m % b + (if m % b < a % b then b else 0) := by
  have hmod : m % b = ((m - a) % b + a % b) % b := by rw [← Nat.add_mod, Nat.sub_add_cancel ha]
  have hlt := Nat.mod_lt (m - a) hb
  have hlt' := Nat.mod_lt a hb
  by_cases hcarry : b ≤ (m - a) % b + a % b
  · have hover : m % b = (m - a) % b + a % b - b :=
      hmod.trans ((Nat.mod_eq_sub_mod hcarry).trans (Nat.mod_eq_of_lt (by omega)))
    rw [if_pos (by omega)]
    omega
  · have hsame : m % b = (m - a) % b + a % b := hmod.trans (Nat.mod_eq_of_lt (by omega))
    rw [if_neg (by omega)]
    omega

/-- The quotients add up to that of the whole, or to one less. -/
theorem div_sub_add_div {m a b : Nat} (hb : 0 < b) (ha : a ≤ m) :
    (m - a) / b + a / b + (if m % b < a % b then 1 else 0) = m / b := by
  have hsum : m / b = (m - a) / b + a / b + if b ≤ (m - a) % b + a % b then 1 else 0 := by
    rw [← Nat.add_div hb, Nat.sub_add_cancel ha]
  have hmod := @mod_sub_add_mod m a b hb ha
  have hlt := Nat.mod_lt m hb
  rw [hsum, hmod]
  split_ifs at hmod ⊢ <;> omega

theorem setWidth_div (h : w ≤ n) (p q : BitVec n) :
    (p / q).setWidth w = BitVec.ofInt w ((p.toNat / q.toNat : Nat) : Int) := by
  have hdiv : p / q = BitVec.ofInt n ((p.toNat / q.toNat : Nat) : Int) := by
    refine BitVec.eq_of_toNat_eq ?_
    rw [BitVec.ofInt_natCast, BitVec.toNat_ofNat, BitVec.toNat_udiv,
      Nat.mod_eq_of_lt ((Nat.div_le_self _ _).trans_lt p.isLt)]
  rw [hdiv, setWidth_ofInt h]

theorem setWidth_mod (h : w ≤ n) (p q : BitVec n) :
    (p % q).setWidth w = BitVec.ofInt w ((p.toNat % q.toNat : Nat) : Int) := by
  have hmod : p % q = BitVec.ofInt n ((p.toNat % q.toNat : Nat) : Int) := by
    refine BitVec.eq_of_toNat_eq ?_
    rw [BitVec.ofInt_natCast, BitVec.toNat_ofNat, BitVec.toNat_umod,
      Nat.mod_eq_of_lt ((Nat.mod_le _ _).trans_lt p.isLt)]
  rw [hmod, setWidth_ofInt h]

/-- A number of `w` bits with a sign. -/
def Signed (w : Nat) (x : Int) : Prop := -(2 ^ (w - 1)) ≤ x ∧ x < 2 ^ (w - 1)

theorem half_bounds (hw : 0 < w) (h : w ≤ n) : 2 * 2 ^ (w - 1) = 2 ^ w ∧ 2 ^ w ≤ 2 ^ n := by
  refine ⟨?_, Nat.pow_le_pow_right (by decide) h⟩
  rw [← pow_succ', Nat.sub_add_cancel hw]

/-- The pattern of a negative number counts down from the top. -/
theorem Signed.toNat_neg {a : Nat} (hx : Signed w (-a : Int)) (ha : 0 < a) (hw : 0 < w) (h : w ≤ n) :
    (BitVec.ofInt n (-a : Int)).toNat = 2 ^ n - a ∧ a ≤ 2 ^ (w - 1) := by
  obtain ⟨htwice, hle⟩ := half_bounds hw h
  have hlow : a ≤ 2 ^ (w - 1) := by
    have hlow := hx.1
    zify
    omega
  have hneg := @toNat_ofInt_of_neg n (-a : Int) (by omega) (by zify at hlow htwice hle; omega)
  refine ⟨?_, hlow⟩
  zify [show a ≤ 2 ^ n by omega]
  omega

theorem Signed.toNat_nonneg {a : Nat} (hx : Signed w (a : Int)) (hw : 0 < w) (h : w ≤ n) :
    (BitVec.ofInt n (a : Int)).toNat = a ∧ a < 2 ^ (w - 1) := by
  obtain ⟨htwice, hle⟩ := half_bounds hw h
  have hlt : a < 2 ^ (w - 1) := by
    have hlt := hx.2
    zify
    exact hlt
  exact ⟨toNat_natCast (by omega), hlt⟩

/-- When an unsigned division of two patterns keeps the quotient of the numbers. -/
def QuotientKept (n w : Nat) (x y : Int) : Prop :=
  if 0 ≤ y then 0 ≤ x ∨ 2 ^ n / y % 2 ^ w = if 2 ^ n % y < -x % y then 1 else 0
  else if 0 ≤ x then x < -y
  else x = y

/-- When the remainder of two patterns is that of the numbers. -/
def RemainderKept (n : Nat) (x y : Int) : Prop :=
  if 0 ≤ y then 0 ≤ x ∨ 2 ^ n % y = 0 ∧ -x % y = 0
  else if 0 ≤ x then x < -y
  else x = y

theorem add_mod_eq_iff {q d m : Nat} (hd : d < m) : (q + d) % m = d ↔ m ∣ q := by
  have hmod : (q + d) % m = d ↔ q + d ≡ 0 + d [MOD m] := by
    rw [Nat.ModEq, Nat.zero_add, Nat.mod_eq_of_lt hd]
  rw [hmod, Nat.dvd_iff_mod_eq_zero]
  exact ⟨fun heq => Nat.ModEq.add_right_cancel' d heq, fun heq => Nat.ModEq.add_right d heq⟩

variable {a b : Nat}

/-- A negative number is divided by a positive one. -/
theorem div_neg_pos (hw : 0 < w) (h : w ≤ n) (ha : a ≤ 2 ^ (w - 1)) (hb : 0 < b) :
    (2 ^ w : Int) ∣ (((2 ^ n - a) / b : Nat) : Int) - -((a / b : Nat) : Int) ↔
      2 ^ n / b % 2 ^ w = if 2 ^ n % b < a % b then 1 else 0 := by
  obtain ⟨htwice, hle⟩ := half_bounds hw h
  have hone : 1 ≤ 2 ^ (w - 1) := Nat.one_le_two_pow
  have hdvd : (2 ^ w : Int) ∣ (((2 ^ n - a) / b : Nat) : Int) - -((a / b : Nat) : Int) ↔
      2 ^ w ∣ (2 ^ n - a) / b + a / b := by
    rw [sub_neg_eq_add]
    exact_mod_cast Iff.rfl
  rw [hdvd, ← div_sub_add_div hb (show a ≤ 2 ^ n by omega), add_mod_eq_iff]
  split <;> omega

/-- The remainder of a negative number by a positive one. -/
theorem mod_neg_pos (hw : 0 < w) (h : w ≤ n) (ha : a ≤ 2 ^ (w - 1)) (hb : 0 < b) (hlt : b < 2 ^ (w - 1)) :
    (2 ^ w : Int) ∣ (((2 ^ n - a) % b : Nat) : Int) - -((a % b : Nat) : Int) ↔ 2 ^ n % b = 0 ∧ a % b = 0 := by
  obtain ⟨htwice, hle⟩ := half_bounds hw h
  have hsum := mod_sub_add_mod hb (show a ≤ 2 ^ n by omega)
  have hdvd : (2 ^ w : Int) ∣ (((2 ^ n - a) % b : Nat) : Int) - -((a % b : Nat) : Int) ↔
      2 ^ w ∣ (2 ^ n - a) % b + a % b := by
    rw [sub_neg_eq_add]
    exact_mod_cast Iff.rfl
  have hmod := Nat.mod_lt (2 ^ n - a) hb
  have hmod' := Nat.mod_lt a hb
  rw [hdvd]
  constructor
  · intro hdvd
    have hzero := Nat.eq_zero_of_dvd_of_lt hdvd (by omega)
    rw [hzero] at hsum
    omega
  · rintro ⟨hn, ha⟩
    rw [hn, ha, if_neg (Nat.lt_irrefl 0)] at hsum
    rw [ha, hsum]
    exact Nat.dvd_zero _

/-- A quotient of natural numbers that is too small to wrap. -/
theorem dvd_natCast_iff {q : Nat} (h : q < 2 ^ w) : (2 ^ w : Int) ∣ (q : Int) ↔ q = 0 := by
  have hcast : (2 ^ w : Int) ∣ (q : Int) ↔ 2 ^ w ∣ q := by exact_mod_cast Iff.rfl
  rw [hcast]
  constructor
  · exact fun hdvd => Nat.eq_zero_of_dvd_of_lt hdvd h
  · rintro rfl
    exact Nat.dvd_zero _

theorem sign_cases (x : Int) : (∃ a : Nat, x = a) ∨ ∃ a : Nat, 0 < a ∧ x = -a := by
  obtain h | h := le_or_gt 0 x
  · exact .inl ⟨x.toNat, by omega⟩
  · exact .inr ⟨x.natAbs, by omega, by omega⟩

theorem setWidth_div_iff (hw : 0 < w) (h : w ≤ n) (hx : Signed w x) (hy : Signed w y) (hzero : y ≠ 0) :
    (BitVec.ofInt n x / BitVec.ofInt n y).setWidth w = BitVec.ofInt w (x.tdiv y) ↔ QuotientKept n w x y := by
  obtain ⟨htwice, hle⟩ := half_bounds hw h
  have hone : 1 ≤ 2 ^ (w - 1) := Nat.one_le_two_pow
  rw [setWidth_div h, ofInt_eq_iff, QuotientKept]
  obtain ⟨b, rfl⟩ | ⟨b, hb, rfl⟩ := sign_cases y
  · have hb : 0 < b := by omega
    obtain ⟨hpattern, -⟩ := hy.toNat_nonneg hw h
    rw [if_pos (by omega), hpattern]
    obtain ⟨a, rfl⟩ | ⟨a, ha, rfl⟩ := sign_cases x
    · rw [(hx.toNat_nonneg hw h).1, ← Int.ofNat_tdiv, sub_self]
      exact iff_of_true (dvd_zero _) (.inl (by omega))
    · obtain ⟨hpattern', hhalf⟩ := hx.toNat_neg ha hw h
      rw [hpattern', Int.neg_tdiv, ← Int.ofNat_tdiv, div_neg_pos hw h hhalf hb, neg_neg, or_iff_right (by omega)]
      exact_mod_cast Iff.rfl
  · obtain ⟨hpattern, hblow⟩ := hy.toNat_neg hb hw h
    rw [if_neg (by omega), hpattern]
    obtain ⟨a, rfl⟩ | ⟨a, ha, rfl⟩ := sign_cases x
    · obtain ⟨hpattern', halt⟩ := hx.toNat_nonneg hw h
      have hquotient := Nat.div_le_self a b
      rw [if_pos (by omega), hpattern', Int.tdiv_neg, ← Int.ofNat_tdiv, Nat.div_eq_of_lt (by omega), sub_neg_eq_add,
        Nat.cast_zero, zero_add, dvd_natCast_iff (by omega), Nat.div_eq_zero_iff_lt hb]
      omega
    · obtain ⟨hpattern', halow⟩ := hx.toNat_neg ha hw h
      rw [if_neg (by omega), hpattern', Int.neg_tdiv_neg, ← Int.ofNat_tdiv]
      rcases Nat.lt_trichotomy a b with hab | rfl | hab
      · have hquotient : (2 ^ n - a) / (2 ^ n - b) = 1 := Nat.div_eq_of_lt_le (by omega) (by omega)
        rw [hquotient, Nat.div_eq_of_lt hab, Nat.cast_zero, sub_zero, dvd_natCast_iff (by omega)]
        omega
      · rw [Nat.div_self (by omega), Nat.div_self ha, sub_self]
        exact iff_of_true (dvd_zero _) rfl
      · have hquotient : a / b ≠ 0 := (Nat.div_pos hab.le hb).ne'
        have hle := Nat.div_le_self a b
        rw [Nat.div_eq_of_lt (by omega), Nat.cast_zero, zero_sub, Int.dvd_neg, dvd_natCast_iff (by omega)]
        omega

theorem setWidth_mod_iff (hw : 0 < w) (h : w ≤ n) (hx : Signed w x) (hy : Signed w y) (hzero : y ≠ 0) :
    (BitVec.ofInt n x % BitVec.ofInt n y).setWidth w = BitVec.ofInt w (x.tmod y) ↔ RemainderKept n x y := by
  obtain ⟨htwice, hle⟩ := half_bounds hw h
  have hone : 1 ≤ 2 ^ (w - 1) := Nat.one_le_two_pow
  rw [setWidth_mod h, ofInt_eq_iff, RemainderKept]
  obtain ⟨b, rfl⟩ | ⟨b, hb, rfl⟩ := sign_cases y
  · have hb : 0 < b := by omega
    obtain ⟨hpattern, hblt⟩ := hy.toNat_nonneg hw h
    rw [if_pos (by omega), hpattern]
    obtain ⟨a, rfl⟩ | ⟨a, ha, rfl⟩ := sign_cases x
    · rw [(hx.toNat_nonneg hw h).1, ← Int.ofNat_tmod, sub_self]
      exact iff_of_true (dvd_zero _) (.inl (by omega))
    · obtain ⟨hpattern', hhalf⟩ := hx.toNat_neg ha hw h
      rw [hpattern', Int.neg_tmod, ← Int.ofNat_tmod, mod_neg_pos hw h hhalf hb hblt, neg_neg, or_iff_right (by omega)]
      exact_mod_cast Iff.rfl
  · obtain ⟨hpattern, hblow⟩ := hy.toNat_neg hb hw h
    rw [if_neg (by omega), hpattern]
    obtain ⟨a, rfl⟩ | ⟨a, ha, rfl⟩ := sign_cases x
    · obtain ⟨hpattern', halt⟩ := hx.toNat_nonneg hw h
      have hdiff : (a : Int) - ((a % b : Nat) : Int) = ((a - a % b : Nat) : Int) := by
        rw [Nat.cast_sub (Nat.mod_le a b)]
      rw [if_pos (by omega), hpattern', Int.tmod_neg, ← Int.ofNat_tmod, Nat.mod_eq_of_lt (show a < 2 ^ n - b by omega),
        hdiff, dvd_natCast_iff (by omega), Nat.sub_eq_zero_iff_le, neg_neg, Int.ofNat_lt]
      constructor
      · intro hle
        exact hle.trans_lt (Nat.mod_lt a hb)
      · intro hlt
        rw [Nat.mod_eq_of_lt hlt]
    · obtain ⟨hpattern', halow⟩ := hx.toNat_neg ha hw h
      rw [if_neg (by omega), hpattern', Int.neg_tmod, Int.tmod_neg, ← Int.ofNat_tmod]
      rcases Nat.lt_trichotomy a b with hab | rfl | hab
      · have hmod : (2 ^ n - a) % (2 ^ n - b) = b - a := by
          rw [Nat.mod_eq_sub_mod (by omega), Nat.mod_eq_of_lt (by omega)]
          omega
        have hsum : ((b - a : Nat) : Int) - -((a : Nat) : Int) = (b : Int) := by omega
        rw [hmod, Nat.mod_eq_of_lt hab, hsum, dvd_natCast_iff (by omega)]
        omega
      · rw [Nat.mod_self, Nat.mod_self]
        exact iff_of_true (dvd_zero _) rfl
      · have hless := Nat.mod_lt a hb
        have hsum : ((2 ^ n - a : Nat) : Int) - -((a % b : Nat) : Int) = 2 ^ n - ((a - a % b : Nat) : Int) := by
          rw [Nat.cast_sub (by omega), Nat.cast_sub (Nat.mod_le a b)]
          push_cast
          omega
        rw [Nat.mod_eq_of_lt (show 2 ^ n - a < 2 ^ n - b by omega), hsum,
          dvd_sub_right (pow_dvd_pow 2 h), dvd_natCast_iff (by omega)]
        omega

/-- Quotients of numbers without a sign are kept. -/
theorem setWidth_div_of_nonneg (h : w ≤ n) (ha : a < 2 ^ n) (hb : b < 2 ^ n) :
    (BitVec.ofInt n (a : Int) / BitVec.ofInt n (b : Int)).setWidth w = BitVec.ofInt w ((a : Int).tdiv b) := by
  rw [setWidth_div h, toNat_natCast ha, toNat_natCast hb, Int.ofNat_tdiv]

theorem setWidth_mod_of_nonneg (h : w ≤ n) (ha : a < 2 ^ n) (hb : b < 2 ^ n) :
    (BitVec.ofInt n (a : Int) % BitVec.ofInt n (b : Int)).setWidth w = BitVec.ofInt w ((a : Int).tmod b) := by
  rw [setWidth_mod h, toNat_natCast ha, toNat_natCast hb, Int.ofNat_tmod]

/-! ## Shifts -/

theorem setWidth_shiftLeft (h : w ≤ n) (x : Int) (k : Nat) :
    (BitVec.ofInt n x <<< k).setWidth w = BitVec.ofInt w (x * 2 ^ k) := by
  have htwo : BitVec.twoPow n k = BitVec.ofInt n ((2 ^ k : Nat) : Int) := by
    refine BitVec.eq_of_toNat_eq ?_
    rw [BitVec.toNat_twoPow, BitVec.ofInt_natCast, BitVec.toNat_ofNat]
  rw [BitVec.shiftLeft_eq_mul_twoPow, htwo, setWidth_mul h]
  push_cast
  rfl

theorem setWidth_shiftRight (h : w ≤ n) (p : BitVec n) (k : Nat) :
    (p >>> k).setWidth w = BitVec.ofInt w ((p.toNat / 2 ^ k : Nat) : Int) := by
  have hshift : p >>> k = BitVec.ofInt n ((p.toNat / 2 ^ k : Nat) : Int) := by
    refine BitVec.eq_of_toNat_eq ?_
    rw [BitVec.ofInt_natCast, BitVec.toNat_ofNat, BitVec.toNat_ushiftRight, Nat.shiftRight_eq_div_pow,
      Nat.mod_eq_of_lt ((Nat.div_le_self _ _).trans_lt p.isLt)]
  rw [hshift, setWidth_ofInt h]

theorem setWidth_shiftRight_of_nonneg (h : w ≤ n) {a : Nat} (ha : a < 2 ^ n) (k : Nat) :
    (BitVec.ofInt n (a : Int) >>> k).setWidth w = BitVec.ofInt w ((a : Int) / 2 ^ k) := by
  rw [setWidth_shiftRight h, toNat_natCast ha]
  push_cast
  rfl

/-- A shift to the right keeps a negative number as long as the bits that come in are not looked at. -/
theorem setWidth_shiftRight_iff (hw : 0 < w) (h : w ≤ n) (hx : Signed w x) {k : Nat} (hk : k < n) :
    (BitVec.ofInt n x >>> k).setWidth w = BitVec.ofInt w (x / 2 ^ k) ↔ 0 ≤ x ∨ k + w ≤ n := by
  obtain ⟨htwice, hle⟩ := half_bounds hw h
  obtain ⟨a, rfl⟩ | ⟨a, ha, rfl⟩ := sign_cases x
  · rw [setWidth_shiftRight_of_nonneg h (show a < 2 ^ n by have := (hx.toNat_nonneg hw h).2; omega)]
    exact iff_of_true rfl (.inl (by omega))
  · obtain ⟨hpattern, hlow⟩ := hx.toNat_neg ha hw h
    have hquotient : (((2 ^ n - a) / 2 ^ k : Nat) : Int) = -a / 2 ^ k + 2 ^ (n - k) := by
      have hsplit : ((2 ^ n - a : Nat) : Int) = -a + 2 ^ k * 2 ^ (n - k) := by
        rw [← pow_add, Nat.add_sub_cancel' hk.le, Nat.cast_sub (by omega)]
        push_cast
        omega
      rw [Int.natCast_ediv, hsplit]
      push_cast
      exact Int.add_mul_ediv_left _ _ (pow_ne_zero k (by decide))
    have hdvd : (2 ^ w : Int) ∣ 2 ^ (n - k) ↔ 2 ^ w ∣ 2 ^ (n - k) := by exact_mod_cast Iff.rfl
    rw [setWidth_shiftRight h, hpattern, ofInt_eq_iff, hquotient, add_sub_cancel_left, or_iff_right (by omega), hdvd,
      Nat.pow_dvd_pow_iff_le_right (by decide)]
    omega

end TwosComplement
