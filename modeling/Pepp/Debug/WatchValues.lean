import Pepp.Debug.Values
import Pepp.Lib.Endian

/-!
# What watch expressions compute

Both operands are converted to their common type, the operator is that of the
integers, and its result wraps to the type. The extended bits give that result
for sums, products and bitwise operators, and for the others under a condition
on the operands. A word is read in two halves.
-/

namespace Pepp.Debug

open TwosComplement

/-! ## The operators of the integers -/

/-- `x` times the power of two with the exponent `k`, rounded down. -/
def scale (x k : Int) : Int := if 0 ≤ k then x * 2 ^ k.toNat else x / 2 ^ (-k).toNat

def number (p : Primitives) (z : Int) : Value := .primitive (.ofInt p z)

/-- A bitwise operator on the low bits of two numbers. -/
def bitwise (p : Primitives) (op : ∀ w, BitVec w → BitVec w → BitVec w) (x y : Int) : Value :=
  .primitive (.fromBits p ((op p.bitness (BitVec.ofInt _ x) (BitVec.ofInt _ y)).setWidth 64))

/-- What an operator means for numbers of the type `p`. -/
def Operators.meaning (p : Primitives) (x y : Int) : Operators → Value
  | MULTIPLY => number p (x * y)
  | DIVIDE => if y = 0 then .never else number p (x.tdiv y)
  | MODULO => if y = 0 then .never else number p (x.tmod y)
  | ADD => number p (x + y)
  | SUBTRACT => number p (x - y)
  | SHIFT_LEFT => number p (scale x y)
  | SHIFT_RIGHT => number p (scale x (-y))
  | LESS => verdict (x < y)
  | LESS_OR_EQUAL => verdict (x ≤ y)
  | EQUAL => verdict (x = y)
  | NOT_EQUAL => verdict (x ≠ y)
  | GREATER => verdict (y < x)
  | GREATER_OR_EQUAL => verdict (y ≤ x)
  | BIT_AND => bitwise p (fun _ => (· &&& ·)) x y
  | BIT_OR => bitwise p (fun _ => (· ||| ·)) x y
  | BIT_XOR => bitwise p (fun _ => (· ^^^ ·)) x y

namespace VPrimitive

def common (a b : VPrimitive) : Primitives := .commonType a.primitive b.primitive

/-- The left operand, converted to the common type. -/
def left (a b : VPrimitive) : Int := (a.common b).reduce a.value

/-- The right operand, converted to the common type. -/
def right (a b : VPrimitive) : Int := (a.common b).reduce b.value

end VPrimitive

/-- The operator has the value that it means for its operands, converted to their common type. -/
def Operators.Right (op : Operators) (a b : VPrimitive) : Prop :=
  op.evaluate (.primitive a) (.primitive b) = some (op.meaning (a.common b) (a.left b) (a.right b))

/-- An order of numbers is kept: within a type if their signs are the same, else if their types are in that order. -/
def OrderKept (a b : VPrimitive) (before : Nat → Nat → Prop) (holds : Prop) : Prop :=
  if a.primitive = b.primitive then a.left b < 0 ↔ a.right b < 0
  else before a.primitive.toU8.toNat b.primitive.toU8.toNat ↔ holds

/-- When an operator has the value that it means. -/
def Operators.Kept (a b : VPrimitive) : Operators → Prop
  | MULTIPLY | ADD | SUBTRACT | BIT_AND | BIT_OR | BIT_XOR => True
  | DIVIDE => a.right b ≠ 0 ∧ QuotientKept 64 (a.common b).bitness (a.left b) (a.right b)
  | MODULO => a.right b ≠ 0 ∧ RemainderKept 64 (a.left b) (a.right b)
  | SHIFT_LEFT => 0 ≤ a.right b ∧ a.right b < 64
  | SHIFT_RIGHT =>
    (0 ≤ a.right b ∧ a.right b < 64) ∧ (0 ≤ a.left b ∨ (a.right b).toNat + (a.common b).bitness ≤ 64)
  | EQUAL | NOT_EQUAL => a.primitive = b.primitive ∨ a.left b ≠ a.right b
  | LESS => OrderKept a b (· < ·) (a.left b < a.right b)
  | LESS_OR_EQUAL => OrderKept a b (· < ·) (a.left b ≤ a.right b)
  | GREATER => OrderKept a b (· > ·) (a.right b < a.left b)
  | GREATER_OR_EQUAL => OrderKept a b (· > ·) (a.right b ≤ a.left b)

/-! ## Operands -/

namespace Primitives

theorem reduce_unsigned {p : Primitives} (h : p.isUnsigned = true) (z : Int) :
    ∃ a : Nat, p.reduce z = a ∧ a < 2 ^ p.bitness := by
  have hpos : (0 : Int) < 2 ^ p.bitness := by exact_mod_cast Nat.two_pow_pos p.bitness
  have hnonneg := Int.emod_nonneg z hpos.ne'
  have hlt := Int.emod_lt_of_pos z hpos
  refine ⟨(z % 2 ^ p.bitness).toNat, ?_, ?_⟩
  · rw [reduce, if_pos h, Int.toNat_of_nonneg hnonneg]
  · zify
    rwa [Int.toNat_of_nonneg hnonneg]

theorem reduce_signed {p : Primitives} (h : p.isUnsigned = false) (z : Int) : Signed p.bitness (p.reduce z) := by
  obtain ⟨htwice, -⟩ := half_bounds p.bitness_pos p.bitness_le
  have hlow := @Int.le_bmod z _ (Nat.two_pow_pos p.bitness)
  have hhigh := @Int.bmod_lt z _ (Nat.two_pow_pos p.bitness)
  rw [reduce, h, if_neg Bool.false_ne_true]
  zify at htwice
  push_cast at hlow hhigh
  constructor <;> omega

end Primitives

namespace VPrimitive

variable (v : VPrimitive)

theorem promote_primitive (p : Primitives) : (v.promote p).primitive = p := by
  rw [promote]
  split
  · next h => exact h.symm
  · rfl

theorem promote_bits (p : Primitives) : (v.promote p).bits = BitVec.ofInt 64 (p.reduce v.value) := by
  rw [← value_promote, ofInt_value]

/-- A number is in the range of its type. -/
theorem reduce_value : v.primitive.reduce v.value = v.value := by
  rw [← value_promote, promote, if_pos rfl]

theorem fromBits_inj {p : Primitives} {bits bits' : U64} :
    fromBits p bits = fromBits p bits' ↔ bits.setWidth p.bitness = bits'.setWidth p.bitness := by
  constructor
  · intro h
    have hbits : p.extend bits = p.extend bits' := congrArg VPrimitive.bits h
    rw [← p.setWidth_extend, hbits, p.setWidth_extend]
  · intro h
    exact ext_bits rfl (Primitives.extend_congr h)

end VPrimitive

theorem number_iff {p : Primitives} {bits : U64} {z : Int} :
    Value.primitive (.fromBits p bits) = number p z ↔ bits.setWidth p.bitness = BitVec.ofInt p.bitness z := by
  rw [number, Value.primitive.injEq, VPrimitive.ofInt, VPrimitive.fromBits_inj, setWidth_ofInt p.bitness_le]

namespace VPrimitive

variable {a b : VPrimitive}

theorem common_of_eq (h : a.primitive = b.primitive) : a.common b = a.primitive := if_pos h

theorem left_of_eq (h : a.primitive = b.primitive) : a.left b = a.value := by
  rw [left, common_of_eq h, reduce_value]

theorem right_of_eq (h : a.primitive = b.primitive) : a.right b = b.value := by
  rw [right, common_of_eq h, h, reduce_value]

end VPrimitive

/-- An arithmetic operator works on the bits of both operands, converted to their common type. -/
theorem binaryArith_primitive (op : U64 → U64 → Option U64) (a b : VPrimitive) :
    binaryArith op (.primitive a) (.primitive b) =
      (op (BitVec.ofInt 64 (a.left b)) (BitVec.ofInt 64 (a.right b))).map
        fun bits => .primitive (.fromBits (a.common b) bits) := by
  rw [binaryArith]
  split
  · next h =>
    rw [VPrimitive.left_of_eq h, VPrimitive.right_of_eq h, a.ofInt_value, b.ofInt_value, VPrimitive.common_of_eq h]
    rfl
  · simp only [VPrimitive.withBits, VPrimitive.promote_primitive, VPrimitive.promote_bits]
    rfl

/-! ## One type -/

namespace Primitives

variable (p : Primitives) (a b : Int)

/-- The pattern of a number that is not negative is the number; that of another counts down from the top. -/
theorem pattern_cases :
    (∃ n : Nat, n < 2 ^ 63 ∧ p.reduce a = n ∧ (BitVec.ofInt 64 (p.reduce a)).toNat = n) ∨
      ∃ n : Nat, 0 < n ∧ n ≤ 2 ^ 63 ∧ p.reduce a = -n ∧ (BitVec.ofInt 64 (p.reduce a)).toNat = 2 ^ 64 - n := by
  cases hp : p.isUnsigned with
  | true =>
    obtain ⟨n, hn, hlt⟩ := reduce_unsigned hp a
    have hhalf : 2 ^ p.bitness ≤ 2 ^ 63 := Nat.pow_le_pow_right (by decide) (by cases p <;> decide)
    refine .inl ⟨n, hlt.trans_le hhalf, hn, ?_⟩
    rw [hn, toNat_natCast (hlt.trans_le (half_bounds p.bitness_pos p.bitness_le).2)]
  | false =>
    have hsigned := reduce_signed hp a
    have hhalf : 2 ^ (p.bitness - 1) ≤ 2 ^ 63 :=
      Nat.pow_le_pow_right (by decide) (Nat.sub_le_sub_right p.bitness_le 1)
    obtain ⟨n, hn⟩ | ⟨n, hpos, hn⟩ := sign_cases (p.reduce a)
    · rw [hn] at hsigned
      obtain ⟨hpattern, hlt⟩ := hsigned.toNat_nonneg p.bitness_pos p.bitness_le
      refine .inl ⟨n, hlt.trans_le hhalf, hn, ?_⟩
      rw [hn, hpattern]
    · rw [hn] at hsigned
      obtain ⟨hpattern, hle⟩ := hsigned.toNat_neg hpos p.bitness_pos p.bitness_le
      refine .inr ⟨n, hpos, hle.trans hhalf, hn, ?_⟩
      rw [hn, hpattern]

theorem ofInt_reduce_eq_zero : BitVec.ofInt 64 (p.reduce a) = 0 ↔ p.reduce a = 0 := by
  rw [← BitVec.toNat_inj]
  change _ = 0 ↔ _
  obtain ⟨n, hlt, hn, hpattern⟩ | ⟨n, hpos, hle, hn, hpattern⟩ := p.pattern_cases a <;> omega

/-- A shift count is small as a pattern when it is small as a number. -/
theorem toNat_lt_iff : (BitVec.ofInt 64 (p.reduce a)).toNat < 64 ↔ 0 ≤ p.reduce a ∧ p.reduce a < 64 := by
  obtain ⟨n, hlt, hn, hpattern⟩ | ⟨n, hpos, hle, hn, hpattern⟩ := p.pattern_cases a <;> omega

theorem toNat_of_nonneg (h : 0 ≤ p.reduce a) : (BitVec.ofInt 64 (p.reduce a)).toNat = (p.reduce a).toNat := by
  obtain ⟨n, hlt, hn, hpattern⟩ | ⟨n, hpos, hle, hn, hpattern⟩ := p.pattern_cases a <;> omega

theorem div_iff (hzero : p.reduce b ≠ 0) :
    (BitVec.ofInt 64 (p.reduce a) / BitVec.ofInt 64 (p.reduce b)).setWidth p.bitness =
        BitVec.ofInt p.bitness ((p.reduce a).tdiv (p.reduce b)) ↔
      QuotientKept 64 p.bitness (p.reduce a) (p.reduce b) := by
  cases hp : p.isUnsigned with
  | true =>
    have hle := (half_bounds p.bitness_pos p.bitness_le).2
    obtain ⟨m, hm, hlt⟩ := reduce_unsigned hp a
    obtain ⟨n, hn, hlt'⟩ := reduce_unsigned hp b
    rw [hm, hn, setWidth_div_of_nonneg p.bitness_le (hlt.trans_le hle) (hlt'.trans_le hle), QuotientKept,
      if_pos (Int.natCast_nonneg n)]
    exact iff_of_true rfl (.inl (Int.natCast_nonneg m))
  | false => exact setWidth_div_iff p.bitness_pos p.bitness_le (reduce_signed hp a) (reduce_signed hp b) hzero

theorem mod_iff (hzero : p.reduce b ≠ 0) :
    (BitVec.ofInt 64 (p.reduce a) % BitVec.ofInt 64 (p.reduce b)).setWidth p.bitness =
        BitVec.ofInt p.bitness ((p.reduce a).tmod (p.reduce b)) ↔
      RemainderKept 64 (p.reduce a) (p.reduce b) := by
  cases hp : p.isUnsigned with
  | true =>
    have hle := (half_bounds p.bitness_pos p.bitness_le).2
    obtain ⟨m, hm, hlt⟩ := reduce_unsigned hp a
    obtain ⟨n, hn, hlt'⟩ := reduce_unsigned hp b
    rw [hm, hn, setWidth_mod_of_nonneg p.bitness_le (hlt.trans_le hle) (hlt'.trans_le hle), RemainderKept,
      if_pos (Int.natCast_nonneg n)]
    exact iff_of_true rfl (.inl (Int.natCast_nonneg m))
  | false => exact setWidth_mod_iff p.bitness_pos p.bitness_le (reduce_signed hp a) (reduce_signed hp b) hzero

theorem shiftRight_iff {k : Nat} (hk : k < 64) :
    (BitVec.ofInt 64 (p.reduce a) >>> k).setWidth p.bitness = BitVec.ofInt p.bitness (p.reduce a / 2 ^ k) ↔
      0 ≤ p.reduce a ∨ k + p.bitness ≤ 64 := by
  cases hp : p.isUnsigned with
  | true =>
    obtain ⟨n, hn, hlt⟩ := reduce_unsigned hp a
    rw [hn, setWidth_shiftRight_of_nonneg p.bitness_le (hlt.trans_le (half_bounds p.bitness_pos p.bitness_le).2)]
    exact iff_of_true rfl (.inl (Int.natCast_nonneg n))
  | false => exact setWidth_shiftRight_iff p.bitness_pos p.bitness_le (reduce_signed hp a) hk

/-- Patterns of numbers with one sign are in their order. -/
theorem compare_pattern (h : p.reduce a < 0 ↔ p.reduce b < 0) :
    compare (BitVec.ofInt 64 (p.reduce a)).toNat (BitVec.ofInt 64 (p.reduce b)).toNat =
      compare (p.reduce a) (p.reduce b) := by
  apply Orderings.compare_congr
  all_goals
    obtain ⟨m, hlt, hm, hpattern⟩ | ⟨m, hpos, hle, hm, hpattern⟩ := p.pattern_cases a <;>
      obtain ⟨n, hlt', hn, hpattern'⟩ | ⟨n, hpos', hle', hn, hpattern'⟩ := p.pattern_cases b <;> omega

/-- The pattern of a negative number is above those of the others. -/
theorem pattern_lt (hneg : p.reduce a < 0) (hnonneg : 0 ≤ p.reduce b) :
    (BitVec.ofInt 64 (p.reduce b)).toNat < (BitVec.ofInt 64 (p.reduce a)).toNat := by
  obtain ⟨m, hlt, hm, hpattern⟩ | ⟨m, hpos, hle, hm, hpattern⟩ := p.pattern_cases a <;>
    obtain ⟨n, hlt', hn, hpattern'⟩ | ⟨n, hpos', hle', hn, hpattern'⟩ := p.pattern_cases b <;> omega

end Primitives

/-! ## Comparisons -/

theorem verdict_inj {c d : Bool} : verdict c = verdict d ↔ c = d := by
  constructor
  · intro h
    have hbits := congrArg Value.bits h
    cases c <;> cases d <;> first | rfl | exact absurd hbits (by decide)
  · exact congrArg verdict

namespace VPrimitive

variable (a b : VPrimitive)

theorem compare_of_eq (h : a.primitive = b.primitive) : a.compare b = Ord.compare a.bits.toNat b.bits.toNat := by
  rw [compare, h, compare_eq_iff_eq.mpr rfl]
  rfl

/-- Numbers of different types are compared by their types. -/
theorem compare_of_ne (h : a.primitive ≠ b.primitive) :
    a.compare b = Ord.compare a.primitive.toU8.toNat b.primitive.toU8.toNat ∧
      a.primitive.toU8.toNat ≠ b.primitive.toU8.toNat := by
  have hne : a.primitive.toU8.toNat ≠ b.primitive.toU8.toNat :=
    fun heq => h (Primitives.toU8_inj (BitVec.eq_of_toNat_eq heq))
  refine ⟨?_, hne⟩
  rw [compare]
  cases hcompare : Ord.compare a.primitive.toU8.toNat b.primitive.toU8.toNat with
  | lt => rfl
  | eq => exact absurd (compare_eq_iff_eq.mp hcompare) hne
  | gt => rfl

/-- Within a type the order of the patterns is that of the numbers, or the other way round where one is negative. -/
theorem compare_cases (h : a.primitive = b.primitive) :
    if a.value < 0 ↔ b.value < 0 then a.compare b = Ord.compare a.value b.value
    else a.compare b = (Ord.compare a.value b.value).swap ∧ a.value ≠ b.value := by
  have hbits := a.ofInt_value
  have hbits' := b.ofInt_value
  have hvalue := a.reduce_value
  have hvalue' := b.reduce_value
  rw [← h] at hvalue'
  rw [compare_of_eq a b h, ← hbits, ← hbits', ← hvalue, ← hvalue']
  split
  · next hsign => exact a.primitive.compare_pattern a.value b.value hsign
  · next hsign =>
    by_cases hneg : a.primitive.reduce a.value < 0
    · have hnonneg : 0 ≤ a.primitive.reduce b.value := by omega
      rw [compare_gt_iff_gt.mpr (a.primitive.pattern_lt a.value b.value hneg hnonneg),
        compare_lt_iff_lt.mpr (hneg.trans_le hnonneg)]
      exact ⟨rfl, (hneg.trans_le hnonneg).ne⟩
    · have hneg' : a.primitive.reduce b.value < 0 := by omega
      have hnonneg : 0 ≤ a.primitive.reduce a.value := by omega
      rw [compare_lt_iff_lt.mpr (a.primitive.pattern_lt b.value a.value hneg' hnonneg),
        compare_gt_iff_gt.mpr (hneg'.trans_le hnonneg)]
      exact ⟨rfl, (hneg'.trans_le hnonneg).ne'⟩

end VPrimitive

section Comparisons

variable {a b : VPrimitive} {before : Nat → Nat → Prop} {holds : Prop} [Decidable holds]

/-- A strict or weak order that is told from the outcome of the comparison. -/
theorem order_iff (outcome : Ordering → Bool) (hswap : ∀ o, o ≠ .eq → outcome o.swap ≠ outcome o)
    (hbefore : ∀ i j, i ≠ j → (outcome (Ord.compare i j) = true ↔ before i j))
    (hholds : outcome (Ord.compare (a.left b) (a.right b)) = true ↔ holds) :
    verdict (outcome (a.compare b)) = verdict holds ↔ OrderKept a b before holds := by
  rw [verdict_inj, Bool.eq_iff_iff, decide_eq_true_iff, ← hholds, OrderKept]
  split
  · next h =>
    have hcases := VPrimitive.compare_cases a b h
    rw [VPrimitive.left_of_eq h, VPrimitive.right_of_eq h]
    split at hcases
    · next hsign => exact iff_of_true (by rw [hcases]) hsign
    · next hsign =>
      obtain ⟨hcompare, hne⟩ := hcases
      have hneq : Ord.compare a.value b.value ≠ .eq := fun heq => hne (compare_eq_iff_eq.mp heq)
      rw [hcompare, ← Bool.eq_iff_iff]
      exact iff_of_false (hswap _ hneq) hsign
  · next h =>
    obtain ⟨hcompare, hne⟩ := VPrimitive.compare_of_ne a b h
    rw [hcompare, hbefore _ _ hne]

/-- Values are equal when their types and their numbers are. -/
theorem compare_eq_iff (a b : VPrimitive) : a.compare b = .eq ↔ a.primitive = b.primitive ∧ a.value = b.value := by
  by_cases h : a.primitive = b.primitive
  · have hcases := VPrimitive.compare_cases a b h
    split at hcases
    · rw [hcases, compare_eq_iff_eq]
      exact (and_iff_right h).symm
    · obtain ⟨hcompare, hne⟩ := hcases
      rw [hcompare, Ordering.swap_eq_iff_eq_swap]
      exact iff_of_false (fun heq => hne (compare_eq_iff_eq.mp heq)) fun heq => hne heq.2
  · obtain ⟨hcompare, hne⟩ := VPrimitive.compare_of_ne a b h
    rw [hcompare, compare_eq_iff_eq]
    exact iff_of_false hne fun heq => h heq.1

/-- Equality is told right but for equal numbers of different types. -/
theorem equal_iff (a b : VPrimitive) :
    (a.compare b = .eq ↔ a.left b = a.right b) ↔ a.primitive = b.primitive ∨ a.left b ≠ a.right b := by
  rw [compare_eq_iff]
  by_cases h : a.primitive = b.primitive
  · rw [VPrimitive.left_of_eq h, VPrimitive.right_of_eq h]
    exact iff_of_true (and_iff_right h) (.inl h)
  · rw [or_iff_right h]
    exact ⟨fun hiff heq => h (hiff.mpr heq).1, fun hne => iff_of_false (fun heq => h heq.1) hne⟩

end Comparisons

/-! ## All operators -/

section Operators

variable (a b : VPrimitive) {z : Int}

theorem arithmetic_iff (op : U64 → U64 → U64) :
    binaryArith (fun u v => some (op u v)) (.primitive a) (.primitive b) = some (number (a.common b) z) ↔
      (op (BitVec.ofInt 64 (a.left b)) (BitVec.ofInt 64 (a.right b))).setWidth (a.common b).bitness =
        BitVec.ofInt (a.common b).bitness z := by
  rw [binaryArith_primitive, Option.map_some, Option.some_inj, number_iff]

/-- Bitwise operators look at the low bits alone. -/
theorem bitwise_right (op : ∀ w, BitVec w → BitVec w → BitVec w)
    (hop : ∀ w, ∀ u v : U64, (op 64 u v).setWidth w = op w (u.setWidth w) (v.setWidth w)) :
    binaryArith (fun u v => some (op 64 u v)) (.primitive a) (.primitive b) =
      some (bitwise (a.common b) op (a.left b) (a.right b)) := by
  have hle := (a.common b).bitness_le
  rw [binaryArith_primitive, Option.map_some, Option.some_inj, bitwise, Value.primitive.injEq,
    VPrimitive.fromBits_inj, hop, setWidth_ofInt hle, setWidth_ofInt hle, BitVec.setWidth_setWidth_of_le _ hle,
    BitVec.setWidth_eq]

/-- A division is defined unless it is one by zero. -/
theorem divided_iff (op : U64 → U64 → U64) {kept : Prop}
    (hkept : a.right b ≠ 0 →
      ((op (BitVec.ofInt 64 (a.left b)) (BitVec.ofInt 64 (a.right b))).setWidth (a.common b).bitness =
        BitVec.ofInt (a.common b).bitness z ↔ kept)) :
    binaryArith (fun u v => if v = 0 then none else some (op u v)) (.primitive a) (.primitive b) =
        some (if a.right b = 0 then .never else number (a.common b) z) ↔ a.right b ≠ 0 ∧ kept := by
  have hpattern : BitVec.ofInt 64 (a.right b) = 0 ↔ a.right b = 0 :=
    Primitives.ofInt_reduce_eq_zero (a.common b) b.value
  rw [binaryArith_primitive]
  by_cases hzero : a.right b = 0
  · rw [if_pos (hpattern.mpr hzero), Option.map_none]
    exact iff_of_false (Option.some_ne_none _).symm fun h => h.1 hzero
  · rw [if_neg (mt hpattern.mp hzero), if_neg hzero, Option.map_some, Option.some_inj, number_iff, hkept hzero]
    exact (and_iff_right hzero).symm

/-- A shift is one by the number itself, as long as that is a count. -/
theorem shifted_iff (shift : U64 → Nat → U64) {kept : Prop}
    (hkept : 0 ≤ a.right b ∧ a.right b < 64 →
      ((shift (BitVec.ofInt 64 (a.left b)) (a.right b).toNat).setWidth (a.common b).bitness =
        BitVec.ofInt (a.common b).bitness z ↔ kept)) :
    binaryArith (fun u v => if v.toNat < 64 then some (shift u v.toNat) else none) (.primitive a) (.primitive b) =
        some (number (a.common b) z) ↔ (0 ≤ a.right b ∧ a.right b < 64) ∧ kept := by
  have hpattern : (BitVec.ofInt 64 (a.right b)).toNat < 64 ↔ 0 ≤ a.right b ∧ a.right b < 64 :=
    Primitives.toNat_lt_iff (a.common b) b.value
  rw [binaryArith_primitive]
  by_cases hcount : 0 ≤ a.right b ∧ a.right b < 64
  · have hnat : (BitVec.ofInt 64 (a.right b)).toNat = (a.right b).toNat :=
      Primitives.toNat_of_nonneg (a.common b) b.value hcount.1
    rw [if_pos (hpattern.mpr hcount), hnat, Option.map_some, Option.some_inj, number_iff, hkept hcount]
    exact (and_iff_right hcount).symm
  · rw [if_neg (mt hpattern.mp hcount), Option.map_none]
    exact iff_of_false (Option.some_ne_none _).symm fun h => hcount h.1

/-- The operators that are right for all operands, and when the others are. -/
theorem right_iff (op : Operators) : op.Right a b ↔ op.Kept a b := by
  have hle := (a.common b).bitness_le
  cases op with
  | MULTIPLY => exact iff_of_true ((arithmetic_iff a b (· * ·)).mpr (setWidth_mul hle _ _)) trivial
  | ADD => exact iff_of_true ((arithmetic_iff a b (· + ·)).mpr (setWidth_add hle _ _)) trivial
  | SUBTRACT => exact iff_of_true ((arithmetic_iff a b (· - ·)).mpr (setWidth_sub hle _ _)) trivial
  | BIT_AND => exact iff_of_true (bitwise_right a b (fun _ => (· &&& ·)) fun _ _ _ => BitVec.setWidth_and) trivial
  | BIT_OR => exact iff_of_true (bitwise_right a b (fun _ => (· ||| ·)) fun _ _ _ => BitVec.setWidth_or) trivial
  | BIT_XOR => exact iff_of_true (bitwise_right a b (fun _ => (· ^^^ ·)) fun _ _ _ => BitVec.setWidth_xor) trivial
  | DIVIDE => exact divided_iff a b (· / ·) (Primitives.div_iff (a.common b) a.value b.value)
  | MODULO => exact divided_iff a b (· % ·) (Primitives.mod_iff (a.common b) a.value b.value)
  | SHIFT_LEFT =>
    refine (shifted_iff a b (· <<< ·) fun hcount => iff_of_true ?_ trivial).trans (and_iff_left trivial)
    rw [scale, if_pos hcount.1]
    exact setWidth_shiftLeft hle _ _
  | SHIFT_RIGHT =>
    refine shifted_iff a b (· >>> ·) fun hcount => ?_
    have hlt : (a.right b).toNat < 64 := by omega
    have hscale : scale (a.left b) (-a.right b) = a.left b / 2 ^ (a.right b).toNat := by
      rw [scale, neg_neg]
      split
      · next hneg =>
        have hzero : a.right b = 0 := by omega
        rw [hzero]
        simp
      · rfl
    rw [hscale]
    exact Primitives.shiftRight_iff (a.common b) a.value hlt
  | EQUAL =>
    rw [Operators.Right, Operators.Kept, ← equal_iff]
    change some (verdict (a.compare b == .eq)) = some (verdict _) ↔ _
    rw [Option.some_inj, verdict_inj, Bool.eq_iff_iff, decide_eq_true_iff, beq_iff_eq]
  | NOT_EQUAL =>
    rw [Operators.Right, Operators.Kept, ← equal_iff]
    change some (verdict (a.compare b != .eq)) = some (verdict _) ↔ _
    rw [Option.some_inj, verdict_inj, Bool.eq_iff_iff, decide_eq_true_iff, bne_iff_ne, not_iff_not]
  | LESS =>
    refine Option.some_inj.trans (order_iff (· == .lt) (by decide) ?_ ?_)
    · intro i j hne
      rw [beq_iff_eq, compare_lt_iff_lt]
    · rw [beq_iff_eq, compare_lt_iff_lt]
  | LESS_OR_EQUAL =>
    refine Option.some_inj.trans (order_iff (· != .gt) (by decide) ?_ ?_)
    · intro i j hne
      rw [bne_iff_ne, compare_le_iff_le]
      exact ⟨fun h => lt_of_le_of_ne h hne, le_of_lt⟩
    · rw [bne_iff_ne, compare_le_iff_le]
  | GREATER =>
    refine Option.some_inj.trans (order_iff (· == .gt) (by decide) ?_ ?_)
    · intro i j hne
      rw [beq_iff_eq, compare_gt_iff_gt]
    · rw [beq_iff_eq, compare_gt_iff_gt]
  | GREATER_OR_EQUAL =>
    refine Option.some_inj.trans (order_iff (· != .lt) (by decide) ?_ ?_)
    · intro i j hne
      rw [bne_iff_ne, compare_ge_iff_ge]
      exact ⟨fun h => lt_of_le_of_ne h hne.symm, le_of_lt⟩
    · rw [bne_iff_ne, compare_ge_iff_ge]

end Operators

/-! ## Reading memory -/

/-- The number whose halves are in memory, the first one at the lower address. -/
def word (order : Endian.Order) (first second : U16) : U32 :=
  match order with
  | .little => second ++ first
  | .big => first ++ second

/-- The bytes of a primitive at an address. -/
def Environment.read (env : Environment) (order : Endian.Order) (p : Primitives) (address : U64) : U64 :=
  match p with
  | .i8 | .u8 => (env.readMemU8 (address.setWidth 32)).setWidth 64
  | .i16 | .u16 => (env.readMemU16 (address.setWidth 32)).setWidth 64
  | .i32 | .u32 =>
    (word order (env.readMemU16 (address.setWidth 32)) (env.readMemU16 ((address + 2).setWidth 32))).setWidth 64

theorem halves_append (x y : U16) :
    (x.setWidth 32 <<< 16).setWidth 64 ||| y.setWidth 64 = ((x ++ y : U32).setWidth 64 : U64) := by
  refine BitVec.eq_of_getElem_eq fun i hi => ?_
  rw [BitVec.getElem_or, BitVec.getElem_setWidth, BitVec.getElem_setWidth, BitVec.getElem_setWidth,
    BitVec.getLsbD_shiftLeft, BitVec.getLsbD_setWidth, BitVec.getLsbD_append]
  by_cases hlow : i < 16
  · simp [hlow]
  · by_cases hhigh : i < 32
    · simp [hlow, hhigh, y.getLsbD_of_ge i (by omega), show i - 16 < 32 by omega]
    · simp [hlow, y.getLsbD_of_ge i (by omega), x.getLsbD_of_ge (i - 16) (by omega)]

/-- A number of which both halves are the second one. -/
theorem word_eq_iff (order : Endian.Order) (first second : U16) :
    (second ++ second : U32) = word order first second ↔ first = second := by
  rw [← BitVec.toNat_inj, ← BitVec.toNat_inj]
  have hlt := first.isLt
  have hlt' := second.isLt
  cases order with
  | little =>
    rw [word, BitVec.toNat_append, BitVec.toNat_append, ← Nat.shiftLeft_add_eq_or_of_lt hlt,
      ← Nat.shiftLeft_add_eq_or_of_lt hlt', Nat.shiftLeft_eq]
    omega
  | big =>
    rw [word, BitVec.toNat_append, BitVec.toNat_append, ← Nat.shiftLeft_add_eq_or_of_lt hlt',
      ← Nat.shiftLeft_add_eq_or_of_lt hlt', Nat.shiftLeft_eq, Nat.shiftLeft_eq]
    omega

section Memory

variable {Name : Type} [LinearOrder Name]

/-- The pointer with these bits yields the bytes that it points to, if they are those of a primitive. -/
def Dereferences (order : Endian.Order) (env : Environment) (info : TypeInfo Name) (hnd : DirectHandle) (bits : U64) :
    Prop :=
  ∀ n p, info.typeFrom hnd = .pointer n (.primitive p) →
    memoryRead env info (.pointer hnd bits) = some (.primitive (.fromBits p (env.read order p bits)))

/-- Where a number of four bytes is read, its halves are the same. -/
def HalvesAgree (env : Environment) (info : TypeInfo Name) (hnd : DirectHandle) (bits : U64) : Prop :=
  ∀ n p, info.typeFrom hnd = .pointer n (.primitive p) → p.bitness = 32 →
    env.readMemU16 (bits.setWidth 32) = env.readMemU16 ((bits + 2).setWidth 32)

omit [LinearOrder Name] in
theorem primitive_bytes (p : Primitives) :
    ((BoxedType.primitive p : BoxedType Name).bitness / 8).toNat = p.bitness / 8 := by
  rw [BoxedType.bitness]
  cases p <;> decide

/-- Both halves of a number of four bytes are read where the second one is. -/
theorem memoryRead_pointer (env : Environment) {info : TypeInfo Name} {hnd : DirectHandle} (bits : U64) {n : U8}
    {p : Primitives} (h : info.typeFrom hnd = .pointer n (.primitive p)) :
    memoryRead env info (.pointer hnd bits) =
      some (.primitive (.fromBits p (if p.bitness = 32 then
        (env.readMemU16 ((bits + 2).setWidth 32) ++ env.readMemU16 ((bits + 2).setWidth 32) : U32).setWidth 64
        else env.read .little p bits))) := by
  have htype : op1DereferenceTypeof info (.pointer hnd bits) = .primitive p := by
    rw [op1DereferenceTypeof, op1Typeof, h]
  rw [memoryRead, htype, primitive_bytes, ← halves_append]
  cases p <;> rfl

theorem dereferences_iff (order : Endian.Order) (env : Environment) (info : TypeInfo Name) (hnd : DirectHandle)
    (bits : U64) : Dereferences order env info hnd bits ↔ HalvesAgree env info hnd bits := by
  refine forall_congr' fun n => forall_congr' fun p => forall_congr' fun h => ?_
  rw [memoryRead_pointer env bits h, Option.some_inj, Value.primitive.injEq]
  by_cases hbits : p.bitness = 32
  · have hread : env.read order p bits =
        (word order (env.readMemU16 (bits.setWidth 32)) (env.readMemU16 ((bits + 2).setWidth 32))).setWidth 64 := by
      cases p <;> first | rfl | exact absurd hbits (by decide)
    rw [if_pos hbits, hread, VPrimitive.fromBits_inj, hbits, BitVec.setWidth_setWidth_of_le _ (by decide),
      BitVec.setWidth_setWidth_of_le _ (by decide), BitVec.setWidth_eq, BitVec.setWidth_eq, forall_prop_of_true rfl,
      word_eq_iff]
  · rw [if_neg hbits]
    refine iff_of_true ?_ fun h => absurd h hbits
    cases p <;> first | rfl | exact absurd rfl hbits

/-- Operators have the values that they mean under their conditions on the operands, and pointers yield the bytes that
they point to when what is read of four bytes has equal halves. -/
theorem watchValues_iff (op : Operators) (a b : VPrimitive) (order : Endian.Order) (env : Environment)
    (info : TypeInfo Name) (hnd : DirectHandle) (bits : U64) :
    (op.Right a b ↔ op.Kept a b) ∧ (Dereferences order env info hnd bits ↔ HalvesAgree env info hnd bits) :=
  ⟨right_iff a b op, dereferences_iff order env info hnd bits⟩

end Memory

/-- Minus seven by two is minus three, and the quotient of the patterns is minus four. -/
theorem minusSeven_not_right :
    ¬Operators.DIVIDE.Right (.ofInt .i8 (-7)) (.ofInt .i8 2) ∧
      op2Div (number .i8 (-7)) (number .i8 2) = some (number .i8 (-4)) := by
  constructor
  · intro h
    have hbits := congrArg (Option.map Value.bits) h
    exact absurd hbits (by decide)
  · rfl

end Pepp.Debug
