import Mathlib.Data.BitVec
import Mathlib.Data.Prod.Lex
import Mathlib.Order.WithBot

/-!
# Closed intervals of an address type

`Interval<T>` for an unsigned type of any width. Both endpoints belong to the
interval; one whose lower endpoint exceeds its upper one is empty. Empty
intervals are equivalent and sort in front of the others, which sort by their
lower and then by their upper endpoint.
-/

namespace Pepp.Trace

structure Interval (w : Nat) where
  lower : BitVec w
  upper : BitVec w
  deriving DecidableEq, Repr

namespace Interval

variable {w : Nat}

def valid (self : Interval w) : Prop := self.lower ≤ self.upper

instance (self : Interval w) : Decidable self.valid := inferInstanceAs (Decidable (_ ≤ _))

/-- `operator<=>` compares intervals as these keys compare. -/
def key (self : Interval w) : WithBot (Nat ×ₗ Nat) :=
  if self.valid then ↑(toLex (self.lower.toNat, self.upper.toNat)) else ⊥

/-- `size<T, exclude_right>`, in a wider type where it does not overflow. -/
def size (excludeRight : Bool) (self : Interval w) : Nat :=
  if self.valid then self.upper.toNat - self.lower.toNat + (if excludeRight then 0 else 1) else 0

/-- `contains` for a point. -/
def has (outer : Interval w) (inner : BitVec w) : Prop :=
  outer.valid ∧ outer.lower ≤ inner ∧ inner ≤ outer.upper

instance (outer : Interval w) (inner : BitVec w) : Decidable (outer.has inner) := inferInstanceAs (Decidable (_ ∧ _))

def contains (outer inner : Interval w) : Prop :=
  outer.valid ∧ inner.valid ∧ outer.lower ≤ inner.lower ∧ inner.upper ≤ outer.upper

instance (outer inner : Interval w) : Decidable (outer.contains inner) := inferInstanceAs (Decidable (_ ∧ _))

/-- The intervals share a point, be it only an endpoint. -/
def intersects (lhs rhs : Interval w) : Prop :=
  lhs.valid ∧ rhs.valid ∧ lhs.lower ≤ rhs.upper ∧ rhs.lower ≤ lhs.upper

instance (lhs rhs : Interval w) : Decidable (lhs.intersects rhs) := inferInstanceAs (Decidable (_ ∧ _))

variable {a b : Interval w} {v : BitVec w}

/-- The endpoints as numbers. -/
def low (self : Interval w) : Nat := self.lower.toNat

def high (self : Interval w) : Nat := self.upper.toNat

@[simp] theorem low_mk (l u : BitVec w) : low ⟨l, u⟩ = l.toNat := rfl

@[simp] theorem high_mk (l u : BitVec w) : high ⟨l, u⟩ = u.toNat := rfl

theorem low_lt (a : Interval w) : a.low < 2 ^ w := a.lower.isLt

theorem high_lt (a : Interval w) : a.high < 2 ^ w := a.upper.isLt

theorem valid_iff : a.valid ↔ a.low ≤ a.high := BitVec.le_def

theorem has_iff : a.has v ↔ a.low ≤ v.toNat ∧ v.toNat ≤ a.high := by
  rw [has, valid_iff, BitVec.le_def, BitVec.le_def, low, high]
  omega

theorem contains_iff (ha : a.valid) (hb : b.valid) : a.contains b ↔ a.low ≤ b.low ∧ b.high ≤ a.high := by
  rw [contains, and_iff_right ha, and_iff_right hb, BitVec.le_def, BitVec.le_def]
  rfl

theorem intersects_iff (ha : a.valid) (hb : b.valid) : a.intersects b ↔ a.low ≤ b.high ∧ b.low ≤ a.high := by
  rw [intersects, and_iff_right ha, and_iff_right hb, BitVec.le_def, BitVec.le_def]
  rfl

theorem intersects_comm : a.intersects b ↔ b.intersects a := by
  rw [intersects, intersects]
  tauto

theorem key_lt (ha : a.valid) (hb : b.valid) : a.key < b.key ↔ a.low < b.low ∨ a.low = b.low ∧ a.high < b.high := by
  rw [key, key, if_pos ha, if_pos hb, WithBot.coe_lt_coe, Prod.Lex.toLex_lt_toLex]
  rfl

theorem ext_toNat (hlow : a.low = b.low) (hhigh : a.high = b.high) : a = b := by
  obtain ⟨l, u⟩ := a
  obtain ⟨l', u'⟩ := b
  obtain rfl : l = l' := BitVec.eq_of_toNat_eq hlow
  obtain rfl : u = u' := BitVec.eq_of_toNat_eq hhigh
  rfl

end Interval

end Pepp.Trace
