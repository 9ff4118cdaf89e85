import Mathlib.Data.List.Basic

/-!
# Contiguous spans of an indexed store

A store is a total function of the index. `slice` reads a span of it and
`overwrite` replaces one; the lemmas say which cells a span operation can see
and which it leaves alone.
-/

namespace Span

variable {α : Type}

/-- The `len` cells of `f` from `base` on. -/
def slice (f : Nat → α) (base len : Nat) : List α := (List.range len).map fun i => f (base + i)

/-- Replace the cells from `base` on by the elements of `src`. -/
def overwrite (f : Nat → α) (base : Nat) (src : List α) : Nat → α := fun i =>
  if base ≤ i then (src[i - base]?).getD (f i) else f i

variable (f : Nat → α)

@[simp] theorem length_slice (base len : Nat) : (slice f base len).length = len := by
  simp [slice]

variable (base : Nat)

@[simp] theorem slice_zero : slice f base 0 = [] := rfl

@[simp] theorem getElem_slice (base len i : Nat) (h : i < (slice f base len).length) :
    (slice f base len)[i] = f (base + i) := by
  simp [slice]

theorem slice_succ (base len : Nat) : slice f base (len + 1) = f base :: slice f (base + 1) len := by
  apply List.ext_getElem
  · simp
  · intro i h₁ h₂
    cases i with
    | zero => simp
    | succ i => simp [Nat.add_left_comm, Nat.add_comm]

theorem slice_one : slice f base 1 = [f base] := by
  simp [slice_succ]

theorem slice_two : slice f base 2 = [f base, f (base + 1)] := by
  simp [slice_succ]

theorem slice_add (base m n : Nat) : slice f base (m + n) = slice f base m ++ slice f (base + m) n := by
  induction m generalizing base with
  | zero => simp
  | succ m ih =>
    rw [show m + 1 + n = (m + n) + 1 by omega, slice_succ, slice_succ, ih,
      show base + 1 + m = base + (m + 1) by omega, List.cons_append]

theorem slice_take {len k : Nat} (h : k ≤ len) : (slice f base len).take k = slice f base k := by
  rw [← Nat.add_sub_of_le h, slice_add]
  exact List.take_left' (length_slice f base k)

theorem slice_drop {len k : Nat} (h : k ≤ len) : (slice f base len).drop k = slice f (base + k) (len - k) := by
  obtain ⟨n, rfl⟩ := Nat.exists_eq_add_of_le h
  rw [slice_add, Nat.add_sub_cancel_left]
  exact List.drop_left' (length_slice f base k)

theorem slice_congr {f g : Nat → α} {base len : Nat} (h : ∀ i, base ≤ i → i < base + len → f i = g i) :
    slice f base len = slice g base len := by
  apply List.ext_getElem
  · simp
  · intro i h₁ h₂
    simp only [length_slice] at h₁
    simpa using h (base + i) (by omega) (by omega)

theorem overwrite_of_lt (base i : Nat) (src : List α) (h : i < base) : overwrite f base src i = f i := by
  simp [overwrite, show ¬ base ≤ i by omega]

theorem overwrite_of_le (base i : Nat) (src : List α) (h : base + src.length ≤ i) : overwrite f base src i = f i := by
  simp [overwrite, show base ≤ i by omega, List.getElem?_eq_none (show src.length ≤ i - base by omega)]

theorem overwrite_inside (base i : Nat) (src : List α) (h : i < src.length) :
    overwrite f base src (base + i) = src[i] := by
  simp [overwrite, h]

@[simp] theorem overwrite_nil : overwrite f base [] = f := by
  funext i
  simp [overwrite]

/-- Writing a span is writing its first cell and then the rest. -/
theorem overwrite_cons (x : α) (src : List α) :
    overwrite f base (x :: src) = overwrite (overwrite f base [x]) (base + 1) src := by
  funext i
  rcases Nat.lt_trichotomy i base with h | rfl | h
  · rw [overwrite_of_lt _ _ _ _ h, overwrite_of_lt _ _ _ _ (by omega), overwrite_of_lt _ _ _ _ h]
  · rw [overwrite_of_lt _ (i + 1) _ _ (by omega)]
    simp [overwrite]
  · have hi : ∃ k, i = base + 1 + k := ⟨i - (base + 1), by omega⟩
    obtain ⟨k, rfl⟩ := hi
    by_cases hk : k < src.length
    · rw [overwrite_inside _ _ _ _ hk, show base + 1 + k = base + (k + 1) by omega,
        overwrite_inside _ _ (k + 1) _ (by simpa using hk), List.getElem_cons_succ]
    · rw [overwrite_of_le _ _ _ _ (by rw [List.length_cons]; omega), overwrite_of_le _ _ _ _ (by omega),
        overwrite_of_le _ _ _ _ (by rw [List.length_singleton]; omega)]

theorem overwrite_singleton (x : α) : overwrite f base [x] = Function.update f base x := by
  funext i
  rcases Nat.lt_trichotomy i base with h | rfl | h
  · rw [overwrite_of_lt _ _ _ _ h, Function.update_of_ne (by omega)]
  · simp [overwrite]
  · rw [overwrite_of_le _ _ _ _ (by rw [List.length_singleton]; omega), Function.update_of_ne (by omega)]

/-- Two spans side by side are written as one. -/
theorem overwrite_append (xs ys : List α) :
    overwrite f base (xs ++ ys) = overwrite (overwrite f (base + xs.length) ys) base xs := by
  funext i
  by_cases hlt : i < base
  · rw [overwrite_of_lt _ _ _ _ hlt, overwrite_of_lt _ _ _ _ hlt, overwrite_of_lt _ _ _ _ (by omega)]
  obtain ⟨k, rfl⟩ : ∃ k, i = base + k := ⟨i - base, by omega⟩
  by_cases hx : k < xs.length
  · rw [overwrite_inside _ _ _ _ (by rw [List.length_append]; omega), overwrite_inside _ _ _ _ hx,
      List.getElem_append_left hx]
  · rw [overwrite_of_le _ _ _ xs (by omega)]
    by_cases hy : k < (xs ++ ys).length
    · rw [overwrite_inside _ _ _ _ hy, List.getElem_append_right (by omega),
        show base + k = base + xs.length + (k - xs.length) by omega, overwrite_inside]
    · rw [overwrite_of_le _ _ _ _ (by omega), overwrite_of_le _ _ _ _ (by rw [List.length_append] at hy; omega)]

/-- Spans that do not overlap can be written in either order. -/
theorem overwrite_comm {a b : Nat} {xs ys : List α} (h : a + xs.length ≤ b) :
    overwrite (overwrite f a xs) b ys = overwrite (overwrite f b ys) a xs := by
  funext i
  by_cases hi : i < b
  · rw [overwrite_of_lt _ _ _ _ hi]
    simp only [overwrite, if_neg (show ¬ b ≤ i by omega)]
  · rw [overwrite_of_le _ a _ _ (by omega)]
    simp only [overwrite, List.getElem?_eq_none (show xs.length ≤ i - a by omega), Option.getD_none, ite_self]

/-- A span written behind another one makes it longer. -/
theorem overwrite_next (xs ys : List α) :
    overwrite (overwrite f base xs) (base + xs.length) ys = overwrite f base (xs ++ ys) := by
  rw [overwrite_comm _ (Nat.le_refl _), overwrite_append]

/-- What is written over a span of its length is all that is left. -/
theorem overwrite_again {xs ys : List α} (h : xs.length = ys.length) :
    overwrite (overwrite f base xs) base ys = overwrite f base ys := by
  funext i
  by_cases hlt : i < base
  · rw [overwrite_of_lt _ _ _ _ hlt, overwrite_of_lt _ _ _ _ hlt, overwrite_of_lt _ _ _ _ hlt]
  obtain ⟨k, rfl⟩ : ∃ k, i = base + k := ⟨i - base, by omega⟩
  by_cases hk : k < ys.length
  · rw [overwrite_inside _ _ _ _ hk, overwrite_inside _ _ _ _ hk]
  · rw [overwrite_of_le _ _ _ _ (by omega), overwrite_of_le _ _ _ _ (by omega), overwrite_of_le _ _ _ _ (by omega)]

@[simp] theorem slice_overwrite (src : List α) : slice (overwrite f base src) base src.length = src := by
  apply List.ext_getElem
  · simp
  · intro i h₁ h₂
    simp [overwrite_inside f base i src h₂]

/-- A part of a span just written. -/
theorem slice_overwrite_part (src : List α) {k len : Nat} (h : k + len ≤ src.length) :
    slice (overwrite f base src) (base + k) len = (src.drop k).take len := by
  apply List.ext_getElem
  · simp
    omega
  · intro i h₁ h₂
    rw [length_slice] at h₁
    simp [Nat.add_assoc, overwrite_inside f base (k + i) src (by omega)]

theorem slice_overwrite_disjoint (base len from_ : Nat) (src : List α)
    (h : base + len ≤ from_ ∨ from_ + src.length ≤ base) :
    slice (overwrite f from_ src) base len = slice f base len := by
  apply slice_congr
  intro i h₁ h₂
  rcases h with h | h
  · exact overwrite_of_lt f from_ i src (by omega)
  · exact overwrite_of_le f from_ i src (by omega)

/-- A span written at the end of what is there is appended to it. -/
theorem slice_overwrite_end (src : List α) :
    slice (overwrite f base src) 0 (base + src.length) = slice f 0 base ++ src := by
  rw [slice_add, slice_overwrite_disjoint _ _ _ _ _ (.inl (Nat.le_of_eq (Nat.zero_add base))), Nat.zero_add,
    slice_overwrite]

end Span
