import Mathlib.Order.Lattice
import Mathlib.Data.List.Pairwise

/-!
# Separated lists of closed intervals

Closed intervals of natural numbers that are listed in order, with a number
between any two of them that neither has. Such a list is determined by the
numbers it covers.
-/

namespace IntervalLists

variable {α : Type} (lower upper : α → Nat)

def Covers (s : List α) (n : Nat) : Prop := ∃ a ∈ s, lower a ≤ n ∧ n ≤ upper a

structure Separated (s : List α) : Prop where
  valid : ∀ a ∈ s, lower a ≤ upper a
  gaps : s.Pairwise fun a b => upper a + 1 < lower b

variable {lower upper} {s t : List α} {a b : α} {n : Nat}

theorem covers_nil : ¬Covers lower upper [] n := by
  rintro ⟨a, ha, -⟩
  exact List.not_mem_nil ha

theorem covers_cons : Covers lower upper (a :: s) n ↔ (lower a ≤ n ∧ n ≤ upper a) ∨ Covers lower upper s n := by
  simp [Covers]

theorem covers_append : Covers lower upper (s ++ t) n ↔ Covers lower upper s n ∨ Covers lower upper t n := by
  simp [Covers, or_and_right, exists_or]

theorem Separated.tail (h : Separated lower upper (a :: s)) : Separated lower upper s where
  valid b hb := h.valid b (List.mem_cons_of_mem a hb)
  gaps := h.gaps.of_cons

theorem Separated.append (hs : Separated lower upper s) (ht : Separated lower upper t)
    (h : ∀ a ∈ s, ∀ b ∈ t, upper a + 1 < lower b) : Separated lower upper (s ++ t) where
  valid := List.forall_mem_append.mpr ⟨hs.valid, ht.valid⟩
  gaps := List.pairwise_append.mpr ⟨hs.gaps, ht.gaps, h⟩

theorem Separated.left (h : Separated lower upper (s ++ t)) : Separated lower upper s where
  valid := (List.forall_mem_append.mp h.valid).1
  gaps := (List.pairwise_append.mp h.gaps).1

theorem Separated.right (h : Separated lower upper (s ++ t)) : Separated lower upper t where
  valid := (List.forall_mem_append.mp h.valid).2
  gaps := (List.pairwise_append.mp h.gaps).2.1

/-- What is covered by a tail lies past the number after the head. -/
theorem Separated.gap (h : Separated lower upper (a :: s)) (hn : Covers lower upper s n) : upper a + 1 < n := by
  obtain ⟨b, hb, hle, -⟩ := hn
  exact (List.rel_of_pairwise_cons h.gaps hb).trans_le hle

/-- The head is the interval with the lowest number. -/
theorem Separated.lower_le (h : Separated lower upper (a :: s)) (hn : Covers lower upper (a :: s) n) : lower a ≤ n := by
  rcases covers_cons.mp hn with hn | hn
  · exact hn.1
  · have hvalid := h.valid a List.mem_cons_self
    have hgap := h.gap hn
    omega

/-- The head ends where the numbers end that are covered from its start on. -/
theorem Separated.upper_le (ha : Separated lower upper (a :: s)) (hlower : lower a = lower b)
    (h : ∀ n, Covers lower upper (b :: t) n → Covers lower upper (a :: s) n) : upper b ≤ upper a := by
  by_contra hlt
  have hvalid := ha.valid a List.mem_cons_self
  rcases covers_cons.mp (h (upper a + 1) (covers_cons.mpr (.inl (by omega)))) with hn | hn
  · omega
  · have hgap := ha.gap hn
    omega

/-- Separated lists that cover the same numbers are the same. -/
theorem Separated.unique (hinj : ∀ a b : α, lower a = lower b → upper a = upper b → a = b)
    (hs : Separated lower upper s) (ht : Separated lower upper t)
    (h : ∀ n, Covers lower upper s n ↔ Covers lower upper t n) : s = t := by
  induction s generalizing t with
  | nil =>
    cases t with
    | nil => rfl
    | cons b t =>
      have hb := ht.valid b List.mem_cons_self
      exact absurd ((h (lower b)).mpr (covers_cons.mpr (.inl ⟨Nat.le_refl _, hb⟩))) covers_nil
  | cons a s ih =>
    have ha := hs.valid a List.mem_cons_self
    cases t with
    | nil => exact absurd ((h (lower a)).mp (covers_cons.mpr (.inl ⟨Nat.le_refl _, ha⟩))) covers_nil
    | cons b t =>
      have hb := ht.valid b List.mem_cons_self
      have hlower : lower a = lower b := Nat.le_antisymm
        (hs.lower_le ((h _).mpr (covers_cons.mpr (.inl ⟨Nat.le_refl _, hb⟩))))
        (ht.lower_le ((h _).mp (covers_cons.mpr (.inl ⟨Nat.le_refl _, ha⟩))))
      have hupper : upper a = upper b := Nat.le_antisymm (ht.upper_le hlower.symm fun n => (h n).mp)
        (hs.upper_le hlower fun n => (h n).mpr)
      obtain rfl := hinj a b hlower hupper
      have htail : ∀ n, Covers lower upper s n ↔ Covers lower upper t n := by
        intro n
        constructor
        · intro hn
          have hgap := hs.gap hn
          rcases covers_cons.mp ((h n).mp (covers_cons.mpr (.inr hn))) with hm | hm
          · omega
          · exact hm
        · intro hn
          have hgap := ht.gap hn
          rcases covers_cons.mp ((h n).mpr (covers_cons.mpr (.inr hn))) with hm | hm
          · omega
          · exact hm
      rw [ih hs.tail ht.tail htail]

end IntervalLists
