import Mathlib.Order.Compare
import Mathlib.Order.Lattice

/-!
# Comparisons by several parts

A comparison that first looks at a tag and then at one part after another is
that of a linear order. The condition is one on the outcomes for three values,
so that it can be shown for the parts of recursive data.
-/

namespace Orderings

variable {α τ : Type}

/-- What the comparisons of three values with one another have to do with each other. -/
structure Coherent (ab bc ac : Ordering) : Prop where
  left : ab = .eq → ac = bc
  right : bc = .eq → ac = ab
  lt : ab = .lt → bc = .lt → ac = .lt
  gt : ab = .gt → bc = .gt → ac = .gt

/-- Comparisons that find the same elements smaller and greater are the same. -/
theorem compare_congr {β : Type} [LinearOrder α] [LinearOrder β] {a b : α} {x y : β} (hlt : a < b ↔ x < y)
    (hgt : b < a ↔ y < x) : compare a b = compare x y := by
  obtain h | rfl | h := lt_trichotomy x y
  · rw [compare_lt_iff_lt.mpr h, compare_lt_iff_lt.mpr (hlt.mpr h)]
  · have heq : a = b :=
      le_antisymm (not_lt.mp fun h => lt_irrefl x (hgt.mp h)) (not_lt.mp fun h => lt_irrefl x (hlt.mp h))
    rw [heq, compare_eq_iff_eq.mpr rfl, compare_eq_iff_eq.mpr rfl]
  · rw [compare_gt_iff_gt.mpr h, compare_gt_iff_gt.mpr (hgt.mpr h)]

theorem coherent_compare [LinearOrder α] (a b c : α) : Coherent (compare a b) (compare b c) (compare a c) := by
  constructor
  · intro h
    rw [compare_eq_iff_eq.mp h]
  · intro h
    rw [compare_eq_iff_eq.mp h]
  · intro hab hbc
    rw [compare_lt_iff_lt] at *
    exact hab.trans hbc
  · intro hab hbc
    rw [compare_gt_iff_gt] at *
    exact hbc.trans hab

variable {ab bc ac ab' bc' ac' ba ba' : Ordering}

/-- A second part counts where the first ones are the same. -/
theorem Coherent.then (h : Coherent ab bc ac) (h' : ab = .eq → bc = .eq → Coherent ab' bc' ac') :
    Coherent (ab.then ab') (bc.then bc') (ac.then ac') := by
  cases ab with
  | eq =>
    obtain rfl := h.left rfl
    cases ac with
    | eq => exact h' rfl rfl
    | lt => exact ⟨fun _ => rfl, nofun, fun _ _ => rfl, fun _ h => h⟩
    | gt => exact ⟨fun _ => rfl, nofun, fun _ h => h, fun _ _ => rfl⟩
  | lt =>
    cases bc with
    | eq =>
      obtain rfl := h.right rfl
      exact ⟨nofun, fun _ => rfl, fun _ _ => rfl, nofun⟩
    | lt =>
      obtain rfl := h.lt rfl rfl
      exact ⟨nofun, nofun, fun _ _ => rfl, nofun⟩
    | gt => exact ⟨nofun, nofun, nofun, nofun⟩
  | gt =>
    cases bc with
    | eq =>
      obtain rfl := h.right rfl
      exact ⟨nofun, fun _ => rfl, nofun, fun _ _ => rfl⟩
    | lt => exact ⟨nofun, nofun, nofun, nofun⟩
    | gt =>
      obtain rfl := h.gt rfl rfl
      exact ⟨nofun, nofun, nofun, fun _ _ => rfl⟩

/-- Values of different tags are compared by these. -/
theorem coherent_of_tags [LinearOrder τ] {i j k : τ} (hab : i ≠ j → ab = compare i j) (hbc : j ≠ k → bc = compare j k)
    (hac : i ≠ k → ac = compare i k) (h : i = j → j = k → Coherent ab bc ac) : Coherent ab bc ac := by
  by_cases hij : i = j
  · by_cases hjk : j = k
    · exact h hij hjk
    · subst hij
      obtain rfl : ac = bc := (hac hjk).trans (hbc hjk).symm
      have hne : ac ≠ .eq := fun heq => hjk (compare_eq_iff_eq.mp ((hac hjk).symm.trans heq))
      exact ⟨fun _ => rfl, fun heq => absurd heq hne, fun _ h => h, fun _ h => h⟩
  · by_cases hjk : j = k
    · subst hjk
      obtain rfl : ac = ab := (hac hij).trans (hab hij).symm
      have hne : ac ≠ .eq := fun heq => hij (compare_eq_iff_eq.mp ((hac hij).symm.trans heq))
      exact ⟨fun heq => absurd heq hne, fun _ => rfl, fun h _ => h, fun h _ => h⟩
    · have hcoherent := coherent_compare i j k
      rw [← hab hij, ← hbc hjk] at hcoherent
      by_cases hik : i = k
      · subst hik
        have hcompare : compare i i = Ordering.eq := compare_eq_iff_eq.mpr rfl
        have hneab : ab ≠ .eq := fun heq => hij (compare_eq_iff_eq.mp ((hab hij).symm.trans heq))
        have hnebc : bc ≠ .eq := fun heq => hjk (compare_eq_iff_eq.mp ((hbc hjk).symm.trans heq))
        rw [hcompare] at hcoherent
        exact ⟨fun heq => absurd heq hneab, fun heq => absurd heq hnebc,
          fun hlt hlt' => Ordering.noConfusion (hcoherent.lt hlt hlt'),
          fun hgt hgt' => Ordering.noConfusion (hcoherent.gt hgt hgt')⟩
      · rwa [← hac hik] at hcoherent

theorem swap_compare [LinearOrder α] (a b : α) : (compare a b).swap = compare b a := by
  rcases lt_trichotomy a b with h | h | h
  · rw [compare_lt_iff_lt.mpr h, compare_gt_iff_gt.mpr h]
    rfl
  · subst h
    rw [compare_eq_iff_eq.mpr rfl]
    rfl
  · rw [compare_gt_iff_gt.mpr h, compare_lt_iff_lt.mpr h]
    rfl

theorem swap_then (h : ab.swap = ba) (h' : ab'.swap = ba') : (ab.then ab').swap = ba.then ba' := by
  subst h h'
  cases ab <;> rfl

theorem then_eq_eq : ab.then ab' = .eq ↔ ab = .eq ∧ ab' = .eq := by
  cases ab with
  | eq => exact ⟨fun h => ⟨rfl, h⟩, And.right⟩
  | lt => exact ⟨nofun, nofun⟩
  | gt => exact ⟨nofun, nofun⟩

/-- The comparison of a linear order. -/
structure Lawful (cmp : α → α → Ordering) : Prop where
  swap : ∀ a b, (cmp a b).swap = cmp b a
  eq_iff : ∀ a b, cmp a b = .eq ↔ a = b
  coherent : ∀ a b c, Coherent (cmp a b) (cmp b c) (cmp a c)

/-- The linear order of a comparison. -/
@[reducible] def Lawful.linearOrder {cmp : α → α → Ordering} (h : Lawful cmp) : LinearOrder α where
  le a b := cmp a b ≠ .gt
  lt a b := cmp a b = .lt
  le_refl a := by
    rw [(h.eq_iff a a).mpr rfl]
    decide
  le_trans a b c hab hbc hac := by
    obtain ⟨hleft, hright, hlt, -⟩ := h.coherent a b c
    cases h₁ : cmp a b with
    | eq => exact hbc ((hleft h₁).symm.trans hac)
    | gt => exact hab h₁
    | lt =>
      cases h₂ : cmp b c with
      | eq => exact hab ((hright h₂).symm.trans hac)
      | gt => exact hbc h₂
      | lt => exact Ordering.noConfusion ((hlt h₁ h₂).symm.trans hac)
  le_antisymm a b hab hba := by
    have hswap := h.swap a b
    cases h₁ : cmp a b with
    | eq => exact (h.eq_iff a b).mp h₁
    | gt => exact absurd h₁ hab
    | lt =>
      rw [h₁] at hswap
      exact absurd hswap.symm hba
  le_total a b := by
    have hswap := h.swap a b
    cases h₁ : cmp a b with
    | eq => exact .inl nofun
    | lt => exact .inl nofun
    | gt =>
      rw [h₁] at hswap
      rw [← hswap]
      exact .inr nofun
  toDecidableLE a b := inferInstanceAs (Decidable (cmp a b ≠ .gt))
  lt_iff_le_not_ge a b := by
    have hswap := h.swap a b
    rw [← hswap]
    cases cmp a b with
    | eq => exact ⟨nofun, fun hne => absurd (show Ordering.eq.swap ≠ .gt from nofun) hne.2⟩
    | lt => exact ⟨fun _ => ⟨nofun, fun hne => hne rfl⟩, fun _ => rfl⟩
    | gt => exact ⟨nofun, fun hne => absurd rfl hne.1⟩

end Orderings
