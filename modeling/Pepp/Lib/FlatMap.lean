import Mathlib.Data.List.Sort
import Mathlib.Order.Defs.LinearOrder

/-!
# Ordered associative containers

A flat map is a vector of pairs by increasing key. `FlatMap` is what such a
container is documented to do with keys a strict weak order compares; a map on
which it is met holds at most one pair for each key.
-/

namespace Containers

variable {K V κ : Type} [LinearOrder κ]

/-- By increasing key, and no two pairs with the same one. -/
def Sorted (key : K → κ) (l : List (K × V)) : Prop := l.Pairwise fun a b => key a.1 < key b.1

/-- The comparison of keys is that of a linear order. -/
def Compares (lt : K → K → Bool) (key : K → κ) : Prop := ∀ a b, lt a b = true ↔ key a < key b

/-- Operations of a flat map, with what they are documented to do. -/
structure FlatMap where
  insertOrAssign : {K V : Type} → (K → K → Bool) → K → V → List (K × V) → List (K × V)
  erase : {K V : Type} → (K → K → Bool) → K → List (K × V) → List (K × V)
  find : {K V : Type} → (K → K → Bool) → K → List (K × V) → Option (K × V)
  sorted_insert : ∀ {K V κ : Type} [LinearOrder κ] {lt : K → K → Bool} {key : K → κ} {l : List (K × V)} (k : K) (v : V),
    Compares lt key → Sorted key l → Sorted key (insertOrAssign lt k v l)
  mem_insert : ∀ {K V κ : Type} [LinearOrder κ] {lt : K → K → Bool} {key : K → κ} {l : List (K × V)} {k : K} {v : V},
    Compares lt key → Sorted key l → (∀ p ∈ l, key p.1 = key k → p.1 = k) →
      ∀ p, p ∈ insertOrAssign lt k v l ↔ p = (k, v) ∨ p ∈ l ∧ p.1 ≠ k
  sorted_erase : ∀ {K V κ : Type} [LinearOrder κ] {lt : K → K → Bool} {key : K → κ} {l : List (K × V)} (k : K),
    Compares lt key → Sorted key l → Sorted key (erase lt k l)
  mem_erase : ∀ {K V κ : Type} [LinearOrder κ] {lt : K → K → Bool} {key : K → κ} {l : List (K × V)} {k : K},
    Compares lt key → Sorted key l → ∀ p, p ∈ erase lt k l ↔ p ∈ l ∧ key p.1 ≠ key k
  find_eq_some : ∀ {K V κ : Type} [LinearOrder κ] {lt : K → K → Bool} {key : K → κ} {l : List (K × V)} {k : K},
    Compares lt key → Sorted key l → ∀ p, find lt k l = some p ↔ p ∈ l ∧ key p.1 = key k

/-- Insertion in front of the first larger key. -/
def insertByKey (lt : K → K → Bool) (k : K) (v : V) : List (K × V) → List (K × V)
  | [] => [(k, v)]
  | p :: l =>
    if lt k p.1 then (k, v) :: p :: l
    else if lt p.1 k then p :: insertByKey lt k v l
    else (p.1, v) :: l

section Simple

variable {lt : K → K → Bool} {key : K → κ} {l : List (K × V)} {k : K} {v : V}

theorem exists_of_mem_insert (hc : Compares lt key) {p : K × V} (hp : p ∈ insertByKey lt k v l) :
    key p.1 = key k ∨ p ∈ l := by
  induction l with
  | nil =>
    rw [insertByKey, List.mem_singleton] at hp
    exact .inl (by rw [hp])
  | cons q l ih =>
    rw [insertByKey] at hp
    split at hp
    · rcases List.mem_cons.mp hp with rfl | hp
      · exact .inl rfl
      · exact .inr hp
    · next hlt =>
      split at hp
      · rcases List.mem_cons.mp hp with rfl | hp
        · exact .inr List.mem_cons_self
        · exact (ih hp).imp_right (List.mem_cons_of_mem q)
      · next hgt =>
        rw [hc] at hlt hgt
        rcases List.mem_cons.mp hp with rfl | hp
        · exact .inl (le_antisymm (not_lt.mp hlt) (not_lt.mp hgt))
        · exact .inr (List.mem_cons_of_mem q hp)

section

variable (hc : Compares lt key) (hs : Sorted key l)
include hc hs

theorem sorted_insertByKey : Sorted key (insertByKey lt k v l) := by
  induction l with
  | nil => exact List.pairwise_singleton _ _
  | cons q l ih =>
    obtain ⟨hq, hl⟩ := List.pairwise_cons.mp hs
    rw [insertByKey]
    split
    · next hlt =>
      rw [hc] at hlt
      refine List.pairwise_cons.mpr ⟨fun p hp => ?_, hs⟩
      rcases List.mem_cons.mp hp with rfl | hp
      · exact hlt
      · exact hlt.trans (hq p hp)
    · next hlt =>
      split
      · next hgt =>
        rw [hc] at hgt
        refine List.pairwise_cons.mpr ⟨fun p hp => ?_, ih hl⟩
        rcases exists_of_mem_insert hc hp with h | h
        · exact hgt.trans_eq h.symm
        · exact hq p h
      · exact List.pairwise_cons.mpr ⟨hq, hl⟩

theorem mem_insertByKey (hk : ∀ p ∈ l, key p.1 = key k → p.1 = k) (p : K × V) :
    p ∈ insertByKey lt k v l ↔ p = (k, v) ∨ p ∈ l ∧ p.1 ≠ k := by
  induction l with
  | nil => simp [insertByKey]
  | cons q l ih =>
    obtain ⟨hq, hl⟩ := List.pairwise_cons.mp hs
    obtain ⟨hkq, hkl⟩ := List.forall_mem_cons.mp hk
    have hrest := ih hl hkl
    rw [insertByKey]
    split
    · next hlt =>
      rw [hc] at hlt
      have hne : ∀ p ∈ q :: l, p.1 ≠ k := by
        rintro p hp rfl
        rcases List.mem_cons.mp hp with rfl | hp
        · exact lt_irrefl _ hlt
        · exact lt_irrefl _ (hlt.trans (hq p hp))
      rw [List.mem_cons]
      exact or_congr_right ⟨fun hp => ⟨hp, hne p hp⟩, And.left⟩
    · next hlt =>
      split
      · next hgt =>
        rw [hc] at hgt
        have hne : q.1 ≠ k := fun h => absurd hgt (by rw [h]; exact lt_irrefl _)
        rw [List.mem_cons, hrest, List.mem_cons]
        constructor
        · rintro (rfl | rfl | ⟨hp, hpk⟩)
          · exact .inr ⟨.inl rfl, hne⟩
          · exact .inl rfl
          · exact .inr ⟨.inr hp, hpk⟩
        · rintro (rfl | ⟨rfl | hp, hpk⟩)
          · exact .inr (.inl rfl)
          · exact .inl rfl
          · exact .inr (.inr ⟨hp, hpk⟩)
      · next hgt =>
        rw [hc] at hlt hgt
        have heq : q.1 = k := hkq (le_antisymm (not_lt.mp hlt) (not_lt.mp hgt))
        rw [List.mem_cons, List.mem_cons, heq]
        refine or_congr_right ⟨fun hp => ⟨.inr hp, fun h => ?_⟩, ?_⟩
        · have hbelow := hq p hp
          rw [h, heq] at hbelow
          exact lt_irrefl _ hbelow
        · rintro ⟨rfl | hp, hpk⟩
          · exact absurd heq hpk
          · exact hp

theorem find_by_key (p : K × V) : l.find? (fun p => !lt p.1 k && !lt k p.1) = some p ↔ p ∈ l ∧ key p.1 = key k := by
  have hequal : ∀ q : K × V, (!lt q.1 k && !lt k q.1) = true ↔ key q.1 = key k := fun q => by
    rw [Bool.and_eq_true, Bool.not_eq_true', Bool.not_eq_true', ← Bool.not_eq_true, ← Bool.not_eq_true, hc, hc,
      not_lt, not_lt, and_comm, le_antisymm_iff]
  constructor
  · intro h
    have hfound := List.find?_some h
    exact ⟨List.mem_of_find?_eq_some h, (hequal p).mp hfound⟩
  · rintro ⟨hp, hk⟩
    induction l with
    | nil => exact absurd hp List.not_mem_nil
    | cons q l ih =>
      obtain ⟨hq, hl⟩ := List.pairwise_cons.mp hs
      rw [List.find?_cons]
      split
      · next h =>
        rcases List.mem_cons.mp hp with rfl | hp
        · rfl
        · exact absurd (hq p hp) (by rw [(hequal q).mp h, hk]; exact lt_irrefl _)
      · next h =>
        rcases List.mem_cons.mp hp with rfl | hp
        · exact absurd ((hequal p).mpr hk) (by rw [h]; decide)
        · exact ih hl hp

end

end Simple

/-- One such container. -/
def FlatMap.simple : FlatMap where
  insertOrAssign := insertByKey
  erase lt k l := l.filter fun p => lt p.1 k || lt k p.1
  find lt k l := l.find? fun p => !lt p.1 k && !lt k p.1
  sorted_insert _ _ := sorted_insertByKey
  mem_insert := mem_insertByKey
  sorted_erase _ _ hs := hs.sublist List.filter_sublist
  mem_erase hc _ p := by
    rw [List.mem_filter, Bool.or_eq_true, hc, hc, ne_iff_lt_or_gt]
  find_eq_some := find_by_key

end Containers
