import Mathlib.Data.List.Lex
import Mathlib.Data.Prod.Lex

/-!
# Sets ordered by a key

A set is the list of its elements by increasing key, no two of them with the
same one. A search drops what has a smaller key; an insertion keeps the element
that is already there.
-/

namespace OrderedSet

variable {α κ : Type} [LinearOrder κ] (key : α → κ)

def Sorted (s : List α) : Prop := s.Pairwise fun a b => key a < key b

/-- The elements from the first one on that is not below `k`. -/
def lowerBound (k : κ) (s : List α) : List α := s.dropWhile fun a => decide (key a < k)

def find (k : κ) (s : List α) : Option α := (lowerBound key k s).head?.filter fun a => decide (¬ k < key a)

/-- The element with the key of `a`, which is put in unless there is one. -/
def insert (a : α) : List α → α × List α
  | [] => (a, [a])
  | b :: s =>
    if key a < key b then (a, a :: b :: s)
    else if key b < key a then ((insert a s).1, b :: (insert a s).2)
    else (b, b :: s)

variable {key} {s : List α} {a b : α} {k : κ}

section

variable (h : Sorted key s)
include h

theorem mem_lowerBound : a ∈ lowerBound key k s ↔ a ∈ s ∧ k ≤ key a := by
  induction s with
  | nil => simp [lowerBound]
  | cons b s ih =>
    obtain ⟨hb, hs⟩ := List.pairwise_cons.mp h
    unfold lowerBound
    rw [List.dropWhile_cons]
    by_cases hk : key b < k
    · rw [if_pos (decide_eq_true hk), List.mem_cons]
      constructor
      · intro ha
        obtain ⟨ha, hle⟩ := (ih hs).mp ha
        exact ⟨.inr ha, hle⟩
      · rintro ⟨rfl | ha, hle⟩
        · exact absurd hk (not_lt.mpr hle)
        · exact (ih hs).mpr ⟨ha, hle⟩
    · rw [if_neg (by simpa using hk)]
      refine ⟨fun ha => ⟨ha, ?_⟩, fun ha => ha.1⟩
      rcases List.mem_cons.mp ha with rfl | ha
      · exact not_lt.mp hk
      · exact (not_lt.mp hk).trans (hb a ha).le

theorem sorted_lowerBound : Sorted key (lowerBound key k s) :=
  h.sublist (List.dropWhile_sublist _)

/-- A search finds the element with the key. -/
theorem find_eq_some : find key k s = some a ↔ a ∈ s ∧ key a = k := by
  have hm := @mem_lowerBound _ _ _ key s
  have hs := @sorted_lowerBound _ _ _ key s k h
  unfold find
  cases hl : lowerBound key k s with
  | nil =>
    simp only [List.head?_nil, Option.filter_none, reduceCtorEq, false_iff, not_and]
    intro ha hk
    have := (@hm a k h).mpr ⟨ha, hk.ge⟩
    rw [hl] at this
    exact List.not_mem_nil this
  | cons b l =>
    rw [hl] at hs
    obtain ⟨hb, -⟩ := List.pairwise_cons.mp hs
    have hbm := (@hm b k h).mp (by rw [hl]; exact List.mem_cons_self)
    rw [List.head?_cons, Option.filter_eq_some_iff]
    simp only [Option.some.injEq, not_lt, decide_eq_true_eq]
    constructor
    · rintro ⟨rfl, hle⟩
      exact ⟨hbm.1, le_antisymm hle hbm.2⟩
    · rintro ⟨ha, rfl⟩
      have hal := (@hm a (key a) h).mpr ⟨ha, le_refl _⟩
      rw [hl] at hal
      rcases List.mem_cons.mp hal with rfl | hal
      · exact ⟨rfl, le_refl _⟩
      · exact absurd (hb a hal) (not_lt.mpr hbm.2)

theorem find_eq_none : find key k s = none ↔ ∀ a ∈ s, key a ≠ k := by
  constructor
  · intro hf a ha hk
    have := (find_eq_some h).mpr ⟨ha, hk⟩
    rw [hf] at this
    contradiction
  · intro hn
    cases hf : find key k s with
    | none => rfl
    | some a =>
      obtain ⟨ha, hk⟩ := (find_eq_some h).mp hf
      exact absurd hk (hn a ha)

/-- An element with a new key becomes one of the set. -/
theorem insert_new (hn : ∀ b ∈ s, key b ≠ key a) :
    (insert key a s).1 = a ∧ (∀ b, b ∈ (insert key a s).2 ↔ b = a ∨ b ∈ s) ∧ Sorted key (insert key a s).2 := by
  induction s with
  | nil => exact ⟨rfl, fun b => by simp [insert], List.pairwise_singleton _ _⟩
  | cons c s ih =>
    obtain ⟨hc, hs⟩ := List.pairwise_cons.mp h
    obtain ⟨hfst, hmem, hsorted⟩ := ih hs fun b hb => hn b (List.mem_cons_of_mem c hb)
    unfold insert
    rcases lt_trichotomy (key a) (key c) with hlt | heq | hgt
    · rw [if_pos hlt]
      refine ⟨rfl, fun b => List.mem_cons, List.pairwise_cons.mpr ⟨fun b hb => ?_, h⟩⟩
      rcases List.mem_cons.mp hb with rfl | hb
      · exact hlt
      · exact hlt.trans (hc b hb)
    · exact absurd heq.symm (hn c List.mem_cons_self)
    · rw [if_neg hgt.not_gt, if_pos hgt]
      refine ⟨hfst, fun b => ?_, List.pairwise_cons.mpr ⟨fun b hb => ?_, hsorted⟩⟩
      · simp only [List.mem_cons, hmem]
        tauto
      · rcases (hmem b).mp hb with rfl | hb
        · exact hgt
        · exact hc b hb

end

/-- An element is put in where its key belongs. -/
theorem insert_between {t : List α} (hs : ∀ b ∈ s, key b < key a) (ht : ∀ b ∈ t, key a < key b) :
    (insert key a (s ++ t)).2 = s ++ a :: t := by
  induction s with
  | nil =>
    cases t with
    | nil => rfl
    | cons b t => rw [List.nil_append, insert, if_pos (ht b List.mem_cons_self), List.nil_append]
  | cons b s ih =>
    obtain ⟨hb, hs⟩ := List.forall_mem_cons.mp hs
    rw [List.cons_append, insert, if_neg hb.not_gt, if_pos hb, List.cons_append, ih hs]

end OrderedSet
