import Mathlib.Data.List.Sort
import Mathlib.Order.MinMax
import Mathlib.Order.WithBot

/-!
# Searching and sorting ranges

A binary search halves its range whatever the predicate does, so it can be run
on a range the predicate does not partition. `Searchable` says of such a range
that a search for the key of one of its elements never passes that element.
-/

namespace Algorithms

section BinarySearch

variable {α κ : Type}

def partitionPointIn (p : α → Bool) : Nat → List α → Nat
  | 0, _ => 0
  | fuel + 1, l =>
    match l[l.length / 2]? with
    | none => 0
    | some mid =>
      if p mid then l.length / 2 + 1 + partitionPointIn p fuel (l.drop (l.length / 2 + 1))
      else partitionPointIn p fuel (l.take (l.length / 2))

/-- The first position the halving search does not rule out. -/
def partitionPoint (p : α → Bool) (l : List α) : Nat := partitionPointIn p l.length l

theorem partitionPointIn_le (p : α → Bool) (fuel : Nat) (l : List α) : partitionPointIn p fuel l ≤ l.length := by
  induction fuel generalizing l with
  | zero => exact Nat.zero_le _
  | succ fuel ih =>
    rw [partitionPointIn]
    split
    · exact Nat.zero_le _
    · next hmid =>
      obtain ⟨hlt, -⟩ := List.getElem?_eq_some_iff.mp hmid
      have hleft := ih (l.take (l.length / 2))
      have hright := ih (l.drop (l.length / 2 + 1))
      rw [List.length_take] at hleft
      rw [List.length_drop] at hright
      split <;> omega

theorem partitionPoint_le (p : α → Bool) (l : List α) : partitionPoint p l ≤ l.length := partitionPointIn_le p _ l

variable {fuel : Nat} {l : List α} {p : α → Bool}

theorem partitionPointIn_spec (hfuel : l.length ≤ fuel) (hp : l.Pairwise fun a b => p b → p a) (i : Nat)
    (hi : i < l.length) : i < partitionPointIn p fuel l ↔ p l[i] := by
  induction fuel generalizing l i with
  | zero => omega
  | succ fuel ih =>
    rw [partitionPointIn]
    have hhalf : l.length / 2 < l.length := by omega
    rw [List.getElem?_eq_getElem hhalf]
    simp only
    have hpair := List.pairwise_iff_getElem.mp hp
    by_cases hmid : p l[l.length / 2] = true
    · rw [if_pos hmid]
      by_cases h : i ≤ l.length / 2
      · refine iff_of_true (by omega) ?_
        rcases Nat.lt_or_eq_of_le h with h | rfl
        · exact hpair i _ hi hhalf h hmid
        · exact hmid
      · have hrest := ih (l := l.drop (l.length / 2 + 1)) (by rw [List.length_drop]; omega)
          (hp.sublist (List.drop_sublist _ _)) (i - (l.length / 2 + 1)) (by rw [List.length_drop]; omega)
        simp only [List.getElem_drop, show l.length / 2 + 1 + (i - (l.length / 2 + 1)) = i by omega] at hrest
        rw [← hrest]
        omega
    · rw [if_neg hmid]
      have hle := partitionPointIn_le p fuel (l.take (l.length / 2))
      rw [List.length_take] at hle
      by_cases h : i < l.length / 2
      · have hrest := ih (l := l.take (l.length / 2)) (by rw [List.length_take]; omega)
          (hp.sublist (List.take_sublist _ _)) i (by rw [List.length_take]; omega)
        rw [hrest, List.getElem_take]
      · refine iff_of_false (by omega) fun hpi => hmid ?_
        rcases Nat.lt_or_eq_of_le (Nat.not_lt.mp h) with h | h
        · exact hpair _ i hhalf hi h hpi
        · simpa only [h] using hpi

/-- On a range that the predicate partitions, the search ends at the first element without it. -/
theorem partitionPoint_spec (hp : l.Pairwise fun a b => p b → p a) (i : Nat) (hi : i < l.length) :
    i < partitionPoint p l ↔ p l[i] :=
  partitionPointIn_spec le_rfl hp i hi

/-- The search has seen the element in front of its end, whatever the range is like. -/
theorem partitionPointIn_pred {i : Nat} (h : partitionPointIn p fuel l = i + 1) :
    ∃ hi : i < l.length, p l[i] = true := by
  induction fuel generalizing l i with
  | zero => cases h
  | succ fuel ih =>
    rw [partitionPointIn] at h
    split at h
    · cases h
    · next mid hmid =>
      obtain ⟨hhalf, rfl⟩ := List.getElem?_eq_some_iff.mp hmid
      split at h
      · next hp =>
        cases hrest : partitionPointIn p fuel (l.drop (l.length / 2 + 1)) with
        | zero =>
          rw [hrest] at h
          obtain rfl : i = l.length / 2 := by omega
          exact ⟨hhalf, hp⟩
        | succ j =>
          obtain ⟨hj, hpj⟩ := ih hrest
          rw [List.length_drop] at hj
          obtain rfl : i = l.length / 2 + 1 + j := by omega
          exact ⟨by omega, by simpa only [List.getElem_drop] using hpj⟩
      · obtain ⟨hi, hpi⟩ := ih h
        rw [List.length_take] at hi
        exact ⟨by omega, by simpa only [List.getElem_take] using hpi⟩

/-- And it has seen that the element at its end does not have the predicate. -/
theorem partitionPointIn_at (hfuel : l.length ≤ fuel) (h : partitionPointIn p fuel l < l.length) :
    p l[partitionPointIn p fuel l] = false := by
  induction fuel generalizing l with
  | zero => omega
  | succ fuel ih =>
    have hhalf : l.length / 2 < l.length := by omega
    by_cases hmid : p l[l.length / 2] = true
    · have hstep : partitionPointIn p (fuel + 1) l =
          l.length / 2 + 1 + partitionPointIn p fuel (l.drop (l.length / 2 + 1)) := by
        rw [partitionPointIn, List.getElem?_eq_getElem hhalf]
        simp only [if_pos hmid]
      have hat := @ih (l.drop (l.length / 2 + 1)) (by rw [List.length_drop]; omega) (by rw [List.length_drop]; omega)
      simp only [List.getElem_drop] at hat
      simpa only [hstep] using hat
    · have hstep : partitionPointIn p (fuel + 1) l = partitionPointIn p fuel (l.take (l.length / 2)) := by
        rw [partitionPointIn, List.getElem?_eq_getElem hhalf]
        simp only [if_neg hmid]
      have hle := partitionPointIn_le p fuel (l.take (l.length / 2))
      rcases Nat.lt_or_eq_of_le hle with hlt | heq
      · have hat := @ih (l.take (l.length / 2)) (by rw [List.length_take]; omega) hlt
        simp only [List.getElem_take] at hat
        simpa only [hstep] using hat
      · rw [List.length_take, min_eq_left hhalf.le] at heq
        simpa only [hstep, heq, Bool.not_eq_true] using hmid

theorem partitionPoint_at (h : partitionPoint p l < l.length) :
    p l[partitionPoint p l] = false := partitionPointIn_at le_rfl h

variable [LinearOrder κ] (key : α → κ)

def SearchableIn : Nat → WithBot κ → List α → Prop
  | 0, _, _ => True
  | fuel + 1, floor, l =>
    match l[l.length / 2]? with
    | none => True
    | some mid =>
      (∀ a ∈ l.take (l.length / 2), floor < key a → key a ≤ key mid) ∧
        SearchableIn fuel floor (l.take (l.length / 2)) ∧
        SearchableIn fuel (max floor (key mid)) (l.drop (l.length / 2 + 1))

/-- Halving the range again and again, every element in front of a middle one has no larger key than
that, unless its key is not above an earlier middle one in front of both. -/
def Searchable (l : List α) : Prop := SearchableIn key l.length ⊥ l

instance decidableSearchableIn (fuel : Nat) (floor : WithBot κ) (l : List α) :
    Decidable (SearchableIn key fuel floor l) :=
  match fuel with
  | 0 => inferInstanceAs (Decidable True)
  | fuel + 1 =>
    match h : l[l.length / 2]? with
    | none => decidable_of_iff True (by rw [SearchableIn, h])
    | some mid =>
      have := decidableSearchableIn fuel floor (l.take (l.length / 2))
      have := decidableSearchableIn fuel (max floor (key mid)) (l.drop (l.length / 2 + 1))
      decidable_of_iff ((∀ a ∈ l.take (l.length / 2), floor < key a → key a ≤ key mid) ∧
        SearchableIn key fuel floor (l.take (l.length / 2)) ∧
        SearchableIn key fuel (max floor (key mid)) (l.drop (l.length / 2 + 1))) (by rw [SearchableIn, h])

instance (l : List α) : Decidable (Searchable key l) := decidableSearchableIn key _ _ l

/-- `std::lower_bound`: a search by a key. -/
def lowerBound (v : κ) (l : List α) : Nat := partitionPoint (fun a => decide (key a < v)) l

variable {key}

theorem partitionPointIn_mono {v w : κ} (h : v ≤ w) (fuel : Nat) (l : List α) :
    partitionPointIn (fun a => decide (key a < v)) fuel l ≤ partitionPointIn (fun a => decide (key a < w)) fuel l := by
  induction fuel generalizing l with
  | zero => exact le_rfl
  | succ fuel ih =>
    rw [partitionPointIn, partitionPointIn]
    split
    · exact le_rfl
    · next mid hmid =>
      have hle := partitionPointIn_le (fun a => decide (key a < v)) fuel (l.take (l.length / 2))
      rw [List.length_take] at hle
      have hright := ih (l.drop (l.length / 2 + 1))
      by_cases hv : key mid < v
      · rw [if_pos (decide_eq_true hv), if_pos (decide_eq_true (hv.trans_le h))]
        omega
      · rw [if_neg (by simpa using hv)]
        split
        · omega
        · exact ih _

theorem lowerBound_mono {v w : κ} (h : v ≤ w) (l : List α) : lowerBound key v l ≤ lowerBound key w l :=
  partitionPointIn_mono h _ l

theorem searchableIn_iff {floor : WithBot κ} (hfuel : l.length ≤ fuel) :
    SearchableIn key fuel floor l ↔ ∀ i (hi : i < l.length), floor < key l[i] →
      partitionPointIn (fun a => decide (key a < key l[i])) fuel l ≤ i := by
  induction fuel generalizing floor l with
  | zero => exact iff_of_true trivial fun i hi => absurd hi (by omega)
  | succ fuel ih =>
    cases hmid : l[l.length / 2]? with
    | none =>
      have hnone := List.getElem?_eq_none_iff.mp hmid
      rw [SearchableIn, hmid]
      exact iff_of_true trivial fun i hi => absurd hi (by omega)
    | some mid =>
      obtain ⟨hhalf, rfl⟩ := List.getElem?_eq_some_iff.mp hmid
      have hleft := @ih (l.take (l.length / 2)) floor (by rw [List.length_take]; omega)
      have hright := @ih (l.drop (l.length / 2 + 1)) (max floor (key l[l.length / 2]))
        (by rw [List.length_drop]; omega)
      simp only [SearchableIn, hmid, partitionPointIn, hleft, hright, List.length_take, List.length_drop,
        List.getElem_take, List.getElem_drop, max_lt_iff, WithBot.coe_lt_coe]
      constructor
      · rintro ⟨hfront, hl, hr⟩ i hi hfloor
        rcases Nat.lt_or_ge i (l.length / 2) with h | h
        · have hle := hfront l[i] (List.mem_take_iff_getElem.mpr ⟨i, by omega, rfl⟩) hfloor
          rw [if_neg (by simpa using hle)]
          exact hl i (by omega) hfloor
        · by_cases hlt : key l[l.length / 2] < key l[i]
          · have hne : i ≠ l.length / 2 := by
              rintro rfl
              exact lt_irrefl _ hlt
            have hsub : l.length / 2 + 1 + (i - (l.length / 2 + 1)) = i := by omega
            have hrest := hr (i - (l.length / 2 + 1)) (by omega)
            simp only [hsub] at hrest
            rw [if_pos (decide_eq_true hlt)]
            have := hrest ⟨hfloor, hlt⟩
            omega
          · rw [if_neg (by simpa using hlt)]
            refine (partitionPointIn_le _ _ _).trans ?_
            rw [List.length_take]
            omega
      · intro hall
        refine ⟨fun a ha hfloor => ?_, fun i hi hfloor => ?_, fun i hi hfloor => ?_⟩
        · obtain ⟨i, hi, rfl⟩ := List.mem_take_iff_getElem.mp ha
          by_contra hlt
          have hle := hall i (by omega) hfloor
          rw [if_pos (decide_eq_true (not_le.mp hlt))] at hle
          omega
        · have hle := hall i (by omega) hfloor
          split at hle
          · omega
          · exact hle
        · have hle := hall (l.length / 2 + 1 + i) (by omega) hfloor.1
          rw [if_pos (decide_eq_true hfloor.2)] at hle
          omega

/-- No search passes an element whose key it is looking for, or one with a larger key. -/
theorem searchable_iff : Searchable key l ↔ ∀ i (hi : i < l.length), ∀ v ≤ key l[i], lowerBound key v l ≤ i := by
  rw [Searchable, searchableIn_iff le_rfl]
  constructor
  · intro h i hi v hv
    exact (lowerBound_mono hv l).trans (h i hi (WithBot.bot_lt_coe _))
  · exact fun h i hi _ => h i hi _ le_rfl

/-- `std::binary_search`: nothing at the lower bound, or something larger, and the key is not there. -/
def binarySearch (key : α → κ) (v : κ) (l : List α) : Bool :=
  match l[lowerBound key v l]? with
  | none => false
  | some a => !decide (v < key a)

theorem binarySearch_iff {v : κ} (h : l.Pairwise fun a b => key a ≤ key b) :
    binarySearch key v l = true ↔ ∃ a ∈ l, key a = v := by
  have hpart := @partitionPoint_spec _ l (fun a => decide (key a < v))
    (h.imp fun hab hb => decide_eq_true (hab.trans_lt (of_decide_eq_true hb)))
  rw [binarySearch, lowerBound]
  constructor
  · intro hfound
    split at hfound
    · exact absurd hfound Bool.false_ne_true
    · next a ha =>
      obtain ⟨hlt, rfl⟩ := List.getElem?_eq_some_iff.mp ha
      rw [Bool.not_eq_true', decide_eq_false_iff_not, not_lt] at hfound
      have hat := (hpart _ hlt).not.mp (lt_irrefl _)
      rw [decide_eq_true_iff, not_lt] at hat
      exact ⟨_, List.getElem_mem hlt, le_antisymm hfound hat⟩
  · rintro ⟨a, ha, rfl⟩
    obtain ⟨i, hi, rfl⟩ := List.getElem_of_mem ha
    have hle : partitionPoint (fun a => decide (key a < key l[i])) l ≤ i := by
      rw [← Nat.not_lt, hpart i hi]
      simp
    have hlt : partitionPoint (fun a => decide (key a < key l[i])) l < l.length := by omega
    rw [List.getElem?_eq_getElem hlt, Bool.not_eq_true', decide_eq_false_iff_not, not_lt]
    rcases Nat.lt_or_eq_of_le hle with hlt' | heq
    · exact List.pairwise_iff_getElem.mp h _ _ hlt hi hlt'
    · simp only [heq, le_refl]

end BinarySearch

/-- `std::sort`: it orders a range by a strict weak order; elements that it does not tell apart come
in any order. -/
structure StdSort where
  sort : {α : Type} → (α → α → Bool) → List α → List α
  perm : ∀ {α : Type} (lt : α → α → Bool) (l : List α), (sort lt l).Perm l
  sorted : ∀ {α κ : Type} [LinearOrder κ] (key : α → κ) (lt : α → α → Bool) (l : List α),
    (∀ a b, lt a b = true ↔ key a < key b) → (sort lt l).Pairwise fun a b => key a ≤ key b

/-- One such sort, a stable one. -/
def StdSort.insertion : StdSort where
  sort lt l := l.insertionSort fun a b => lt b a = false
  perm lt l := List.perm_insertionSort _ l
  sorted key lt l h := by
    have hle : ∀ a b, lt b a = false ↔ key a ≤ key b := fun a b => by
      rw [← Bool.not_eq_true, h, not_lt]
    have : Std.Total fun a b => lt b a = false := ⟨fun a b => by simpa only [hle] using le_total (key a) (key b)⟩
    have : IsTrans _ fun a b => lt b a = false :=
      ⟨fun a b c hab hbc => (hle a c).mpr (((hle a b).mp hab).trans ((hle b c).mp hbc))⟩
    exact (List.pairwise_insertionSort _ l).imp fun hab => (hle _ _).mp hab

end Algorithms
