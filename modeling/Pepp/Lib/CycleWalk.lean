import Mathlib.Data.Finset.Card
import Mathlib.Data.Finset.Range
import Mathlib.Data.Finset.Filter

/-!
# Permuting in place

The elements of an array are brought to their destinations by swaps: as long as
the element at a position belongs elsewhere, it changes places with the one at
its destination. Each swap brings one element home for good.
-/

namespace CycleWalk

variable {α β σ : Type}

/-! ## Swaps -/

/-- Exchange two elements; there is no exchange with a position outside the list. -/
def swapAt (l : List α) (i j : Nat) : List α :=
  match l[i]?, l[j]? with
  | some a, some b => (l.set i b).set j a
  | _, _ => l

variable (l : List α) {i j : Nat}

theorem swapAt_eq (hi : i < l.length) (hj : j < l.length) : swapAt l i j = (l.set i l[j]).set j l[i] := by
  rw [swapAt, List.getElem?_eq_getElem hi, List.getElem?_eq_getElem hj]

@[simp] theorem length_swapAt (i j : Nat) : (swapAt l i j).length = l.length := by
  unfold swapAt
  split <;> simp

theorem swapAt_perm (i j : Nat) : (swapAt l i j).Perm l := by
  by_cases h : i < l.length ∧ j < l.length
  · rw [swapAt_eq l h.1 h.2]
    exact List.set_set_perm h.1 h.2
  · unfold swapAt
    split
    · next hi hj => exact absurd ⟨(List.getElem?_eq_some_iff.mp hi).1, (List.getElem?_eq_some_iff.mp hj).1⟩ h
    · exact List.Perm.refl l

theorem getElem?_swapAt (hi : i < l.length) (hj : j < l.length) (k : Nat) :
    (swapAt l i j)[k]? = if k = j then l[i]? else if k = i then l[j]? else l[k]? := by
  rw [swapAt_eq l hi hj, List.getElem?_eq_getElem hi, List.getElem?_eq_getElem hj]
  by_cases hkj : k = j
  · subst hkj
    rw [if_pos rfl, List.getElem?_set_self (by rwa [List.length_set])]
  · rw [if_neg hkj, List.getElem?_set_ne (Ne.symm hkj)]
    by_cases hki : k = i
    · subst hki
      rw [if_pos rfl, List.getElem?_set_self hi]
    · rw [if_neg hki, List.getElem?_set_ne (Ne.symm hki)]

theorem swapAt_append (front mid back : List α) (a b : α) :
    swapAt (front ++ a :: (mid ++ b :: back)) front.length (front.length + 1 + mid.length) =
      front ++ b :: (mid ++ a :: back) := by
  have hfirst : (front ++ a :: (mid ++ b :: back))[front.length]? = some a := by
    rw [List.getElem?_append_right le_rfl, Nat.sub_self]
    rfl
  have hsecond : (front ++ a :: (mid ++ b :: back))[front.length + 1 + mid.length]? = some b := by
    rw [List.getElem?_append_right (by omega), Nat.add_assoc, Nat.add_sub_cancel_left, Nat.add_comm,
      List.getElem?_cons_succ, List.getElem?_append_right le_rfl, Nat.sub_self]
    rfl
  rw [swapAt, hfirst, hsecond]
  dsimp only
  rw [List.set_append_right _ _ le_rfl, Nat.sub_self, List.set_cons_zero, List.set_append_right _ _ (by omega),
    Nat.add_assoc, Nat.add_sub_cancel_left, Nat.add_comm 1, List.set_cons_succ, List.set_append_right _ _ le_rfl,
    Nat.sub_self, List.set_cons_zero]

theorem swapAt_map (f : α → β) (l : List α) (i j : Nat) : swapAt (l.map f) i j = (swapAt l i j).map f := by
  unfold swapAt
  rw [List.getElem?_map, List.getElem?_map]
  cases l[i]? <;> cases l[j]? <;> simp [List.map_set]

def applySwaps (l : List α) (swaps : List (Nat × Nat)) : List α := swaps.foldl (fun l s => swapAt l s.1 s.2) l

theorem applySwaps_perm (swaps : List (Nat × Nat)) : (applySwaps l swaps).Perm l := by
  induction swaps generalizing l with
  | nil => exact List.Perm.refl l
  | cons s swaps ih => exact (ih _).trans (swapAt_perm l s.1 s.2)

theorem applySwaps_map (f : α → β) (l : List α) (swaps : List (Nat × Nat)) :
    applySwaps (l.map f) swaps = (applySwaps l swaps).map f := by
  induction swaps generalizing l with
  | nil => rfl
  | cons s swaps ih =>
    simp only [applySwaps, List.foldl_cons, swapAt_map] at ih ⊢
    exact ih _

theorem applySwaps_concat (swaps : List (Nat × Nat)) (i j : Nat) :
    applySwaps l (swaps ++ [(i, j)]) = swapAt (applySwaps l swaps) i j := by
  rw [applySwaps, List.foldl_append]
  rfl

/-! ## The walk -/

/-- `while (dest[i] != i)`; what else is swapped along is up to `act`. -/
def settle (act : Nat → Nat → σ → σ) (i : Nat) : Nat → List Nat × σ → Option (List Nat × σ)
  | 0, _ => none
  | fuel + 1, (dest, s) =>
    match dest[i]? with
    | none => none
    | some j => if j = i then some (dest, s) else settle act i fuel (swapAt dest i j, act i j s)

/-- The positions below `k` one after the other, in an array of `n`. -/
def arrange (act : Nat → Nat → σ → σ) (n : Nat) : Nat → List Nat × σ → Option (List Nat × σ)
  | 0, state => some state
  | k + 1, state => (arrange act n k state).bind (settle act k (n + 1))

variable {act : Nat → Nat → σ → σ} {n : Nat} {dest : List Nat}

theorem lt_of_perm (h : dest.Perm (List.range n)) (hij : dest[i]? = some j) : i < n ∧ j < n := by
  obtain ⟨hi, rfl⟩ := List.getElem?_eq_some_iff.mp hij
  have hlen := h.length_eq
  rw [List.length_range] at hlen
  exact ⟨by omega, List.mem_range.mp (h.mem_iff.mp (List.getElem_mem hi))⟩

theorem inj_of_perm (h : dest.Perm (List.range n)) {i k j : Nat} (hij : dest[i]? = some j) (hkj : dest[k]? = some j) :
    i = k := by
  obtain ⟨hi, hij⟩ := List.getElem?_eq_some_iff.mp hij
  obtain ⟨hk, hkj⟩ := List.getElem?_eq_some_iff.mp hkj
  exact (List.Nodup.getElem_inj_iff (h.nodup_iff.mpr List.nodup_range)).mp (hij.trans hkj.symm)

/-- The positions whose element is not at home. -/
def away (n : Nat) (dest : List Nat) : Finset Nat := (Finset.range n).filter fun k => dest[k]? ≠ some k

/-- A swap brings an element home, and none that is there leaves. -/
theorem swap_home (h : dest.Perm (List.range n)) (hij : dest[i]? = some j) (hne : j ≠ i) :
    (away n (swapAt dest i j)).card < (away n dest).card ∧
      ∀ k : Nat, dest[k]? = some k → (swapAt dest i j)[k]? = some k := by
  obtain ⟨hi, hj⟩ := lt_of_perm h hij
  have hlen := h.length_eq
  rw [List.length_range] at hlen
  have hat := getElem?_swapAt dest (show i < dest.length by omega) (show j < dest.length by omega)
  have hkeep : ∀ k : Nat, dest[k]? = some k → (swapAt dest i j)[k]? = some k := by
    intro k hk
    rw [hat]
    split
    · next hkj => exact absurd (inj_of_perm h (hkj ▸ hk) hij) hne
    · split
      · next hki =>
        subst hki
        rw [hk, Option.some.injEq] at hij
        exact absurd hij.symm hne
      · exact hk
  refine ⟨Finset.card_lt_card (Finset.ssubset_iff_of_subset (fun k hk => ?_) |>.mpr ⟨j, ?_, ?_⟩), hkeep⟩
  · rw [away, Finset.mem_filter] at hk ⊢
    exact ⟨hk.1, fun hhome => hk.2 (hkeep k hhome)⟩
  · rw [away, Finset.mem_filter, Finset.mem_range]
    exact ⟨hj, fun hhome => hne (inj_of_perm h hhome hij)⟩
  · rw [away, Finset.mem_filter, hat, if_pos rfl, not_and, not_not]
    exact fun _ => hij

variable {inv : List Nat → σ → Prop}
  (hstep : ∀ dest s i j, dest.Perm (List.range n) → inv dest s → dest[i]? = some j → j ≠ i →
    inv (swapAt dest i j) (act i j s))

include hstep

theorem settle_meets {i : Nat} (hi : i < n) {fuel : Nat} {s : σ} (hfuel : (away n dest).card < fuel)
    (h : dest.Perm (List.range n)) (hinv : inv dest s) :
    ∃ dest' s', settle act i fuel (dest, s) = some (dest', s') ∧ dest'.Perm (List.range n) ∧ inv dest' s' ∧
      dest'[i]? = some i ∧ ∀ k : Nat, dest[k]? = some k → dest'[k]? = some k := by
  induction fuel generalizing dest s with
  | zero => omega
  | succ fuel ih =>
    have hlen := h.length_eq
    rw [List.length_range] at hlen
    obtain ⟨j, hij⟩ : ∃ j, dest[i]? = some j := ⟨_, List.getElem?_eq_getElem (by omega)⟩
    rw [settle, hij]
    by_cases hne : j = i
    · subst hne
      exact ⟨dest, s, if_pos rfl, h, hinv, hij, fun k hk => hk⟩
    · obtain ⟨hless, hkeep⟩ := swap_home h hij hne
      obtain ⟨dest', s', hsettle, hperm, hinv', hhome, hkeep'⟩ := ih (by omega) ((swapAt_perm dest i j).trans h)
        (hstep dest s i j h hinv hij hne)
      exact ⟨dest', s', (if_neg hne).trans hsettle, hperm, hinv', hhome, fun k hk => hkeep' k (hkeep k hk)⟩

/-- The walk ends with every element at home, and keeps what its swaps keep. -/
theorem arrange_meets {s : σ} (h : dest.Perm (List.range n)) (hinv : inv dest s) :
    ∃ s', arrange act n n (dest, s) = some (List.range n, s') ∧ inv (List.range n) s' := by
  have hprefix : ∀ k ≤ n, ∃ dest' s', arrange act n k (dest, s) = some (dest', s') ∧ dest'.Perm (List.range n) ∧
      inv dest' s' ∧ ∀ i < k, dest'[i]? = some i := by
    intro k hk
    induction k with
    | zero => exact ⟨dest, s, rfl, h, hinv, nofun⟩
    | succ k ih =>
      obtain ⟨d₁, s₁, harr, hperm₁, hinv₁, hhome₁⟩ := ih (by omega)
      have hcard : (away n d₁).card < n + 1 := by
        have := Finset.card_filter_le (Finset.range n) fun k => d₁[k]? ≠ some k
        rw [Finset.card_range] at this
        exact Nat.lt_succ_of_le this
      obtain ⟨d₂, s₂, hsettle, hperm₂, hinv₂, hhome, hkeep⟩ := settle_meets hstep (show k < n by omega) hcard hperm₁ hinv₁
      refine ⟨d₂, s₂, ?_, hperm₂, hinv₂, fun i hi => ?_⟩
      · rw [arrange, harr, Option.bind_some, hsettle]
      · rcases Nat.lt_succ_iff_lt_or_eq.mp hi with hi | rfl
        · exact hkeep i (hhome₁ i hi)
        · exact hhome
  obtain ⟨dest', s', harr, hperm, hinv', hhome⟩ := hprefix n le_rfl
  have hrange : dest' = List.range n := by
    have hlen := hperm.length_eq
    refine List.ext_getElem? fun k => ?_
    by_cases hk : k < n
    · rw [hhome k hk, List.getElem?_range hk]
    · rw [List.length_range] at hlen
      rw [List.getElem?_eq_none (by omega), List.getElem?_eq_none (by rw [List.length_range]; omega)]
  subst hrange
  exact ⟨s', harr, hinv'⟩

end CycleWalk
