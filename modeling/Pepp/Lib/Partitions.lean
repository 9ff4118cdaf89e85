import Mathlib.Data.List.Rotate
import Pepp.Lib.CycleWalk

/-!
# Partitions by trades

Elements that satisfy a predicate are brought in front of the others by swaps:
the first of the others changes places with the next element behind it that
satisfies the predicate. The elements in front keep their order, and each swap
sends the first of the others behind the rest of them.
-/

namespace Partitions

open CycleWalk

variable {α β : Type} (p : α → Bool)

/-- The front part and the back part, and what is still to come. -/
def sift : List α → List α → List α → List α × List α
  | front, back, [] => (front, back)
  | front, back, x :: xs => if p x then sift (front ++ [x]) (back.rotate 1) xs else sift front (back ++ [x]) xs

def partitioned (xs : List α) : List α := (sift p [] [] xs).1 ++ (sift p [] [] xs).2

/-- Each swap trades an element of the others for one behind it that satisfies the predicate. -/
def Trades : List α → List (Nat × Nat) → Prop
  | _, [] => True
  | xs, (i, j) :: swaps =>
    i < j ∧ (∃ a, xs[i]? = some a ∧ p a = false) ∧ (∃ b, xs[j]? = some b ∧ p b = true) ∧ Trades (swapAt xs i j) swaps

/-- Where one swap takes a position. -/
def moved (s : Nat) (swap : Nat × Nat) : Nat := if s = swap.1 then swap.2 else if s = swap.2 then swap.1 else s

/-- Where the element at a position ends. -/
def follow (swaps : List (Nat × Nat)) (s : Nat) : Nat := swaps.foldl moved s

/-- The same for one who can only remember positions below `m`. -/
def followMod (m : Nat) (swaps : List (Nat × Nat)) (s : Nat) : Nat :=
  swaps.foldl (fun s swap => if s = swap.1 ∨ s = swap.2 then moved s swap % m else s) s

variable {p}

/-! ## Sifting -/

/-- The front part grows at its end, and the parts are what they are called. -/
theorem sift_spec (front back xs : List α) (hfront : ∀ x ∈ front, p x = true) (hback : ∀ x ∈ back, p x = false) :
    front <+: (sift p front back xs).1 ∧ (∀ x ∈ (sift p front back xs).1, p x = true) ∧
      (∀ x ∈ (sift p front back xs).2, p x = false) ∧
      ((sift p front back xs).1 ++ (sift p front back xs).2).Perm (front ++ back ++ xs) := by
  induction xs generalizing front back with
  | nil =>
    refine ⟨List.prefix_refl _, hfront, hback, ?_⟩
    rw [List.append_nil]
    exact List.Perm.refl _
  | cons x xs ih =>
    rw [sift]
    split
    · next hx =>
      have hfront' : ∀ y ∈ front ++ [x], p y = true := by
        intro y hy
        rcases List.mem_append.mp hy with hy | hy
        · exact hfront y hy
        · rw [List.mem_singleton.mp hy]
          exact hx
      obtain ⟨hleading, htrue, hfalse, hperm⟩ := ih (front ++ [x]) (back.rotate 1) hfront' fun y hy =>
        hback y (List.mem_rotate.mp hy)
      refine ⟨(List.prefix_append front [x]).trans hleading, htrue, hfalse, hperm.trans ?_⟩
      calc (front ++ [x] ++ back.rotate 1 ++ xs).Perm (front ++ [x] ++ back ++ xs) :=
            ((List.rotate_perm back 1).append_left _).append_right _
        _ = front ++ ([x] ++ back ++ xs) := by simp only [List.append_assoc]
        _ |>.Perm (front ++ (back ++ [x] ++ xs)) := (List.perm_append_comm.append_right xs).append_left front
        _ = front ++ back ++ x :: xs := by simp only [List.append_assoc, List.singleton_append]
    · next hx =>
      have hback' : ∀ y ∈ back ++ [x], p y = false := by
        intro y hy
        rcases List.mem_append.mp hy with hy | hy
        · exact hback y hy
        · rw [List.mem_singleton.mp hy]
          exact Bool.not_eq_true _ ▸ hx
      obtain ⟨hleading, htrue, hfalse, hperm⟩ := ih front (back ++ [x]) hfront hback'
      refine ⟨hleading, htrue, hfalse, ?_⟩
      rw [show front ++ back ++ x :: xs = front ++ (back ++ [x]) ++ xs by simp only [List.append_assoc,
        List.singleton_append]]
      exact hperm

/-! ## Following the trades -/

variable {xs : List α} {swaps : List (Nat × Nat)} {s i j m : Nat} {x : α}

theorem getElem?_moved (hi : i < xs.length) (hj : j < xs.length) (hij : i < j) (s : Nat) :
    (swapAt xs i j)[moved s (i, j)]? = xs[s]? := by
  rw [getElem?_swapAt xs hi hj, moved]
  by_cases hsi : s = i
  · rw [if_pos hsi, if_pos rfl, hsi]
  · rw [if_neg hsi]
    by_cases hsj : s = j
    · rw [if_pos hsj, if_neg (by omega), if_pos rfl, hsj]
    · rw [if_neg hsj, if_neg hsj, if_neg hsi]

theorem Trades.cons (h : Trades p xs ((i, j) :: swaps)) :
    i < xs.length ∧ j < xs.length ∧ i < j ∧ Trades p (swapAt xs i j) swaps := by
  obtain ⟨hij, ⟨a, ha, -⟩, ⟨b, hb, -⟩, hrest⟩ := h
  exact ⟨(List.getElem?_eq_some_iff.mp ha).1, (List.getElem?_eq_some_iff.mp hb).1, hij, hrest⟩

theorem Trades.getElem?_follow (h : Trades p xs swaps) (s : Nat) :
    (applySwaps xs swaps)[follow swaps s]? = xs[s]? := by
  induction swaps generalizing xs s with
  | nil => rfl
  | cons swap swaps ih =>
    obtain ⟨i, j⟩ := swap
    obtain ⟨hi, hj, hij, hrest⟩ := h.cons
    exact (ih hrest (moved s (i, j))).trans (getElem?_moved hi hj hij s)

/-- What satisfies the predicate goes to the front, and everything else to the back. -/
theorem Trades.follow_cmp (h : Trades p xs swaps) (hx : xs[s]? = some x) :
    (p x = true → follow swaps s ≤ s) ∧ (p x = false → s ≤ follow swaps s) := by
  induction swaps generalizing xs s with
  | nil => exact ⟨fun _ => le_rfl, fun _ => le_rfl⟩
  | cons swap swaps ih =>
    obtain ⟨i, j⟩ := swap
    obtain ⟨hi, hj, hij, hrest⟩ := h.cons
    obtain ⟨htrue, hfalse⟩ := ih hrest ((getElem?_moved hi hj hij s).trans hx)
    obtain ⟨-, ⟨a, ha, hpa⟩, ⟨b, hb, hpb⟩, -⟩ := h
    change (_ → follow swaps (moved s (i, j)) ≤ s) ∧ (_ → s ≤ follow swaps (moved s (i, j)))
    rcases eq_or_ne s i with rfl | hsi
    · obtain rfl := Option.some.inj (hx.symm.trans ha)
      have hmoved : moved s (s, j) = j := if_pos rfl
      rw [hmoved] at hfalse ⊢
      refine ⟨fun ht => absurd (hpa.symm.trans ht) Bool.false_ne_true, fun hf => ?_⟩
      exact hij.le.trans (hfalse hf)
    · rcases eq_or_ne s j with rfl | hsj
      · obtain rfl := Option.some.inj (hx.symm.trans hb)
        have hmoved : moved s (i, s) = i := (if_neg hsi).trans (if_pos rfl)
        rw [hmoved] at htrue ⊢
        refine ⟨fun ht => (htrue ht).trans hij.le, fun hf => ?_⟩
        exact absurd (hf.symm.trans hpb) Bool.false_ne_true
      · have hmoved : moved s (i, j) = s := (if_neg hsi).trans (if_neg hsj)
        rw [hmoved] at htrue hfalse ⊢
        exact ⟨htrue, hfalse⟩

theorem followMod_lt (hs : s < m) : followMod m swaps s < m := by
  induction swaps generalizing s with
  | nil => exact hs
  | cons swap swaps ih =>
    refine ih ?_
    dsimp only
    split
    · exact Nat.mod_lt _ (by omega)
    · exact hs

/-- An element that ends below the bound is below it all the time. -/
theorem Trades.followMod_eq (h : Trades p xs swaps) (hx : xs[s]? = some x) (hs : s < m)
    (hend : follow swaps s < m) : followMod m swaps s = follow swaps s := by
  induction swaps generalizing xs s with
  | nil => rfl
  | cons swap swaps ih =>
    obtain ⟨i, j⟩ := swap
    obtain ⟨hi, hj, hij, hrest⟩ := h.cons
    have hx' := (getElem?_moved hi hj hij s).trans hx
    have hcmp := hrest.follow_cmp hx'
    have hend' : follow swaps (moved s (i, j)) < m := hend
    -- it goes up only to stay below where it ends
    have hlt : moved s (i, j) < m := by
      rcases Bool.eq_false_or_eq_true (p x) with hp | hp
      · have hle := (show Trades p xs [(i, j)] from ⟨h.1, h.2.1, h.2.2.1, trivial⟩).follow_cmp hx
        exact (hle.1 hp).trans_lt hs
      · exact (hcmp.2 hp).trans_lt hend'
    have hstep : (if s = i ∨ s = j then moved s (i, j) % m else s) = moved s (i, j) := by
      split
      · exact Nat.mod_eq_of_lt hlt
      · next hne =>
        obtain ⟨hsi, hsj⟩ := not_or.mp hne
        exact ((if_neg hsi).trans (if_neg hsj)).symm
    change followMod m swaps (if s = i ∨ s = j then moved s (i, j) % m else s) = follow swaps (moved s (i, j))
    rw [hstep]
    exact ih hrest hx' hlt hend'

end Partitions
