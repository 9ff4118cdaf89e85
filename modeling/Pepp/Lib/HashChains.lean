import Mathlib.Data.List.Range

/-!
# Hash tables of index chains

Entries are numbers from 1 on, 0 stands for none. A bucket has the number of its
first entry and each entry that of the next one in its bucket. A table filled
from the last entry down has its chains in ascending order, and a walk along one
of them is a search through all entries.
-/

namespace HashChains

/-! ## First entries -/

/-- The first number from `k` on, and below `n`, with a property, or 0. -/
def firstFrom (p : Nat → Bool) (k n : Nat) : Nat := ((List.range' k (n - k)).find? p).getD 0

variable (p : Nat → Bool)

theorem firstFrom_of_le {k n : Nat} (h : n ≤ k) : firstFrom p k n = 0 := by
  rw [firstFrom, Nat.sub_eq_zero_of_le h]
  rfl

theorem firstFrom_of_lt {k n : Nat} (h : k < n) : firstFrom p k n = if p k then k else firstFrom p (k + 1) n := by
  rw [firstFrom, show n - k = n - (k + 1) + 1 by omega, List.range'_succ, List.find?_cons]
  cases p k <;> rfl

theorem firstFrom_lt (k : Nat) {n : Nat} (hn : 0 < n) : firstFrom p k n < n := by
  rw [firstFrom]
  cases h : (List.range' k (n - k)).find? p with
  | none => exact hn
  | some j =>
    have := List.mem_range'_1.mp (List.mem_of_find?_eq_some h)
    rw [Option.getD_some]
    omega

/-- Either nothing has the property or the first number that has it is found. -/
theorem firstFrom_cases (k n : Nat) :
    (firstFrom p k n = 0 ∧ ∀ j, k ≤ j → j < n → p j = false) ∨
      (k ≤ firstFrom p k n ∧ firstFrom p k n < n ∧ p (firstFrom p k n) = true) := by
  rw [firstFrom]
  cases h : (List.range' k (n - k)).find? p with
  | none =>
    refine .inl ⟨rfl, fun j hkj hjn => ?_⟩
    have := List.find?_eq_none.mp h j (List.mem_range'_1.mpr ⟨hkj, by omega⟩)
    rwa [Bool.not_eq_true] at this
  | some j =>
    have hmem := List.mem_range'_1.mp (List.mem_of_find?_eq_some h)
    rw [Option.getD_some]
    exact .inr ⟨hmem.1, by omega, List.find?_some h⟩

/-- A search for two properties from the first number with one of them on. -/
theorem firstFrom_and (p q : Nat → Bool) {k : Nat} (n : Nat) (hk : 1 ≤ k) :
    firstFrom (fun j => p j && q j) k n =
      if firstFrom p k n = 0 then 0
      else if q (firstFrom p k n) then firstFrom p k n
      else firstFrom (fun j => p j && q j) (firstFrom p k n + 1) n := by
  obtain ⟨m, hm⟩ : ∃ m, m = n - k := ⟨_, rfl⟩
  induction m generalizing k with
  | zero =>
    rw [firstFrom_of_le _ (by omega), firstFrom_of_le _ (by omega), if_pos rfl]
  | succ m ih =>
    have hlt : k < n := by omega
    rw [firstFrom_of_lt _ hlt, firstFrom_of_lt p hlt]
    cases hp : p k with
    | false => simpa using ih (by omega) (by omega)
    | true =>
      simp only [Bool.true_and, if_true]
      rw [if_neg (show k ≠ 0 by omega)]

/-! ## Filling -/

/-- The loop from entry `i` down to entry 1: each entry goes in front of its bucket's chain. -/
def fill (bucketOf : Nat → Nat) : Nat → List Nat × List Nat → List Nat × List Nat
  | 0, table => table
  | i + 1, (buckets, chains) =>
    let b := bucketOf (i + 1)
    fill bucketOf i (buckets.set b (i + 1), chains.set (i + 1) (buckets.getD b 0))

variable {bucketOf : Nat → Nat} {n : Nat}

/-- What there is once the entries from `k` on are in: for each bucket, and for each of these entries, the first entry
from there on. -/
structure Filled (bucketOf : Nat → Nat) (n k : Nat) (buckets chains : List Nat) : Prop where
  length : chains.length = n
  bucket : ∀ b < buckets.length, buckets.getD b 0 = firstFrom (fun j => bucketOf j == b) k n
  chain : ∀ i, k ≤ i → i < n → chains.getD i 0 = firstFrom (fun j => bucketOf j == bucketOf i) (i + 1) n

theorem filled_fill {k : Nat} {buckets chains : List Nat} (h : Filled bucketOf n (k + 1) buckets chains) (hk : k < n)
    (hb : ∀ j, bucketOf j < buckets.length) :
    (fill bucketOf k (buckets, chains)).1.length = buckets.length ∧
      Filled bucketOf n 1 (fill bucketOf k (buckets, chains)).1 (fill bucketOf k (buckets, chains)).2 := by
  induction k generalizing buckets chains with
  | zero => exact ⟨rfl, h⟩
  | succ k ih =>
    have hstep : Filled bucketOf n (k + 1) (buckets.set (bucketOf (k + 1)) (k + 1))
        (chains.set (k + 1) (buckets.getD (bucketOf (k + 1)) 0)) := by
      refine ⟨by rw [List.length_set, h.length], fun b hblt => ?_, fun i hki hin => ?_⟩
      · rw [List.length_set] at hblt
        rw [firstFrom_of_lt _ hk, List.getD_eq_getElem?_getD]
        by_cases hbeq : bucketOf (k + 1) = b
        · subst hbeq
          rw [List.getElem?_set_self hblt, if_pos (beq_self_eq_true _)]
          rfl
        · rw [List.getElem?_set_ne hbeq, ← List.getD_eq_getElem?_getD, h.bucket b hblt, if_neg (by simpa using hbeq)]
      · rw [List.getD_eq_getElem?_getD]
        by_cases hieq : k + 1 = i
        · subst hieq
          rw [List.getElem?_set_self (by rw [h.length]; exact hin), Option.getD_some, h.bucket _ (hb _)]
        · rw [List.getElem?_set_ne hieq, ← List.getD_eq_getElem?_getD, h.chain i (by omega) hin]
    obtain ⟨hlen, hfilled⟩ := ih hstep (by omega) (by simpa only [List.length_set] using hb)
    exact ⟨hlen.trans List.length_set, hfilled⟩

/-- A table that starts out empty. -/
theorem filled_new {m : Nat} (hn : 0 < n) (hb : ∀ j, bucketOf j < m) :
    (fill bucketOf (n - 1) (List.replicate m 0, List.replicate n 0)).1.length = m ∧
      Filled bucketOf n 1 (fill bucketOf (n - 1) (List.replicate m 0, List.replicate n 0)).1
        (fill bucketOf (n - 1) (List.replicate m 0, List.replicate n 0)).2 := by
  have hempty : Filled bucketOf n (n - 1 + 1) (List.replicate m 0) (List.replicate n 0) := by
    refine ⟨List.length_replicate, fun b hbm => ?_, fun i hi hin => by omega⟩
    rw [firstFrom_of_le _ (by omega), List.getD_eq_getElem?_getD, List.getElem?_replicate]
    split <;> rfl
  have hfill := filled_fill hempty (by omega) (by simpa only [List.length_replicate] using hb)
  rwa [List.length_replicate] at hfill

/-! ## Walking -/

/-- Along a chain from entry `i`. A chain longer than the fuel, or one that leaves the table, has no result. -/
def walk (matches_ : Nat → Bool) (next : Nat → Option Nat) : Nat → Nat → Option Nat
  | 0, _ => none
  | fuel + 1, i =>
    if i = 0 then some 0
    else if matches_ i then some i
    else
      match next i with
      | none => none
      | some i => walk matches_ next fuel i

/-- A walk along ascending chains finds the first entry of the bucket that matches. -/
theorem walk_eq {matches_ : Nat → Bool} {next : Nat → Option Nat} {b : Nat}
    (hnext : ∀ i, 1 ≤ i → i < n → bucketOf i = b → next i = some (firstFrom (fun j => bucketOf j == b) (i + 1) n))
    {fuel k : Nat} (hk : 1 ≤ k) (hfuel : n - k < fuel) :
    walk matches_ next fuel (firstFrom (fun j => bucketOf j == b) k n) =
      some (firstFrom (fun j => bucketOf j == b && matches_ j) k n) := by
  induction fuel generalizing k with
  | zero => omega
  | succ fuel ih =>
    rw [walk, firstFrom_and _ matches_ n hk]
    rcases firstFrom_cases (fun j => bucketOf j == b) k n with ⟨hnone, -⟩ | ⟨hle, hlt, hbucket⟩
    · rw [hnone, if_pos rfl, if_pos rfl]
    · have hne : firstFrom (fun j => bucketOf j == b) k n ≠ 0 := by omega
      rw [if_neg hne, if_neg hne]
      cases matches_ (firstFrom (fun j => bucketOf j == b) k n) with
      | true => rfl
      | false =>
        simp only [Bool.false_eq_true, if_false]
        rw [hnext _ (by omega) hlt (eq_of_beq hbucket)]
        exact ih (by omega) (by omega)

end HashChains
