import Mathlib.Algebra.Order.Group.Nat
import Mathlib.Data.List.Basic
import Mathlib.Order.Basic

/-!
# Padding

Numbers rounded up to alignments, and pieces placed one after another, each at
the next place that is aligned for it. Alignments 0 and 1 ask for nothing.
-/

namespace Padding

/-- `n` is a place for something with the alignment. -/
def Aligned (a n : Nat) : Prop := a < 2 ∨ a ∣ n

def alignUp (n a : Nat) : Nat := if a < 2 then n else (n + (a - 1)) / a * a

theorem alignUp_of_small {a : Nat} (h : a < 2) (n : Nat) : alignUp n a = n := if_pos h

variable (n a : Nat) (start : Nat)

theorem le_alignUp : n ≤ alignUp n a := by
  unfold alignUp
  split
  · exact le_rfl
  · have hdiv := Nat.div_add_mod (n + (a - 1)) a
    have hmod := Nat.mod_lt (n + (a - 1)) (show 0 < a by omega)
    rw [Nat.mul_comm] at hdiv
    omega

theorem alignUp_lt : alignUp n a < n + max 1 a := by
  unfold alignUp
  split
  · omega
  · have hdiv := Nat.div_mul_le_self (n + (a - 1)) a
    omega

theorem aligned_alignUp : Aligned a (alignUp n a) := by
  unfold alignUp
  split
  · next h => exact .inl h
  · exact .inr (Nat.dvd_mul_left _ _)

/-- The next aligned place is the only one closer than the alignment. -/
theorem alignUp_eq_iff {n a m : Nat} : alignUp n a = m ↔ Aligned a m ∧ n ≤ m ∧ m < n + max 1 a := by
  constructor
  · rintro rfl
    exact ⟨aligned_alignUp n a, le_alignUp n a, alignUp_lt n a⟩
  · rintro ⟨haligned, hle, hlt⟩
    have hle' := le_alignUp n a
    have hlt' := alignUp_lt n a
    rcases haligned with hsmall | hdvd
    · omega
    · rcases aligned_alignUp n a with hsmall | hdvd'
      · omega
      · by_contra hne
        rcases Nat.lt_or_gt_of_ne hne with h | h
        · have := Nat.le_of_dvd (by omega) (Nat.dvd_sub hdvd hdvd')
          omega
        · have := Nat.le_of_dvd (by omega) (Nat.dvd_sub hdvd' hdvd)
          omega

theorem alignUp_of_aligned {n a : Nat} (h : Aligned a n) : alignUp n a = n :=
  alignUp_eq_iff.mpr ⟨h, le_rfl, by omega⟩

theorem Aligned.add {a m n : Nat} (hm : Aligned a m) (hn : Aligned a n) : Aligned a (m + n) := by
  rcases hm with h | hm
  · exact .inl h
  · exact hn.imp_right fun hn => Nat.dvd_add hm hn

/-- What is aligned for a multiple is aligned. -/
theorem Aligned.trans {a b n : Nat} (hb : Aligned b n) (hab : Aligned a b) (hle : b < 2 → a < 2) : Aligned a n := by
  rcases hb with hb | hb
  · exact .inl (hle hb)
  · exact hab.imp_right fun hab => Nat.dvd_trans hab hb

/-- Rounding is relative to an aligned place. -/
theorem alignUp_add {a m : Nat} (hm : Aligned a m) (n : Nat) : alignUp (m + n) a = m + alignUp n a := by
  refine alignUp_eq_iff.mpr ⟨hm.add (aligned_alignUp n a), ?_, ?_⟩
  · have := le_alignUp n a
    omega
  · have := alignUp_lt n a
    omega

/-! ## Pieces one after another -/

/-- Where pieces of these sizes and alignments begin, from `start` on. -/
def places : Nat → List (Nat × Nat) → List Nat
  | _, [] => []
  | start, (size, a) :: pieces => alignUp start a :: places (alignUp start a + size) pieces

/-- Where the last of them ends. -/
def extent : Nat → List (Nat × Nat) → Nat
  | start, [] => start
  | start, (size, a) :: pieces => extent (alignUp start a + size) pieces

@[simp] theorem length_places (pieces : List (Nat × Nat)) : (places start pieces).length = pieces.length := by
  induction pieces generalizing start with
  | nil => rfl
  | cons piece pieces ih => simp [places, ih]

theorem le_extent (pieces : List (Nat × Nat)) : start ≤ extent start pieces := by
  induction pieces generalizing start with
  | nil => exact le_rfl
  | cons piece pieces ih =>
    have := le_alignUp start piece.2
    have := ih (alignUp start piece.2 + piece.1)
    change start ≤ extent (alignUp start piece.2 + piece.1) pieces
    omega

/-- Every piece is at an aligned place and ends before the next one begins, and the last before the end. -/
theorem places_spec {pieces : List (Nat × Nat)} {i size a : Nat} (h : pieces[i]? = some (size, a)) :
    ∃ place, (places start pieces)[i]? = some place ∧ start ≤ place ∧ Aligned a place ∧
      place + size ≤ extent start pieces ∧ ∀ size' a', pieces[i + 1]? = some (size', a') →
        (places start pieces)[i + 1]? = some (alignUp (place + size) a') := by
  induction pieces generalizing start i with
  | nil => cases h
  | cons piece pieces ih =>
    cases i with
    | zero =>
      rw [List.getElem?_cons_zero, Option.some.injEq] at h
      subst h
      refine ⟨_, rfl, le_alignUp start a, aligned_alignUp start a, le_extent _ _, fun size' a' h' => ?_⟩
      rw [List.getElem?_cons_succ] at h'
      cases pieces with
      | nil => cases h'
      | cons piece' pieces =>
        rw [List.getElem?_cons_zero, Option.some.injEq] at h'
        subst h'
        rfl
    | succ i =>
      obtain ⟨place, hplace, hstart, hrest⟩ := @ih (alignUp start piece.2 + piece.1) i h
      have := le_alignUp start piece.2
      exact ⟨place, hplace, by omega, hrest⟩

/-- A later piece is at a later place. -/
theorem places_mono {pieces : List (Nat × Nat)} {i j place place' : Nat} (h : i ≤ j)
    (hi : (places start pieces)[i]? = some place) (hj : (places start pieces)[j]? = some place') : place ≤ place' := by
  induction j, h using Nat.le_induction generalizing place' with
  | base => exact (Option.some_inj.mp (hi.symm.trans hj)).le
  | succ j _ ih =>
    have hlt := (List.getElem?_eq_some_iff.mp hj).1
    rw [length_places] at hlt
    obtain ⟨place'', hplace, -, -, -, hnext⟩ := places_spec start (List.getElem?_eq_getElem (show j < pieces.length by omega))
    rw [← Option.some_inj.mp ((hnext _ _ (List.getElem?_eq_getElem hlt)).symm.trans hj)]
    exact (ih hplace).trans ((Nat.le_add_right _ _).trans (le_alignUp _ _))

end Padding

/-! ## Writing pieces into a buffer

Pieces of data are copied to their places in a buffer, one after another. Where
no two of them overlap, each is there in the end. -/

namespace Patches

variable {α : Type}

/-- A place, and what goes there. -/
abbrev Patch (α : Type) := Nat × List α

/-- A piece that does not fit cannot be copied. -/
def patch (out : List α) (p : Patch α) : Option (List α) :=
  if p.1 + p.2.length ≤ out.length then some (out.take p.1 ++ (p.2 ++ out.drop (p.1 + p.2.length))) else none

def patchAll (out : List α) (ps : List (Patch α)) : Option (List α) := ps.foldlM patch out

/-- One of them ends before the other begins. -/
def Disjoint (p q : Patch α) : Prop := p.1 + p.2.length ≤ q.1 ∨ q.1 + q.2.length ≤ p.1

/-- The buffer has the piece at its place. -/
def Holds (out : List α) (p : Patch α) : Prop := ∀ i < p.2.length, out[p.1 + i]? = p.2[i]?

theorem patch_spec {out : List α} {p : Patch α} (h : p.1 + p.2.length ≤ out.length) :
    ∃ out', patch out p = some out' ∧ out'.length = out.length ∧ Holds out' p ∧
      ∀ k, k < p.1 ∨ p.1 + p.2.length ≤ k → out'[k]? = out[k]? := by
  have htake : (out.take p.1).length = p.1 := by rw [List.length_take]; omega
  refine ⟨_, if_pos h, ?_, fun i hi => ?_, fun k hk => ?_⟩
  · rw [List.length_append, List.length_append, List.length_drop, htake]
    omega
  · rw [List.getElem?_append_right (by omega), htake, Nat.add_sub_cancel_left, List.getElem?_append_left hi]
  · rcases hk with hk | hk
    · rw [List.getElem?_append_left (by omega), List.getElem?_take, if_pos hk]
    · rw [List.getElem?_append_right (by omega), htake, List.getElem?_append_right (by omega), List.getElem?_drop]
      congr 1
      omega

theorem Holds.keep {out out' : List α} {p q : Patch α} (h : Holds out q) (hdisjoint : Disjoint p q)
    (hout : ∀ k, k < p.1 ∨ p.1 + p.2.length ≤ k → out'[k]? = out[k]?) : Holds out' q := by
  intro i hi
  rw [← h i hi]
  refine hout _ ?_
  rcases hdisjoint with hd | hd <;> omega

/-- Pieces that fit and do not overlap are all there in the end. -/
theorem patchAll_holds {out : List α} {ps : List (Patch α)} (hfit : ∀ p ∈ ps, p.1 + p.2.length ≤ out.length)
    (hdisjoint : ps.Pairwise Disjoint) :
    ∃ out', patchAll out ps = some out' ∧ out'.length = out.length ∧ (∀ p ∈ ps, Holds out' p) ∧
      ∀ q : Patch α, Holds out q → (∀ p ∈ ps, Disjoint p q) → Holds out' q := by
  induction ps generalizing out with
  | nil => exact ⟨out, rfl, rfl, nofun, fun q hq _ => hq⟩
  | cons p ps ih =>
    rw [List.forall_mem_cons] at hfit
    rw [List.pairwise_cons] at hdisjoint
    obtain ⟨mid, hmid, hlen, hp, hkeep⟩ := patch_spec hfit.1
    obtain ⟨out', hout, hlen', hall, hrest⟩ := ih (by rw [hlen]; exact hfit.2) hdisjoint.2
    refine ⟨out', ?_, hlen'.trans hlen, ?_, fun q hq hpq => ?_⟩
    · rw [patchAll, List.foldlM_cons, hmid]
      exact hout
    · rw [List.forall_mem_cons]
      refine ⟨hrest p hp fun q hq => (hdisjoint.1 q hq).symm, hall⟩
    · rw [List.forall_mem_cons] at hpq
      exact hrest q (hq.keep hpq.1 hkeep) hpq.2

end Patches
