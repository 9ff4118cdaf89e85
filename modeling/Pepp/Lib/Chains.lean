import Mathlib.Order.Preorder.Finite
import Mathlib.Logic.Relation

/-!
# Chains of pointers

A value may point to another one. A chain of pointers ends at a value that
points to nothing, or reaches one that leads back to itself.
-/

namespace Chains

open Relation

variable {α : Type*} (next : α → Option α)

def Points (a b : α) : Prop := next a = some b

def Ends (a e : α) : Prop := ReflTransGen (Points next) a e ∧ next e = none

/-- The chain leads into a cycle. -/
def Looped (a : α) : Prop := ∃ t, ReflTransGen (Points next) a t ∧ TransGen (Points next) t t

/-- The end of a chain of less than `n` pointers. -/
def endWithin : Nat → α → Option α
  | 0, _ => none
  | n + 1, a =>
    match next a with
    | none => some a
    | some b => endWithin n b

variable {next} {a b e t : α}

theorem endWithin_end (h : next a = none) (n : Nat) : endWithin next (n + 1) a = some a := by
  rw [endWithin, h]

theorem endWithin_points (h : next a = some b) (n : Nat) : endWithin next (n + 1) a = endWithin next n b := by
  rw [endWithin, h]

theorem endWithin_mono {n m : Nat} (hle : n ≤ m) (h : endWithin next n a = some e) : endWithin next m a = some e := by
  induction n generalizing a m with
  | zero => cases h
  | succ n ih =>
    obtain ⟨m, rfl⟩ := Nat.exists_eq_add_of_lt (show 0 < m by omega)
    rw [Nat.zero_add] at hle ⊢
    cases hnext : next a with
    | none => rwa [endWithin_end hnext] at h ⊢
    | some b =>
      rw [endWithin_points hnext] at h ⊢
      exact ih (by omega) h

/-- Chains are followed to their ends. -/
theorem exists_endWithin_iff : (∃ n, endWithin next n a = some e) ↔ Ends next a e := by
  constructor
  · rintro ⟨n, h⟩
    induction n generalizing a with
    | zero => cases h
    | succ n ih =>
      cases hnext : next a with
      | none =>
        rw [endWithin_end hnext] at h
        obtain rfl := Option.some.inj h
        exact ⟨.refl, hnext⟩
      | some b =>
        rw [endWithin_points hnext] at h
        exact ⟨(ih h).1.head hnext, (ih h).2⟩
  · rintro ⟨hchain, hend⟩
    induction hchain using ReflTransGen.head_induction_on with
    | refl => exact ⟨1, endWithin_end hend 0⟩
    | head hnext _ ih =>
      obtain ⟨n, hn⟩ := ih
      exact ⟨n + 1, (endWithin_points hnext n).trans hn⟩

theorem exists_next (h : Looped next a) : ∃ b, next a = some b ∧ Looped next b := by
  obtain ⟨t, hchain, hcycle⟩ := h
  rcases hchain.cases_head with rfl | ⟨b, hb, hrest⟩
  · obtain ⟨b, hb, hrest⟩ := TransGen.head'_iff.mp hcycle
    exact ⟨b, hb, a, hrest, hcycle⟩
  · exact ⟨b, hb, t, hrest, hcycle⟩

/-- A chain that ends does not lead into a cycle. -/
theorem not_looped (h : Ends next a e) : ¬ Looped next a := by
  obtain ⟨hchain, hend⟩ := h
  induction hchain using ReflTransGen.head_induction_on with
  | refl =>
    intro hloop
    obtain ⟨b, hb, -⟩ := exists_next hloop
    rw [hend] at hb
    cases hb
  | head hnext _ ih =>
    intro hloop
    obtain ⟨b, hb, hrest⟩ := exists_next hloop
    obtain rfl := Option.some.inj (Eq.trans (Eq.symm hnext) hb)
    exact ih hrest

theorem transGen_steps {x : Nat → α} (h : ∀ n, Points next (x n) (x (n + 1))) {n m : Nat} (hlt : n < m) :
    TransGen (Points next) (x n) (x m) := by
  induction m, hlt using Nat.le_induction with
  | base => exact .single (h n)
  | succ m _ ih => exact ih.tail (h m)

/-- With finitely many pointers, a chain that does not end leads into a cycle. -/
theorem exists_ends (hfin : {a | next a ≠ none}.Finite) (h : ¬ Looped next a) : ∃ e, Ends next a e := by
  by_contra hno
  rw [not_exists] at hno
  have hsome : ∀ t, ReflTransGen (Points next) a t → ∃ b, next t = some b := fun t ht =>
    Option.ne_none_iff_exists'.mp fun hnone => hno t ⟨ht, hnone⟩
  let x : Nat → α := fun n => (fun t => (next t).getD t)^[n] a
  have hstep : ∀ n, ReflTransGen (Points next) a (x n) → Points next (x n) (x (n + 1)) := by
    intro n hn
    obtain ⟨b, hb⟩ := hsome _ hn
    have hsucc : x (n + 1) = (next (x n)).getD (x n) := Function.iterate_succ_apply' _ n a
    rw [Points, hsucc, hb]
    rfl
  have hreach : ∀ n, ReflTransGen (Points next) a (x n) := by
    intro n
    induction n with
    | zero => exact .refl
    | succ n ih => exact ih.tail (hstep n ih)
  have hin : ∀ n, x n ∈ {a | next a ≠ none} := fun n hnone => hno _ ⟨hreach n, hnone⟩
  obtain ⟨n, m, hlt, heq⟩ := Set.Finite.exists_lt_map_eq_of_forall_mem hin hfin
  have hcycle := transGen_steps (fun k => hstep k (hreach k)) hlt
  rw [← heq] at hcycle
  exact h ⟨x n, hreach n, hcycle⟩

end Chains
