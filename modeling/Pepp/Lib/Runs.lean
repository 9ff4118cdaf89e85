import Mathlib.Init

/-!
# Runs of fallible steps

A step either yields the next state or fails, and a run stops at the first
failure. Two steps that keep a relation, as long as a condition holds, keep it
over whole runs.
-/

namespace Runs

variable {ε σ τ : Type}

/-- Take apart a successful computation that starts with another one. -/
theorem bind_ok {α β : Type} {x : Except ε α} {f : α → Except ε β} {b : β} :
    (x >>= f) = .ok b ↔ ∃ a, x = .ok a ∧ f a = .ok b := by
  cases x <;> simp [bind, Except.bind]

theorem pure_ok {α : Type} {a b : α} : (pure a : Except ε α) = .ok b ↔ a = b := by
  simp [pure, Except.pure]

/-- Two steps with an output each, the second of which goes on from what the first one leaves. -/
theorem append_ok {α β : Type} {x : Except ε (σ × List α)} {f : σ × List α → Except ε (β × List α)} {r : β × List α} :
    (x >>= fun mid => f mid >>= fun rest => pure (rest.1, mid.2 ++ rest.2)) = .ok r ↔
      ∃ mid rest, x = .ok mid ∧ f mid = .ok rest ∧ r = (rest.1, mid.2 ++ rest.2) := by
  rw [bind_ok]
  refine exists_congr fun mid => (and_congr_right fun _ => ?_).trans exists_and_left.symm
  rw [bind_ok]
  exact exists_congr fun rest => and_congr_right fun _ => pure_ok.trans eq_comm

/-- `n` steps in a row. -/
def run (step : σ → Except ε σ) : Nat → σ → Except ε σ
  | 0, a => .ok a
  | n + 1, a => step a >>= run step n

/-- `P` holds of every state that takes a step in a run of `n` steps. -/
def Along (step : σ → Except ε σ) (P : σ → Prop) : Nat → σ → Prop
  | 0, _ => True
  | n + 1, a => P a ∧ ∀ a', step a = .ok a' → Along step P n a'

theorem run_succ {step : σ → Except ε σ} {n : Nat} {a b : σ} :
    run step (n + 1) a = .ok b ↔ ∃ a', step a = .ok a' ∧ run step n a' = .ok b := bind_ok

/-- Each step of a successful fold succeeds. -/
theorem exists_step {α : Type} {f : σ → α → Except ε σ} {l : List α} {s r : σ} (h : l.foldlM f s = .ok r) :
    ∀ x ∈ l, ∃ s' r', f s' x = .ok r' := by
  induction l generalizing s with
  | nil => exact fun _ hx => absurd hx List.not_mem_nil
  | cons x l ih =>
    rw [List.foldlM_cons, bind_ok] at h
    obtain ⟨s', hs', h⟩ := h
    exact List.forall_mem_cons.mpr ⟨⟨s, s', hs'⟩, ih h⟩

/-- Two systems that keep `R` in one step wherever `P` holds keep it over runs of equal length. -/
theorem lockstep {step : σ → Except ε σ} {step' : τ → Except ε τ} {R : σ → τ → Prop} {P : σ → Prop}
    (h : ∀ a b a' b', R a b → P a → step a = .ok a' → step' b = .ok b' → R a' b') (n : Nat) {a a' : σ} {b b' : τ}
    (hR : R a b) (hP : Along step P n a) (ha : run step n a = .ok a') (hb : run step' n b = .ok b') : R a' b' := by
  induction n generalizing a b with
  | zero =>
    cases ha
    cases hb
    exact hR
  | succ n ih =>
    obtain ⟨a₁, ha₁, ha⟩ := run_succ.mp ha
    obtain ⟨b₁, hb₁, hb⟩ := run_succ.mp hb
    exact ih (h a b a₁ b₁ hR hP.1 ha₁ hb₁) (hP.2 a₁ ha₁) ha hb

end Runs

/-! ## Programs that carry a state

What a program over `StateM` does in a state, one rule for each way programs are
put together. -/

namespace States

variable {σ α β : Type} (s : σ)

theorem bind_apply (x : StateM σ α) (f : α → StateM σ β) : (x >>= f) s = f (x s).1 (x s).2 := rfl

theorem map_apply (f : α → β) (x : StateM σ α) : (f <$> x) s = (f (x s).1, (x s).2) := rfl

theorem pure_apply (a : α) : (pure a : StateM σ α) s = (a, s) := rfl

theorem get_apply : (get : StateM σ σ) s = (s, s) := rfl

theorem modify_apply (f : σ → σ) : (modify f : StateM σ PUnit) s = (⟨⟩, f s) := rfl

theorem ite_apply (p : Prop) [Decidable p] (x y : StateM σ α) : (if p then x else y) s = if p then x s else y s := by
  split <;> rfl

theorem bind_eq {x : StateM σ α} {a : α} {s s' : σ} (h : x s = (a, s')) (f : α → StateM σ β) :
    (x >>= f) s = f a s' := by
  rw [bind_apply, h]

theorem get_bind_apply (f : σ → StateM σ α) : (get >>= f) s = f s s := rfl

theorem modify_bind_apply (f : σ → σ) (g : PUnit → StateM σ α) : (modify f >>= g) s = g ⟨⟩ (f s) := rfl

end States
