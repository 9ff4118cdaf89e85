import Mathlib.Init

/-!
# Outcomes of programs that may throw

A program over `EStateM` ends in a result or an exception, and in either case
leaves a state behind. `Meets` says what holds of both; the rules follow the
program's own structure.
-/

namespace Outcome

variable {ε σ α β : Type}

/-- From `s`, the program ends in a result and a state that `Q` relates. -/
def Meets (x : EStateM ε σ α) (s : σ) (Q : Except ε α → σ → Prop) : Prop :=
  match x s with
  | .ok a s' => Q (.ok a) s'
  | .error e s' => Q (.error e) s'

variable {s s' : σ} {Q Q' : Except ε α → σ → Prop}

variable {x : EStateM ε σ α}

theorem Meets.mono (h : Meets x s Q) (hQ : ∀ r s', Q r s' → Q' r s') : Meets x s Q' := by
  unfold Meets at *
  split <;> simp_all

theorem Meets.and (h : Meets x s Q) (h' : Meets x s Q') : Meets x s fun r s' => Q r s' ∧ Q' r s' := by
  unfold Meets at *
  split <;> simp_all

variable {a : α} {e : ε}

theorem meets_pure (h : Q (.ok a) s) : Meets (pure a : EStateM ε σ α) s Q := h

theorem meets_throw (h : Q (.error e) s) : Meets (throw e : EStateM ε σ α) s Q := h

theorem meets_bind {x : EStateM ε σ β} {f : β → EStateM ε σ α}
    (h : Meets x s fun r s' =>
      match r with
      | .ok b => Meets (f b) s' Q
      | .error e => Q (.error e) s') :
    Meets (x >>= f) s Q := by
  unfold Meets at *
  change match EStateM.bind x f s with | .ok a s' => _ | .error e s' => _
  unfold EStateM.bind
  split at h <;> rename_i hx <;> simpa only [hx] using h

theorem meets_get {f : σ → EStateM ε σ α} (h : Meets (f s) s Q) : Meets (get >>= f) s Q := h

theorem meets_set {Q : Except ε PUnit → σ → Prop} (h : Q (.ok ⟨⟩) s') : Meets (set s' : EStateM ε σ PUnit) s Q := h

theorem meets_modify {Q : Except ε PUnit → σ → Prop} {g : σ → σ} (h : Q (.ok ⟨⟩) (g s)) :
    Meets (modify g : EStateM ε σ PUnit) s Q := h

theorem meets_modifyGet {f : σ → α × σ} (h : Q (.ok (f s).1) (f s).2) :
    Meets (modifyGet f : EStateM ε σ α) s Q := h

/-- What a program that meets `Q` ended in. -/
theorem Meets.ok (h : Meets x s Q) (hx : x s = .ok a s') : Q (.ok a) s' := by
  simpa only [Meets, hx] using h

theorem Meets.error (h : Meets x s Q) (hx : x s = .error e s') : Q (.error e) s' := by
  simpa only [Meets, hx] using h

/-! ## Runs from a known state -/

@[simp] theorem get_bind_apply (f : σ → EStateM ε σ α) : (get >>= f) s = f s s := rfl

@[simp] theorem set_bind_apply (f : PUnit → EStateM ε σ α) : (set s' >>= f) s = f ⟨⟩ s' := rfl

@[simp] theorem map_set_apply (g : PUnit → α) : (g <$> (set s' : EStateM ε σ PUnit)) s = .ok (g ⟨⟩) s' := rfl

@[simp] theorem pure_bind_apply (b : β) (f : β → EStateM ε σ α) : ((pure b : EStateM ε σ β) >>= f) s = f b s := rfl

@[simp] theorem throw_bind_apply (e : ε) (f : β → EStateM ε σ α) :
    ((throw e : EStateM ε σ β) >>= f) s = .error e s := rfl

@[simp] theorem pure_apply (a : α) : (pure a : EStateM ε σ α) s = .ok a s := rfl

@[simp] theorem throw_apply (e : ε) : (throw e : EStateM ε σ α) s = .error e s := rfl

theorem bind_apply_ok {x : EStateM ε σ β} {b : β} (h : x s = .ok b s') (f : β → EStateM ε σ α) :
    (x >>= f) s = f b s' := by
  change EStateM.bind x f s = _
  simp only [EStateM.bind, h]

theorem bind_apply_error {x : EStateM ε σ β} (h : x s = .error e s') (f : β → EStateM ε σ α) :
    (x >>= f) s = .error e s' := by
  change EStateM.bind x f s = _
  simp only [EStateM.bind, h]

/-! ## Programs that return -/

/-- From `s`, the program returns a value and a state that `P` relates. -/
def Returns (x : EStateM ε σ α) (s : σ) (P : α → σ → Prop) : Prop := ∃ a s', x s = .ok a s' ∧ P a s'

variable {P P' : α → σ → Prop}

theorem Returns.mono (h : Returns x s P) (hP : ∀ a s', P a s' → P' a s') : Returns x s P' := by
  obtain ⟨a, s', hx, h⟩ := h
  exact ⟨a, s', hx, hP a s' h⟩

theorem returns_pure (h : P a s) : Returns (pure a : EStateM ε σ α) s P := ⟨a, s, rfl, h⟩

theorem returns_bind {x : EStateM ε σ β} {f : β → EStateM ε σ α} (h : Returns x s fun b s' => Returns (f b) s' P) :
    Returns (x >>= f) s P := by
  obtain ⟨b, s', hx, a, s'', hf, h⟩ := h
  exact ⟨a, s'', (bind_apply_ok hx f).trans hf, h⟩

theorem returns_get {f : σ → EStateM ε σ α} (h : Returns (f s) s P) : Returns (get >>= f) s P := h

theorem returns_modify {f : PUnit → EStateM ε σ α} {g : σ → σ} (h : Returns (f ⟨⟩) (g s) P) :
    Returns (modify g >>= f) s P := h

theorem returns_set {f : PUnit → EStateM ε σ α} (h : Returns (f ⟨⟩) s' P) : Returns (set s' >>= f) s P := h

end Outcome
