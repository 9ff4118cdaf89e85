import Mathlib.Data.List.Nodup
import Mathlib.Logic.Function.Basic

/-!
# Interleavings

Several parties act in turn, each with its own sequence of actions. A run
interleaves the sequences, whatever the order of the parties in it.
-/

namespace Interleaving

variable {T α β : Type}

/-- Actions of one party in a row. -/
def block (t : T) (seq : List α) : List (T × α) := seq.map fun a => (t, a)

/-- One party after the other. -/
def inTurn (seqs : T → List α) (order : List T) : List (T × α) := order.flatMap fun t => block t (seqs t)

/-- A run in which only some actions are seen, for what they are taken to be. -/
def project (f : α → Option β) (run : List (T × α)) : List (T × β) := run.filterMap fun p => (f p.2).map (Prod.mk p.1)

theorem mem_inTurn {seqs : T → List α} {order : List T} {p : T × α} :
    p ∈ inTurn seqs order ↔ p.1 ∈ order ∧ p.2 ∈ seqs p.1 := by
  obtain ⟨t, a⟩ := p
  rw [inTurn, List.mem_flatMap]
  constructor
  · rintro ⟨u, hu, hmem⟩
    obtain ⟨a, ha, heq⟩ := List.mem_map.mp hmem
    cases heq
    exact ⟨hu, ha⟩
  · rintro ⟨ht, ha⟩
    exact ⟨t, ht, List.mem_map.mpr ⟨a, ha, rfl⟩⟩

theorem mem_block {t : T} {seq : List α} {p : T × α} : p ∈ block t seq ↔ p.1 = t ∧ p.2 ∈ seq := by
  obtain ⟨u, a⟩ := p
  rw [block, List.mem_map]
  constructor
  · rintro ⟨a', ha, heq⟩
    cases heq
    exact ⟨rfl, ha⟩
  · rintro ⟨rfl, ha⟩
    exact ⟨a, ha, rfl⟩

@[simp] theorem project_append (f : α → Option β) (run run' : List (T × α)) :
    project f (run ++ run') = project f run ++ project f run' := List.filterMap_append

variable [DecidableEq T]

/-- The actions of one party in a run. -/
def actions (run : List (T × α)) (t : T) : List α := (run.filter fun p => p.1 = t).map Prod.snd

/-- Each party makes its own sequence of actions. -/
def Interleaves (run : List (T × α)) (seqs : T → List α) : Prop := ∀ t, actions run t = seqs t

variable {run run' : List (T × α)} {seqs : T → List α} {seq : List α} {order : List T} {t u : T} {a : α}

@[simp] theorem actions_nil (t : T) : actions ([] : List (T × α)) t = [] := rfl

@[simp] theorem actions_append (run run' : List (T × α)) (t : T) :
    actions (run ++ run') t = actions run t ++ actions run' t := by
  rw [actions, List.filter_append, List.map_append]
  rfl

theorem actions_cons (t : T) (a : α) (run : List (T × α)) (u : T) :
    actions ((t, a) :: run) u = if t = u then a :: actions run u else actions run u := by
  rw [actions, List.filter_cons]
  by_cases h : t = u <;> simp [h, actions]

@[simp] theorem actions_block (t : T) (seq : List α) (u : T) :
    actions (block t seq) u = if t = u then seq else [] := by
  induction seq with
  | nil => exact (ite_self _).symm
  | cons a seq ih =>
    rw [block, List.map_cons, actions_cons]
    by_cases h : t = u
    · rw [if_pos h] at ih
      rw [if_pos h, if_pos h]
      exact congrArg (a :: ·) ih
    · rw [if_neg h] at ih
      rw [if_neg h, if_neg h]
      exact ih

/-- One more action of a party. -/
theorem actions_concat (run : List (T × α)) (t : T) (a : α) :
    actions (run ++ [(t, a)]) = Function.update (actions run) t (actions run t ++ [a]) := by
  funext u
  rw [actions_append, actions_cons, actions_nil]
  by_cases h : t = u
  · subst h
    rw [if_pos rfl, Function.update_self]
  · rw [if_neg h, List.append_nil, Function.update_of_ne (Ne.symm h)]

theorem mem_actions : a ∈ actions run t ↔ (t, a) ∈ run := by
  simp [actions]

theorem actions_inTurn (hnodup : order.Nodup) (t : T) :
    actions (inTurn seqs order) t = if t ∈ order then seqs t else [] := by
  induction order with
  | nil => rfl
  | cons u order ih =>
    obtain ⟨hu, hnodup⟩ := List.nodup_cons.mp hnodup
    rw [inTurn, List.flatMap_cons, actions_append, actions_block]
    change _ ++ actions (inTurn seqs order) t = _
    rw [ih hnodup]
    by_cases h : u = t
    · subst h
      simp [hu]
    · simp [h, Ne.symm h]

theorem interleaves_inTurn (hnodup : order.Nodup) (hall : ∀ t, t ∈ order) : Interleaves (inTurn seqs order) seqs :=
  fun t => (actions_inTurn hnodup t).trans (if_pos (hall t))

/-- One party comes last, or first. -/
theorem interleaves_apart (hnodup : order.Nodup) (hall : ∀ t, t ∈ order) (t : T) :
    Interleaves (inTurn seqs (order.erase t) ++ block t (seqs t)) seqs ∧
      Interleaves (block t (seqs t) ++ inTurn seqs (order.erase t)) seqs := by
  refine ⟨fun u => ?_, fun u => ?_⟩
  all_goals
    have hmem : u ∈ order.erase t ↔ u ≠ t := hnodup.mem_erase_iff.trans (and_iff_left (hall u))
    rw [actions_append, actions_inTurn (hnodup.erase t), actions_block]
    by_cases hu : t = u
    · subst hu
      simp [hmem]
    · simp [hu, Ne.symm hu, hmem]

variable {f : α → Option β}

theorem actions_project (run : List (T × α)) (t : T) :
    actions (project f run) t = (actions run t).filterMap f := by
  induction run with
  | nil => rfl
  | cons p run ih =>
    obtain ⟨u, a⟩ := p
    have hcons : project f ((u, a) :: run) = ((f a).map (Prod.mk u)).toList ++ project f run := by
      cases hf : f a <;> simp [project, hf]
    rw [hcons, actions_append, actions_cons, ih]
    cases hf : f a with
    | none =>
      by_cases h : u = t <;> simp [h, hf]
    | some b =>
      by_cases h : u = t <;> simp [h, hf, actions_cons]

theorem Interleaves.project (h : Interleaves run seqs) :
    Interleaves (project f run) fun t => (seqs t).filterMap f :=
  fun t => (actions_project run t).trans (congrArg (List.filterMap f) (h t))

/-- Whatever order the actions seen are to come in, some run has them in it. -/
theorem exists_project (hnodup : order.Nodup) (hall : ∀ t, t ∈ order) {seen : List (T × β)}
    (h : Interleaves seen fun t => (seqs t).filterMap f) :
    ∃ run, Interleaves run seqs ∧ Interleaving.project f run = seen := by
  induction seen generalizing seqs with
  | nil =>
    refine ⟨inTurn seqs order, interleaves_inTurn hnodup hall, List.filterMap_eq_nil_iff.mpr fun p hp => ?_⟩
    obtain ⟨t, -, hp⟩ := List.mem_flatMap.mp hp
    obtain ⟨a, ha, rfl⟩ := List.mem_map.mp hp
    rw [List.filterMap_eq_nil_iff.mp (h t).symm a ha]
    rfl
  | cons p seen ih =>
    obtain ⟨t, b⟩ := p
    have ht := h t
    rw [actions_cons, if_pos rfl] at ht
    obtain ⟨before, a, rest, heq, hbefore, ha, hrest⟩ := List.filterMap_eq_cons_iff.mp ht.symm
    have hnext : Interleaves seen fun u => (Function.update seqs t rest u).filterMap f := by
      intro u
      change _ = List.filterMap f (Function.update seqs t rest u)
      by_cases hu : t = u
      · subst hu
        rw [Function.update_self]
        exact hrest.symm
      · have hactions := h u
        rw [actions_cons, if_neg hu] at hactions
        rw [Function.update_of_ne (Ne.symm hu)]
        exact hactions
    obtain ⟨run, hrun, hseen⟩ := ih hnext
    refine ⟨block t (before ++ [a]) ++ run, fun u => ?_, ?_⟩
    · rw [actions_append, actions_block, hrun u]
      by_cases hu : t = u
      · subst hu
        rw [if_pos rfl, Function.update_self, heq, List.append_assoc]
        rfl
      · rw [if_neg hu, Function.update_of_ne (Ne.symm hu)]
        rfl
    · have hnone : Interleaving.project f (block t before) = [] := by
        refine List.filterMap_eq_nil_iff.mpr fun p hp => ?_
        obtain ⟨a', ha', rfl⟩ := List.mem_map.mp hp
        rw [hbefore a' ha']
        rfl
      rw [project_append, hseen, block, List.map_append, project_append]
      change Interleaving.project f (block t before) ++ _ ++ _ = _
      rw [hnone]
      simp [Interleaving.project, ha]

/-- A run that goes no further than the sequences can be completed. -/
theorem exists_completion (hnodup : order.Nodup) (hall : ∀ t, t ∈ order) (h : ∀ t, actions run t <+: seqs t) :
    ∃ rest, Interleaves (run ++ rest) seqs := by
  refine ⟨inTurn (fun t => (seqs t).drop (actions run t).length) order, fun t => ?_⟩
  rw [actions_append, interleaves_inTurn hnodup hall]
  obtain ⟨tail, htail⟩ := h t
  rw [← htail, List.drop_left]

theorem Interleaves.append_nil (h : Interleaves run seqs) : Interleaves (run ++ []) seqs := by
  rw [List.append_nil]
  exact h

theorem Interleaves.isPrefix (h : Interleaves (run ++ run') seqs) (t : T) : actions run t <+: seqs t :=
  ⟨actions run' t, by rw [← h t, actions_append]⟩

/-- The start of a run with the actions seen that are to come first. -/
theorem exists_project_prefix (hnodup : order.Nodup) (hall : ∀ t, t ∈ order) {seen : List (T × β)}
    (h : ∀ t, actions seen t <+: (seqs t).filterMap f) :
    ∃ run rest, Interleaves (run ++ rest) seqs ∧ Interleaving.project f run = seen := by
  obtain ⟨unseen, hseen⟩ := exists_completion hnodup hall h
  obtain ⟨whole, hwhole, hproject⟩ := exists_project hnodup hall hseen
  obtain ⟨run, rest, rfl, hrun, -⟩ := List.filterMap_eq_append_iff.mp hproject
  exact ⟨run, rest, hwhole, hrun⟩

end Interleaving
