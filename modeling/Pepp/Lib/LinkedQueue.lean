import Mathlib.Data.List.Basic
import Mathlib.Logic.Function.Basic

/-!
# First-in first-out queues threaded through their elements

Each element holds the key of the one behind it, and the queue is known by the
keys of its two ends. Pushing writes one link and popping reads one, and
neither looks at an element outside the queue.
-/

namespace LinkedQueue

variable {α : Type}

/-- Following `next` from `head` gives `l` and then `stop`. -/
def Path (next : α → α) (stop : α) : α → List α → Prop
  | head, [] => head = stop
  | head, i :: l => head = i ∧ i ≠ stop ∧ Path next stop (next i) l

/-- The queue from `head` to `tail`, front first, with no element twice. -/
structure Threads (next : α → α) (stop head tail : α) (l : List α) : Prop where
  path : Path next stop head l
  tail : tail = l.getLast?.getD stop
  nodup : l.Nodup

variable {next next' : α → α} {stop head tail i : α} {l l' : List α}

theorem Path.ne_stop (h : Path next stop head l) (hi : i ∈ l) : i ≠ stop := by
  induction l generalizing head with
  | nil => simp at hi
  | cons j l ih =>
    rcases List.mem_cons.mp hi with rfl | hi
    · exact h.2.1
    · exact ih h.2.2 hi

/-- The links of elements outside the queue do not matter. -/
theorem Path.congr (h : Path next stop head l) (hn : ∀ i ∈ l, next' i = next i) : Path next' stop head l := by
  induction l generalizing head with
  | nil => exact h
  | cons j l ih =>
    refine ⟨h.1, h.2.1, ?_⟩
    rw [hn j (by simp)]
    exact ih h.2.2 fun i hi => hn i (by simp [hi])

/-- Link `i` behind the last element of a queue that is not empty. -/
theorem Path.append [DecidableEq α] (h : Path next stop head l) (hn : l.Nodup) (hl : l ≠ []) (hi : i ∉ l) (hs : i ≠ stop)
    (hend : next i = stop) : Path (Function.update next (l.getLast hl) i) stop head (l ++ [i]) := by
  induction l generalizing head with
  | nil => exact absurd rfl hl
  | cons j l ih =>
    obtain ⟨rfl, hj, h⟩ := h
    have hij : i ≠ head := fun he => hi (by simp [he])
    cases l with
    | nil =>
      refine ⟨rfl, hj, ?_⟩
      simp only [List.getLast_singleton, Function.update_self]
      refine ⟨rfl, hs, ?_⟩
      rw [Function.update_of_ne hij, hend]
      rfl
    | cons k l =>
      have hlast : head ≠ (k :: l).getLast (by simp) := by
        intro he
        exact (List.nodup_cons.mp hn).1 (he ▸ List.getLast_mem _)
      refine ⟨rfl, hj, ?_⟩
      rw [List.getLast_cons (by simp), Function.update_of_ne hlast]
      exact ih h (List.nodup_cons.mp hn).2 (by simp) (fun hm => hi (by simp [hm]))

theorem Threads.congr (h : Threads next stop head tail l) (hn : ∀ i ∈ l, next' i = next i) :
    Threads next' stop head tail l :=
  ⟨h.path.congr hn, h.tail, h.nodup⟩

theorem threads_nil : Threads next stop stop stop [] := ⟨rfl, rfl, List.nodup_nil⟩

theorem Threads.head_eq_stop (h : Threads next stop head tail l) : head = stop ↔ l = [] := by
  cases l with
  | nil => exact ⟨fun _ => rfl, fun _ => h.path⟩
  | cons i l =>
    obtain ⟨rfl, hs, -⟩ := h.path
    simp [hs]

theorem Threads.tail_eq_stop (h : Threads next stop head tail l) : tail = stop ↔ l = [] := by
  rw [h.tail]
  cases hl : l.getLast? with
  | none => simpa using hl
  | some i =>
    have hi := List.mem_of_getLast? hl
    have hne := h.path.ne_stop hi
    simp only [Option.getD_some, hne, false_iff]
    rintro rfl
    simp at hi

/-- Taking the front element moves the head to its link. -/
theorem Threads.pop [DecidableEq α] (h : Threads next stop head tail (i :: l)) :
    head = i ∧ Threads next stop (next i) (if next i = stop then stop else tail) l := by
  obtain ⟨rfl, -, hp⟩ := h.path
  refine ⟨rfl, hp, ?_, (List.nodup_cons.mp h.nodup).2⟩
  cases l with
  | nil =>
    have hp : next head = stop := hp
    rw [if_pos hp, List.getLast?_nil, Option.getD_none]
  | cons j l =>
    rw [if_neg (by rw [hp.1]; exact hp.2.1), h.tail, List.getLast?_cons_cons]

/-- One element whose link is closed is both ends. -/
theorem threads_singleton (hs : i ≠ stop) (hend : next i = stop) : Threads next stop i i [i] :=
  ⟨⟨rfl, hs, hend⟩, by simp, by simp⟩

/-- Putting an element behind a queue that is not empty writes the link of its tail. -/
theorem Threads.push [DecidableEq α] (h : Threads next stop head tail l) (hl : l ≠ []) (hi : i ∉ l) (hs : i ≠ stop)
    (hend : next i = stop) : Threads (Function.update next tail i) stop head i (l ++ [i]) := by
  have htail : tail = l.getLast hl := by rw [h.tail, List.getLast?_eq_some_getLast hl, Option.getD_some]
  refine ⟨htail ▸ h.path.append h.nodup hl hi hs hend, by simp, ?_⟩
  rw [List.nodup_append]
  exact ⟨h.nodup, by simp, by rintro a ha b hb rfl; exact hi (by simpa using List.mem_singleton.mp hb ▸ ha)⟩

end LinkedQueue
