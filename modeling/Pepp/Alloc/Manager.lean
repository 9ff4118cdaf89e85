import Pepp.Alloc.PageChain

/-!
# What allocation and freeing leave unchanged

An id is live when the manager resolves it. Allocation makes one id live that
was not, freeing kills one, and neither touches the bytes behind any other.
-/

namespace Pepp.Bts.BufferManager

open Span

variable {mgr mgr' : BufferManager} {id id' : ID}

/-- The ids that resolve to a buffer. -/
def Live (mgr : BufferManager) (id : ID) : Prop :=
  0 < id.indexOf ∧ id.indexOf < mgr.size ∧ (mgr.slots id.indexOf).live = true ∧
    (mgr.slots id.indexOf).generation = id.generationOf

/-- A live id is determined by its index. -/
theorem Live.ext (h : mgr.Live id) (h' : mgr.Live id') (hi : id.indexOf = id'.indexOf) : id = id' := by
  have hg : id.generationOf = id'.generationOf := by rw [← h.2.2.2, ← h'.2.2.2, hi]
  calc id = ID.makeId id.indexOf id.generationOf := (ID.makeId_eq rfl rfl).symm
    _ = id' := ID.makeId_eq hi.symm hg.symm

theorem Live.ne_zero (h : mgr.Live id) : id ≠ 0 := by
  rintro rfl
  exact absurd h.1 (by simp [ID.indexOf])

/-- Well-formedness of the slot table and the free list. -/
structure Wf (mgr : BufferManager) : Prop where
  size_le : mgr.size ≤ 4096
  free : ∀ i ∈ mgr.free, 0 < i ∧ i < mgr.size ∧ (mgr.slots i).live = false ∧ (mgr.slots i).storage.used = 0
  nodup : mgr.free.Nodup
  generation : ∀ i, (mgr.slots i).generation < 16
  used : ∀ i, (mgr.slots i).storage.used ≤ SIZE

theorem wf_empty : Wf empty := by
  constructor <;> simp [empty]

/-- How many more buffers the manager can hand out. -/
def available (mgr : BufferManager) : Nat := mgr.free.length + (4096 - max 1 mgr.size)

/-- Allocation makes exactly one id live, over an empty buffer, and changes nothing else. -/
structure Allocated (mgr : BufferManager) (id : ID) (mgr' : BufferManager) : Prop where
  fresh : ¬ mgr.Live id
  live : ∀ j, mgr'.Live j ↔ j = id ∨ mgr.Live j
  used : (mgr'.deref id).used = 0
  frame : ∀ j, mgr.Live j → mgr'.deref j = mgr.deref j
  wf : mgr'.Wf
  available : mgr'.available + 1 = mgr.available

/-- Putting a live slot over a dead index makes the id of that slot live and no other. -/
theorem live_activate {index g size' : Nat} {b : Buffer} {l : List Nat} (hi : 0 < index)
    (hg : g < 16) (hi' : index < size') (hs : size' ≤ 4096) (hle : mgr.size ≤ size')
    (hgap : ∀ i, 0 < i → i < size' → i ≠ index → i < mgr.size)
    (hdead : index < mgr.size → (mgr.slots index).live = false) (j : ID) :
    ({ mgr.setSlot index ⟨true, g, b⟩ with size := size', free := l } : BufferManager).Live j ↔
      j = ID.makeId index g ∨ mgr.Live j := by
  have hidx : (ID.makeId index g).indexOf = index := ID.indexOf_makeId (by omega)
  have hgen : (ID.makeId index g).generationOf = g := ID.generationOf_makeId hg
  by_cases hj : j.indexOf = index
  · have hnot : ¬ mgr.Live j := by
      rintro ⟨-, hlt, hl, -⟩
      rw [hj] at hlt hl
      rw [hdead hlt] at hl
      contradiction
    rw [or_iff_left hnot]
    simp only [Live, setSlot, hj, if_true]
    constructor
    · rintro ⟨-, -, -, hgj⟩
      exact (ID.makeId_eq hj hgj.symm).symm
    · rintro rfl
      exact ⟨hi, hi', trivial, hgen.symm⟩
  · have hne : j ≠ ID.makeId index g := fun h => hj (h ▸ hidx)
    simp only [Live, setSlot, hj, if_false, hne, false_or]
    constructor
    · rintro ⟨h₁, h₂, h₃⟩
      exact ⟨h₁, hgap _ h₁ h₂ hj, h₃⟩
    · rintro ⟨h₁, h₂, h₃⟩
      exact ⟨h₁, by omega, h₃⟩

theorem allocBuffer_cons {i : Nat} {l : List Nat} (h : mgr.free = i :: l) :
    mgr.allocBuffer = .ok (ID.makeId i (mgr.slots i).generation,
      { mgr.setSlot i { mgr.slots i with live := true } with free := l }) := by
  rw [allocBuffer, h]

theorem freeBuffer_of_live (h : mgr.Live id) : mgr.freeBuffer id =
    { mgr.setSlot id.indexOf
        { live := false, generation := ((mgr.slots id.indexOf).generation + 1) % 16,
          storage := { (mgr.slots id.indexOf).storage with used := 0 } } with free := mgr.free ++ [id.indexOf] } := by
  obtain ⟨hi, hlt, hlive, hgen⟩ := h
  unfold freeBuffer
  rw [if_neg (by omega)]
  simp [hlive, hgen]

/-- Freeing an id that does not resolve changes nothing. -/
theorem freeBuffer_of_dead (h : ¬ mgr.Live id) : mgr.freeBuffer id = mgr := by
  unfold freeBuffer
  by_cases hi : id.indexOf = 0 ∨ mgr.size ≤ id.indexOf
  · rw [if_pos hi]
  · rw [if_neg hi]
    dsimp only
    split
    · rfl
    · rename_i hl
      simp only [Bool.not_eq_true', ne_eq, not_or, not_not, Bool.not_eq_false] at hl
      exact absurd ⟨by omega, by omega, hl.1, hl.2⟩ h

theorem allocBuffer_ok (h : mgr.Wf) (ha : mgr.allocBuffer = .ok (id, mgr')) : Allocated mgr id mgr' := by
  unfold allocBuffer at ha
  have hsize := h.size_le
  cases hf : mgr.free with
  | cons index free =>
    rw [hf] at ha
    obtain ⟨rfl, rfl⟩ := Prod.mk.inj (Except.ok.inj ha)
    obtain ⟨hi, hlt, hdead, hused⟩ := h.free index (by simp [hf])
    have hn := h.nodup
    rw [hf, List.nodup_cons] at hn
    have hidx : (ID.makeId index (mgr.slots index).generation).indexOf = index := ID.indexOf_makeId (by omega)
    have hlive := live_activate (b := (mgr.slots index).storage) (l := free) hi
      (h.generation index) hlt hsize (Nat.le_refl _) (fun i _ hi _ => hi) (fun _ => hdead)
    refine ⟨?_, hlive, ?_, ?_, ⟨hsize, ?_, hn.2, ?_, ?_⟩, ?_⟩
    · rintro ⟨-, -, hl, -⟩
      rw [hidx, hdead] at hl
      contradiction
    · simpa [deref, setSlot, hidx] using hused
    · intro j hj
      have hne : j.indexOf ≠ index := by
        rintro rfl
        have := hj.2.2.1
        rw [hdead] at this
        contradiction
      simp [deref, setSlot, hne]
    · intro i hi
      have hne : i ≠ index := fun he => hn.1 (he ▸ hi)
      simpa [setSlot, hne] using h.free i (by simp [hf, hi])
    · intro i
      by_cases he : i = index <;> simp [setSlot, he, h.generation]
    · intro i
      by_cases he : i = index <;> simp [setSlot, he, h.used]
    · simp [available, setSlot, hf]
      omega
  | nil =>
    rw [hf] at ha
    dsimp only at ha
    split at ha
    · contradiction
    · rename_i hmax
      simp only [MAX_LIVE_BUFFERS, Nat.not_lt] at hmax
      obtain ⟨rfl, rfl⟩ := Prod.mk.inj (Except.ok.inj ha)
      generalize hindex : (if mgr.size = 0 then 1 else mgr.size) = index
      have hi : 0 < index ∧ index < 4096 ∧ mgr.size ≤ index ∧ ∀ i, 0 < i → i < index + 1 → i ≠ index → i < mgr.size := by
        split at hindex <;> refine ⟨by omega, by omega, by omega, by omega⟩
      have hidx : (ID.makeId index 0).indexOf = index := ID.indexOf_makeId hi.2.1
      have hlive := live_activate (b := ⟨0, fun _ => 0⟩) (l := mgr.free) (g := 0) hi.1
        (by omega) (Nat.lt_succ_self index) (by omega) (by omega) hi.2.2.2 (by omega)
      refine ⟨?_, hlive, ?_, ?_, ⟨?_, ?_, h.nodup, ?_, ?_⟩, ?_⟩
      · rintro ⟨-, hlt, -⟩
        rw [hidx] at hlt
        omega
      · simp [deref, setSlot, hidx]
      · intro j hj
        have hne : j.indexOf ≠ index := by
          rintro he
          have := hj.2.1
          omega
        simp [deref, setSlot, hne]
      · simp only
        omega
      · simp [setSlot, hf]
      · intro i
        by_cases he : i = index <;> simp [setSlot, he, h.generation]
      · intro i
        by_cases he : i = index <;> simp [setSlot, he, h.used]
      · simp only [available, setSlot, hf, List.length_nil]
        split at hindex <;> omega

theorem allocBuffer_eq_ok (h : mgr.Wf) : (∃ r, mgr.allocBuffer = .ok r) ↔ 0 < mgr.available := by
  have hsize := h.size_le
  unfold allocBuffer available
  cases mgr.free with
  | cons index free => exact iff_of_true ⟨_, rfl⟩ (by rw [List.length_cons]; omega)
  | nil =>
    simp only [MAX_LIVE_BUFFERS, List.length_nil]
    by_cases hmax : mgr.size > 4095
    · simp [hmax]
      omega
    · simp [hmax]
      omega

/-- Freeing a live id kills it and no other, and leaves every byte where it was. -/
structure Freed (mgr : BufferManager) (id : ID) (mgr' : BufferManager) : Prop where
  live : ∀ j, mgr'.Live j ↔ j ≠ id ∧ mgr.Live j
  frame : ∀ j, j ≠ id → mgr.Live j → mgr'.deref j = mgr.deref j
  wf : mgr'.Wf
  available : mgr'.available = mgr.available + 1

theorem freeBuffer_live (h : mgr.Wf) (hl : mgr.Live id) : Freed mgr id (mgr.freeBuffer id) := by
  rw [freeBuffer_of_live hl]
  obtain ⟨hi, hlt, hlive, hgen⟩ := hl
  have hsame : ∀ j, mgr.Live j → j.indexOf = id.indexOf → j = id := fun j hj he =>
    hj.ext ⟨hi, hlt, hlive, hgen⟩ he
  refine ⟨fun j => ?_, fun j hne hj => ?_, ⟨h.size_le, ?_, ?_, ?_, ?_⟩, ?_⟩
  · by_cases hj : j.indexOf = id.indexOf
    · simp only [Live, setSlot, hj, if_true]
      constructor
      · rintro ⟨-, -, hf, -⟩
        contradiction
      · rintro ⟨hne, hj'⟩
        exact absurd (hsame j ⟨hj ▸ hi, hj ▸ hlt, hj ▸ hlive, by rw [hj]; exact hj'.2.2.2⟩ hj) hne
    · have hne : j ≠ id := fun he => hj (he ▸ rfl)
      simp [Live, setSlot, hj, hne]
  · have hj' : j.indexOf ≠ id.indexOf := fun he => hne (hsame j hj he)
    simp [deref, setSlot, hj']
  · intro i hi'
    rw [List.mem_append, List.mem_singleton] at hi'
    by_cases he : i = id.indexOf
    · subst he
      simp [setSlot, hi, hlt]
    · rcases hi' with hi' | hi'
      · simpa [setSlot, he] using h.free i hi'
      · contradiction
  · rw [List.nodup_append]
    refine ⟨h.nodup, by simp, ?_⟩
    rintro i hi' j hj rfl
    rw [List.mem_singleton] at hj
    subst hj
    have := (h.free _ hi').2.2.1
    rw [hlive] at this
    contradiction
  · intro i
    by_cases he : i = id.indexOf <;> simp [setSlot, he, h.generation]
    omega
  · intro i
    by_cases he : i = id.indexOf <;> simp [setSlot, he, h.used]
  · simp only [BufferManager.available, setSlot, List.length_append, List.length_singleton]
    omega

end Pepp.Bts.BufferManager
