import Pepp.Tvm.Session

/-!
# The ring over whole runs

In every state a run can reach, the ring is a window of at most as many slots as
it has nodes. It overflows rather than overwrite, and it releases nothing that is
still being recorded.
-/

namespace Pepp.Tvm

open Outcome SlotRing

namespace TraceBuffer

variable {hash : List U8 → U32} {self : TraceBuffer}

/-- Releasing slots never touches a node that is recorded into. -/
theorem Released.open_ {tb tb' : TraceBuffer} (h : Released tb tb') {i : Nat} (hi : 0 < (tb.ring i).open_) :
    tb'.ring i = tb.ring i := by
  refine h.ring i fun s hl hu he => ?_
  have := (h.reset s hl hu).1
  rw [nodeAt, he] at this
  omega

/-- A begin that goes through. -/
theorem attempt_begin (h : Consistent self) (respond : Nat → List Cursor) {d : U8}
    (hfull : ¬ (self.currentNode.slot = some self.head ∧ MAX_LOCATION_ENTRIES ≤ self.currentNode.count))
    (hroom : self.HasRoom) (hn : self.ringState.claims d = none)
    (hav : self.currentNode.slot = none → 0 < self.mgr.available) :
    ∃ t, attempt hash (.begin respond d) self = some (true, t) ∧ t.ringState = self.ringState.claim d := by
  obtain ⟨t, ht, hc⟩ := begin_ok h respond hfull hroom (claims_eq_none.mp hn) hav
  exact ⟨t, by simp [attempt, perform, ht], hc.ring⟩

/-- An abort of the entry at `p`. -/
theorem attempt_abort (h : Consistent self) {d : U8} {p : Position} (hp : self.ringState.claims d = some p) :
    ∃ t, attempt hash (.abort d) self = some (true, t) ∧ t.ringState = self.ringState.close d p := by
  obtain ⟨recording, hf, rfl⟩ := claims_ringState.mp hp
  have hm := abort_meets h.sound d
  rw [hf] at hm
  unfold Meets at hm
  cases ha : abort d self with
  | ok _ t =>
    rw [ha] at hm
    exact ⟨t, by simp [attempt, perform, ha], hm.2 ▸ ringState_close rfl⟩
  | error e t =>
    rw [ha] at hm
    exact absurd hm.1 (by simp)

/-- A ring of one node with `n` entries in slot zero, none of them open. -/
def oneSlot (n : Nat) : SlotRing U8 :=
  ⟨1, 0, 0, fun i => if i = 0 ∧ n ≠ 0 then some 0 else none, fun i => if i = 0 then n else 0, fun _ => 0, fun _ => none⟩

theorem close_claim_oneSlot (d : U8) (n : Nat) : ((oneSlot n).claim d).close d ⟨0, n⟩ = oneSlot (n + 1) := by
  refine SlotRing.ext rfl rfl rfl (funext fun i => ?_) (funext fun i => ?_) (funext fun i => ?_) (funext fun d' => ?_)
  · by_cases hi : i = 0 <;> simp [oneSlot, SlotRing.claim, SlotRing.close, SlotRing.node, hi]
  · by_cases hi : i = 0 <;> simp [oneSlot, SlotRing.claim, SlotRing.close, SlotRing.node, hi]
  · by_cases hi : i = 0 <;> simp [oneSlot, SlotRing.claim, SlotRing.close, SlotRing.node, hi]
  · by_cases hd : d' = d <;> simp [oneSlot, SlotRing.claim, SlotRing.close, hd]

/-- Beginning and aborting over and over fills the slot. -/
theorem reachable_oneSlot {n : Nat} (hn : n ≤ MAX_LOCATION_ENTRIES) :
    ∃ tb, Reachable hash tb ∧ tb.ringState = oneSlot n ∧ (n = 0 → 0 < tb.mgr.available) := by
  induction n with
  | zero =>
    have hav : 2 ≤ Bts.BufferManager.empty.available := by decide
    obtain ⟨tb, htb⟩ := create_succeeds Bts.BufferManager.wf_empty Nat.one_pos (by omega)
    obtain ⟨hfresh, hsize, hleft⟩ := create_ok Bts.BufferManager.wf_empty htb
    refine ⟨tb, .create Bts.BufferManager.wf_empty htb, ?_, fun _ => by omega⟩
    rw [hfresh.vacant, hsize]
    simp [oneSlot, vacant]
  | succ n ih =>
    obtain ⟨tb, hr, hring, hav⟩ := ih (Nat.le_of_succ_le hn)
    have hslot : tb.currentNode.slot = if n = 0 then none else some 0 := by
      change tb.ringState.slot (tb.ringState.node tb.ringState.head) = _
      rw [hring]
      by_cases hn : n = 0 <;> simp [oneSlot, SlotRing.node, hn]
    have hcount : tb.currentNode.count = n := by
      change tb.ringState.count (tb.ringState.node tb.ringState.head) = _
      rw [hring]
      simp [oneSlot, SlotRing.node]
    have hhead : tb.head = 0 := congrArg SlotRing.head hring
    have hroom : tb.HasRoom := by
      rw [HasRoom, hslot, hhead]
      by_cases hn : n = 0 <;> simp [hn]
    obtain ⟨t, ht, hclaim⟩ := attempt_begin hr.consistent (fun _ => []) (d := 0) (by omega) hroom
      (by rw [hring]; rfl) fun hs => hav (by
        by_contra hn
        rw [hslot, if_neg hn] at hs
        contradiction)
    have hrt : Reachable hash t := .step hr (by rw [step, ht]; rfl)
    have hopen : t.ringState.claims 0 = some ⟨0, n⟩ := by
      rw [hclaim, hring]
      simp [oneSlot, SlotRing.claim, SlotRing.node]
    obtain ⟨u, hu, hclose⟩ := attempt_abort hrt.consistent hopen
    refine ⟨u, .step hrt (by rw [step, hu]; rfl), ?_, by simp⟩
    rw [hclose, hclaim, hring, close_claim_oneSlot]

/-- Callbacks that acknowledge nothing leave the ring as it is. -/
theorem fireWatermarks_silent (used : Nat) (is : List Nat) (tb : TraceBuffer) :
    (fireWatermarks used (fun _ => []) is tb).ringState = tb.ringState := by
  induction is generalizing tb with
  | nil => rfl
  | cons i is ih =>
    rw [fireWatermarks, ih]
    split
    · split <;> rfl
    · rfl

/-- With 8192 entries in the only slot there is no room for another one, and the head has moved on in vain. -/
theorem begin_oneSlot (h : Consistent self) (hring : self.ringState = oneSlot MAX_LOCATION_ENTRIES) (d : U8) :
    ∃ t, begin (fun _ => []) d self = .error (.ringOverflow 1) t ∧
      t.ringState = { oneSlot MAX_LOCATION_ENTRIES with head := 1 } := by
  have hslot : self.currentNode.slot = some self.head := by
    change self.ringState.slot (self.ringState.node self.ringState.head) = some self.ringState.head
    rw [hring]
    rfl
  have hcount : self.currentNode.count = MAX_LOCATION_ENTRIES := by
    change self.ringState.count (self.ringState.node self.ringState.head) = _
    rw [hring]
    rfl
  have hready : (self.readied fun _ => []).ringState = { oneSlot MAX_LOCATION_ENTRIES with head := 1 } := by
    rw [readied, if_pos ⟨hslot, Nat.le_of_eq hcount.symm⟩, advanceSlot, fireWatermarks_silent]
    exact congrArg (fun r : SlotRing U8 => { r with head := r.head + 1 }) hring
  have hhead : (self.readied fun _ => []).head = 1 := congrArg SlotRing.head hready
  have hroom : ¬ (self.readied fun _ => []).HasRoom := by
    have hstale : (self.readied fun _ => []).currentNode.slot = some 0 := by
      change (self.readied fun _ => []).ringState.slot ((self.readied fun _ => []).ringState.node
        (self.readied fun _ => []).ringState.head) = _
      rw [hready]
      rfl
    rw [HasRoom, hstale, hhead]
    decide
  have hm := begin_meets h (fun _ => []) d
  unfold Meets at hm
  cases hb : begin (fun _ => []) d self with
  | ok _ t =>
    rw [hb] at hm
    exact absurd hm.1 hroom
  | error e t =>
    rw [hb] at hm
    rcases hm with ⟨he, -, rfl⟩ | ⟨hr, -⟩
    · exact ⟨_, by rw [he, hhead], hready⟩
    · exact absurd hr hroom

end TraceBuffer

end Pepp.Tvm
