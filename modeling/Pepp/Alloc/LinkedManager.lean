import Pepp.Alloc.Manager
import Pepp.Lib.LinkedQueue

/-!
# The slot table of the buffer manager

The manager as it is stored: free slots are threaded through `next_free` from
`_free_head` to `_free_tail`, and the live and the free slots are counted. It
refines the manager whose free list is a list.
-/

namespace Pepp.Bts

open LinkedQueue

/-- No slot has this index. -/
def NO_INDEX : U16 := 0xFFFF

def GENERATION_MASK : U16 := 0xF

/-- A buffer a slot owns: which `new` made it, the id it carries and what it holds. Address zero is
the null pointer. -/
structure Storage where
  address : Nat
  id : ID
  buffer : Buffer

structure LinkedSlot where
  live : Bool
  generation : U16
  nextFree : U16
  storage : Storage

/-- `emplace_back()`: neither live nor free, and without storage. -/
def LinkedSlot.blank : LinkedSlot := ⟨false, 0, NO_INDEX, ⟨0, 0, ⟨0, fun _ => 0⟩⟩⟩

/-- `created` counts the buffers allocated from the heap so far. -/
structure LinkedManager where
  size : Nat
  slots : Nat → LinkedSlot
  freeHead : U16
  freeTail : U16
  liveCount : U16
  freeCount : U16
  created : Nat

namespace LinkedManager

variable (self : LinkedManager)

def empty : LinkedManager := ⟨0, fun _ => .blank, NO_INDEX, NO_INDEX, 0, 0, 0⟩

def setSlot (index : Nat) (slot : LinkedSlot) : LinkedManager :=
  { self with slots := Function.update self.slots index slot }

def allocatedBuffers : U16 := self.liveCount

def freeBuffers : U16 := self.freeCount

/-- Take the slot at the head of the free list. -/
def reuse (index : Nat) : Storage × LinkedManager :=
  let slot := self.slots index
  let storage := { slot.storage with id := ID.makeId index slot.generation.toNat }
  (storage,
    { self.setSlot index { slot with live := true, nextFree := NO_INDEX, storage := storage } with
      freeHead := slot.nextFree
      freeTail := if slot.nextFree = NO_INDEX then NO_INDEX else self.freeTail
      freeCount := self.freeCount - 1
      liveCount := self.liveCount + 1 })

/-- Append a slot with a new buffer. -/
def grow (index : Nat) : Storage × LinkedManager :=
  let storage : Storage := ⟨self.created + 1, ID.makeId index 0, ⟨0, fun _ => 0⟩⟩
  (storage,
    { self.setSlot index ⟨true, 0, NO_INDEX, storage⟩ with
      size := index + 1
      liveCount := self.liveCount + 1
      created := self.created + 1 })

/-- `alloc_buffer`: the buffer returned is the storage of the slot taken. -/
def allocBuffer : Except Exception (Storage × LinkedManager) :=
  if self.freeHead ≠ NO_INDEX then .ok (self.reuse self.freeHead.toNat)
  else if self.size > MAX_LIVE_BUFFERS then
    .error (.runtimeError "BufferManager: out of buffer indices; the ring is retaining more trace than the id space allows")
  else .ok (self.grow (if self.size = 0 then 1 else self.size))

def find (id : ID) : Option Storage :=
  if id.indexOf = 0 ∨ self.size ≤ id.indexOf then none
  else
    let slot := self.slots id.indexOf
    if !slot.live ∨ slot.generation.toNat ≠ id.generationOf then none else some slot.storage

/-- `_slots[last].next_free = index`. -/
def relink (last index : Nat) : LinkedManager :=
  self.setSlot last { self.slots last with nextFree := BitVec.ofNat 16 index }

/-- Put a dead slot behind the tail of the free list. -/
def enqueue (index : Nat) : LinkedManager :=
  if self.freeTail = NO_INDEX then
    { self with freeHead := BitVec.ofNat 16 index, freeTail := BitVec.ofNat 16 index }
  else
    { self.relink self.freeTail.toNat index with freeTail := BitVec.ofNat 16 index }

/-- A slot after its occupant is gone: empty again, and of the next generation. -/
def cleared (index : Nat) : LinkedSlot :=
  let slot := self.slots index
  { live := false
    generation := (slot.generation + 1) &&& GENERATION_MASK
    nextFree := NO_INDEX
    storage := { slot.storage with buffer := { slot.storage.buffer with used := 0 } } }

def freeBuffer (id : ID) : LinkedManager :=
  let index := id.indexOf
  if index = 0 ∨ self.size ≤ index then self
  else
    let slot := self.slots index
    if !slot.live ∨ slot.generation.toNat ≠ id.generationOf then self
    else
      let linked := (self.setSlot index (self.cleared index)).enqueue index
      { linked with liveCount := linked.liveCount - 1, freeCount := linked.freeCount + 1 }

/-- The link of slot `index` as a number. -/
def next (index : Nat) : Nat := (self.slots index).nextFree.toNat

/-- What the abstract manager keeps of a slot. -/
def view (index : Nat) : Slot :=
  ⟨(self.slots index).live, (self.slots index).generation.toNat, (self.slots index).storage.buffer⟩

end LinkedManager

namespace LinkedManager

/-- The slot table stands for a manager: same slots, and the links thread its free list. -/
structure Refines (table : LinkedManager) (mgr : BufferManager) : Prop where
  size : mgr.size = table.size
  slots : ∀ i, mgr.slots i = table.view i
  free : Threads table.next NO_INDEX.toNat table.freeHead.toNat table.freeTail.toNat mgr.free

variable {self : LinkedManager} {mgr : BufferManager} {id : ID} {index : Nat}

theorem refines_empty : empty.Refines BufferManager.empty := ⟨rfl, fun _ => rfl, threads_nil⟩

section

variable (h : self.Refines mgr)
include h

theorem Refines.find_live (hl : mgr.Live id) : self.find id = some (self.slots id.indexOf).storage := by
  obtain ⟨hi, hlt, hlive, hg⟩ := hl
  rw [h.size] at hlt
  rw [h.slots] at hlive hg
  unfold find
  rw [if_neg (by omega)]
  simp only [view] at hlive hg
  simp [hlive, hg]

theorem Refines.find_none (hl : ¬ mgr.Live id) : self.find id = none := by
  unfold find
  by_cases hi : id.indexOf = 0 ∨ self.size ≤ id.indexOf
  · rw [if_pos hi]
  · rw [if_neg hi]
    dsimp only
    split
    · rfl
    · rename_i hg
      simp only [Bool.not_eq_true', ne_eq, not_or, not_not, Bool.not_eq_false] at hg
      refine absurd ⟨by omega, by rw [h.size]; omega, ?_, ?_⟩ hl
      · rw [h.slots]
        exact hg.1
      · rw [h.slots]
        exact hg.2

theorem Refines.mem_free (hw : mgr.Wf) (hi : index ∈ mgr.free) :
    0 < index ∧ index < self.size ∧ index < 4096 ∧ (self.slots index).live = false := by
  obtain ⟨hpos, hlt, hdead, -⟩ := hw.free index hi
  have := hw.size_le
  rw [h.size] at hlt this
  rw [h.slots] at hdead
  exact ⟨hpos, hlt, by omega, hdead⟩

theorem Refines.freeHead_eq : self.freeHead = NO_INDEX ↔ mgr.free = [] := by
  rw [← h.free.head_eq_stop]
  exact ⟨congrArg _, BitVec.eq_of_toNat_eq⟩

theorem Refines.freeTail_eq : self.freeTail = NO_INDEX ↔ mgr.free = [] := by
  rw [← h.free.tail_eq_stop]
  exact ⟨congrArg _, BitVec.eq_of_toNat_eq⟩

end

variable (slot : LinkedSlot)

theorem next_setSlot : (self.setSlot index slot).next = Function.update self.next index slot.nextFree.toNat := by
  funext i
  by_cases hi : i = index
  · subst hi
    simp [next, setSlot]
  · simp [next, setSlot, hi]

theorem view_setSlot (i : Nat) :
    (self.setSlot index slot).view i =
      if i = index then ⟨slot.live, slot.generation.toNat, slot.storage.buffer⟩ else self.view i := by
  by_cases hi : i = index
  · subst hi
    simp [view, setSlot]
  · simp [view, setSlot, hi]

theorem view_relink {last : Nat} : (self.relink last index).view = self.view := by
  funext i
  rw [relink, view_setSlot]
  split
  · rename_i hi
    rw [hi]
    rfl
  · rfl

theorem next_relink {last : Nat} :
    (self.relink last index).next = Function.update self.next last (BitVec.ofNat 16 index).toNat :=
  next_setSlot _

/-- Taking the head of the free list is what the abstract manager does. -/
theorem reuse_refines (h : self.Refines mgr) (hf : self.freeHead ≠ NO_INDEX) :
    ∃ mgr', mgr.allocBuffer = .ok ((self.reuse self.freeHead.toNat).1.id, mgr') ∧
      (self.reuse self.freeHead.toNat).2.Refines mgr' := by
  cases hl : mgr.free with
  | nil => exact absurd (h.freeHead_eq.mpr hl) hf
  | cons i l =>
    have hfree := h.free
    rw [hl] at hfree
    obtain ⟨rfl, hpop⟩ := hfree.pop
    have hi : self.freeHead.toNat ∉ l := (List.nodup_cons.mp hfree.nodup).1
    have halloc := BufferManager.allocBuffer_cons hl
    rw [h.slots] at halloc
    refine ⟨_, halloc, ⟨h.size, fun j => ?_, ?_⟩⟩
    · rw [show (self.reuse self.freeHead.toNat).2.view j = _ from view_setSlot _ j]
      simp only [BufferManager.setSlot, h.slots]
      rfl
    · rw [show (self.reuse self.freeHead.toNat).2.next = _ from next_setSlot _]
      have htail : (self.reuse self.freeHead.toNat).2.freeTail.toNat =
          if self.next self.freeHead.toNat = NO_INDEX.toNat then NO_INDEX.toNat else self.freeTail.toNat := by
        simp only [reuse, next, BitVec.toNat_inj]
        split <;> rfl
      rw [htail]
      refine hpop.congr fun j hj => ?_
      rw [Function.update_of_ne (fun he => hi (by rw [← he]; exact hj))]

/-- A new slot is what the abstract manager adds when nothing is free. -/
theorem grow_refines (h : self.Refines mgr) (hf : self.freeHead = NO_INDEX)
    (hs : ¬ self.size > MAX_LIVE_BUFFERS) (hi : index = if self.size = 0 then 1 else self.size) :
    ∃ mgr', mgr.allocBuffer = .ok ((self.grow index).1.id, mgr') ∧ (self.grow index).2.Refines mgr' := by
  have hl := h.freeHead_eq.mp hf
  have halloc : mgr.allocBuffer = .ok (ID.makeId index 0,
      { mgr.setSlot index ⟨true, 0, ⟨0, fun _ => 0⟩⟩ with size := index + 1 }) := by
    rw [BufferManager.allocBuffer, hl]
    simp only [h.size, if_neg hs, ← hi]
  refine ⟨_, halloc, ⟨rfl, fun j => ?_, ?_⟩⟩
  · rw [show (self.grow index).2.view j = _ from view_setSlot _ j]
    simp only [BufferManager.setSlot, h.slots]
    by_cases hj : j = index <;> simp [hj]
  · have hfree := h.free
    rw [hl] at hfree
    change Threads _ _ _ _ mgr.free
    rw [hl]
    exact hfree.congr fun i hi => absurd hi (by simp)

/-- What an allocation does: it takes the slot at the front of the free list, or adds one when that
list is empty. -/
structure Took (table : LinkedManager) (mgr : BufferManager) (storage : Storage) (table' : LinkedManager)
    (mgr' : BufferManager) : Prop where
  alloc : mgr.allocBuffer = .ok (storage.id, mgr')
  refines : table'.Refines mgr'
  slot : (table'.slots storage.id.indexOf).storage = storage
  frame : ∀ i, i ≠ storage.id.indexOf → table'.slots i = table.slots i
  liveCount : table'.liveCount = table.liveCount + 1
  source :
    (mgr.free = storage.id.indexOf :: mgr'.free ∧ table'.size = table.size ∧ table'.created = table.created ∧
      storage.address = (table.slots storage.id.indexOf).storage.address ∧
      (table'.slots storage.id.indexOf).generation = (table.slots storage.id.indexOf).generation ∧
      table'.freeCount = table.freeCount - 1) ∨
    (mgr.free = [] ∧ mgr'.free = [] ∧ storage.id.indexOf = max 1 table.size ∧
      table'.size = storage.id.indexOf + 1 ∧ table'.created = table.created + 1 ∧
      storage.address = table.created + 1 ∧ (table'.slots storage.id.indexOf).generation = 0 ∧
      table'.freeCount = table.freeCount)

theorem reuse_took (h : self.Refines mgr) (hw : mgr.Wf) (hf : self.freeHead ≠ NO_INDEX) :
    ∃ mgr', Took self mgr (self.reuse self.freeHead.toNat).1 (self.reuse self.freeHead.toNat).2 mgr' := by
  obtain ⟨mgr', halloc, hr⟩ := reuse_refines h hf
  cases hl : mgr.free with
  | nil => exact absurd (h.freeHead_eq.mpr hl) hf
  | cons i l =>
    have hfree := h.free
    rw [hl] at hfree
    have hi : self.freeHead.toNat = i := hfree.pop.1
    have hidx : (self.reuse self.freeHead.toNat).1.id.indexOf = self.freeHead.toNat :=
      ID.indexOf_makeId (hi ▸ (h.mem_free hw (by simp [hl])).2.2.1)
    have hmgr' : mgr'.free = l := by
      rw [BufferManager.allocBuffer_cons hl] at halloc
      rw [← (Prod.mk.inj (Except.ok.inj halloc)).2]
    refine ⟨mgr', halloc, hr, ?_, fun j hj => ?_, rfl, .inl ?_⟩
    · rw [hidx]
      simp [reuse, setSlot]
    · rw [hidx] at hj
      simp [reuse, setSlot, hj]
    · rw [hidx, hmgr', hi]
      exact ⟨hl, rfl, rfl, rfl, by simp [reuse, setSlot], rfl⟩

theorem grow_took (h : self.Refines mgr) (hf : self.freeHead = NO_INDEX) (hs : ¬ self.size > MAX_LIVE_BUFFERS)
    (hi : index = if self.size = 0 then 1 else self.size) :
    ∃ mgr', Took self mgr (self.grow index).1 (self.grow index).2 mgr' := by
  obtain ⟨mgr', halloc, hr⟩ := grow_refines h hf hs hi
  have hl := h.freeHead_eq.mp hf
  simp only [MAX_LIVE_BUFFERS, Nat.not_lt] at hs
  have hmax : index = max 1 self.size := by
    rw [hi]
    split <;> omega
  have hidx : (self.grow index).1.id.indexOf = index := ID.indexOf_makeId (by omega)
  have hmgr' : mgr'.free = [] := hr.freeHead_eq.mp hf
  refine ⟨mgr', halloc, hr, ?_, fun j hj => ?_, rfl, .inr ?_⟩
  · rw [hidx]
    simp [grow, setSlot]
  · rw [hidx] at hj
    simp [grow, setSlot, hj]
  · rw [hidx]
    exact ⟨hl, hmgr', hmax, rfl, rfl, rfl, by simp [grow, setSlot], rfl⟩

theorem allocBuffer_took (h : self.Refines mgr) (hw : mgr.Wf) {storage : Storage} {self' : LinkedManager}
    (ha : self.allocBuffer = .ok (storage, self')) : ∃ mgr', Took self mgr storage self' mgr' := by
  unfold allocBuffer at ha
  split at ha
  · rename_i hf
    have hr := reuse_took h hw hf
    rw [Except.ok.inj ha] at hr
    exact hr
  · rename_i hf
    split at ha
    · contradiction
    · rename_i hs
      have hg := grow_took h (not_not.mp hf) hs rfl
      rw [Except.ok.inj ha] at hg
      exact hg

theorem freeBuffer_live (h : self.Refines mgr) (hl : mgr.Live id) : self.freeBuffer id =
    let linked := (self.setSlot id.indexOf (self.cleared id.indexOf)).enqueue id.indexOf
    { linked with liveCount := linked.liveCount - 1, freeCount := linked.freeCount + 1 } := by
  obtain ⟨hpos, hlt, hlive, hg⟩ := hl
  rw [h.size] at hlt
  rw [h.slots] at hlive hg
  simp only [view] at hlive hg
  unfold freeBuffer
  simp only [if_neg (show ¬ (id.indexOf = 0 ∨ self.size ≤ id.indexOf) by omega), hlive, hg]
  simp

theorem generation_succ : ((slot.generation + 1) &&& GENERATION_MASK).toNat = (slot.generation.toNat + 1) % 16 := by
  rw [BitVec.toNat_and, BitVec.toNat_add]
  change (slot.generation.toNat + 1) % 65536 &&& 15 = _
  rw [show 15 = 2 ^ 4 - 1 from rfl, Nat.and_two_pow_sub_one_eq_mod]
  omega

theorem freeBuffer_dead (h : self.Refines mgr) (hl : ¬ mgr.Live id) : self.freeBuffer id = self := by
  have hf := h.find_none hl
  unfold find at hf
  unfold freeBuffer
  by_cases hi : id.indexOf = 0 ∨ self.size ≤ id.indexOf
  · simp [hi]
  · simp only [if_neg hi] at hf ⊢
    split at hf
    · rename_i hg
      rw [if_pos hg]
    · contradiction

/-- A slot put behind the free list stays what it was, but for the links. -/
theorem Refines.enqueue (h : self.Refines mgr) (hi : index ∉ mgr.free) (hlt : index < 4096)
    (hend : self.next index = NO_INDEX.toNat) :
    (self.enqueue index).Refines { mgr with free := mgr.free ++ [index] } := by
  have hnat : (BitVec.ofNat 16 index).toNat = index := by
    rw [BitVec.toNat_ofNat]
    omega
  have hs : index ≠ NO_INDEX.toNat := by
    have : NO_INDEX.toNat = 65535 := rfl
    omega
  unfold LinkedManager.enqueue
  by_cases ht : self.freeTail = NO_INDEX
  · rw [if_pos ht]
    refine ⟨h.size, h.slots, ?_⟩
    simp only [hnat, h.freeTail_eq.mp ht, List.nil_append]
    exact threads_singleton hs hend
  · rw [if_neg ht]
    have hl : mgr.free ≠ [] := fun hl => ht (h.freeTail_eq.mpr hl)
    refine ⟨h.size, fun i => (h.slots i).trans (congrFun view_relink i).symm, ?_⟩
    have hpush := h.free.push hl hi hs hend
    rw [← hnat, ← next_relink] at hpush
    simp only [hnat] at hpush ⊢
    exact hpush

theorem storage_enqueue (i : Nat) : ((self.enqueue index).slots i).storage = (self.slots i).storage := by
  unfold LinkedManager.enqueue
  split
  · rfl
  · by_cases hi : i = self.freeTail.toNat
    · simp [relink, setSlot, hi]
    · simp [relink, setSlot, hi]

theorem counts_enqueue : (self.enqueue index).size = self.size ∧ (self.enqueue index).created = self.created ∧
    (self.enqueue index).liveCount = self.liveCount ∧ (self.enqueue index).freeCount = self.freeCount := by
  unfold LinkedManager.enqueue
  split <;> exact ⟨rfl, rfl, rfl, rfl⟩

/-- Freeing moves no buffer to another slot and gives none another id. -/
theorem storage_freeBuffer (i : Nat) : ((self.freeBuffer id).slots i).storage.address = (self.slots i).storage.address ∧
    ((self.freeBuffer id).slots i).storage.id = (self.slots i).storage.id := by
  unfold LinkedManager.freeBuffer
  dsimp only
  split
  · exact ⟨rfl, rfl⟩
  · split
    · exact ⟨rfl, rfl⟩
    · simp only [storage_enqueue]
      by_cases hi : i = id.indexOf
      · simp [setSlot, cleared, hi]
      · simp [setSlot, hi]

theorem counts_freeBuffer (h : self.Refines mgr) (hl : mgr.Live id) :
    (self.freeBuffer id).created = self.created ∧ (self.freeBuffer id).liveCount = self.liveCount - 1 ∧
      (self.freeBuffer id).freeCount = self.freeCount + 1 := by
  obtain ⟨-, hc, hlive, hfree⟩ := @counts_enqueue (self.setSlot id.indexOf (self.cleared id.indexOf)) id.indexOf
  rw [freeBuffer_live h hl]
  dsimp only
  rw [hc, hlive, hfree]
  exact ⟨rfl, rfl, rfl⟩

theorem freeBuffer_refines (h : self.Refines mgr) (hw : mgr.Wf) :
    (self.freeBuffer id).Refines (mgr.freeBuffer id) := by
  by_cases hl : mgr.Live id
  · rw [BufferManager.freeBuffer_of_live hl, freeBuffer_live h hl]
    obtain ⟨hpos, hlt, hlive, hg⟩ := hl
    have hsize := hw.size_le
    have hnf : id.indexOf ∉ mgr.free := by
      intro hm
      have := (hw.free _ hm).2.2.1
      rw [hlive] at this
      contradiction
    have hset : (self.setSlot id.indexOf (self.cleared id.indexOf)).Refines (mgr.setSlot id.indexOf
        { live := false, generation := ((mgr.slots id.indexOf).generation + 1) % 16,
          storage := { (mgr.slots id.indexOf).storage with used := 0 } }) := by
      refine ⟨h.size, fun i => ?_, ?_⟩
      · rw [view_setSlot]
        simp only [BufferManager.setSlot, h.slots, cleared, generation_succ]
        rfl
      · rw [next_setSlot]
        refine h.free.congr fun i hi => ?_
        rw [Function.update_of_ne (fun he => hnf (by rw [← he]; exact hi))]
    have hend : (self.setSlot id.indexOf (self.cleared id.indexOf)).next id.indexOf = NO_INDEX.toNat := by
      rw [next_setSlot, Function.update_self]
      rfl
    have hen := hset.enqueue hnf (by omega) hend
    exact ⟨hen.size, hen.slots, hen.free⟩
  · rw [BufferManager.freeBuffer_of_dead hl, freeBuffer_dead h hl]
    exact h

end LinkedManager

end Pepp.Bts
