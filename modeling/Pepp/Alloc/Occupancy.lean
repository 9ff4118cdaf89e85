import Pepp.Alloc.LinkedManager

/-!
# Allocations and frees over a run

A run is judged by its history: which ids were handed out for which buffer, and
which of them were freed. The history alone says which ids are live, which
slots wait to be reused and in which order, and how often a slot was freed; the
slot table is shown to agree with it after every sequence of calls.
-/

namespace Pepp.Bts

open LinkedQueue

/-- An id handed out for the buffer at `address`, or a live id freed. -/
inductive Event where
  | alloc (id : ID) (address : Nat)
  | free (id : ID)
  deriving DecidableEq

namespace Event

/-- The ids handed out and not freed since, each with its buffer. Newest event first. -/
def live : List Event → List (ID × Nat)
  | [] => []
  | alloc id address :: log => (id, address) :: live log
  | free id :: log => (live log).filter (·.1 != id)

def ids (log : List Event) : List ID := (live log).map Prod.fst

/-- The slots freed and not taken since, in the order they were freed. -/
def waiting : List Event → List Nat
  | [] => []
  | alloc id _ :: log => (waiting log).erase id.indexOf
  | free id :: log => waiting log ++ [id.indexOf]

/-- How often slot `index` was freed. -/
def freesOf (index : Nat) : List Event → Nat
  | [] => 0
  | alloc _ _ :: log => freesOf index log
  | free id :: log => freesOf index log + if id.indexOf = index then 1 else 0

/-- An allocation takes the slot that has waited longest, or one never handed out if none waits. -/
def Turn (id : ID) (before : List Event) : Prop :=
  (waiting before).head? = some id.indexOf ∨
    (waiting before = [] ∧ ∀ id' address, alloc id' address ∈ before → id'.indexOf ≠ id.indexOf)

theorem ids_free (id : ID) (log : List Event) : ids (free id :: log) = (ids log).filter (· != id) := by
  rw [ids, live, ids, List.filter_map]
  rfl

theorem lookup_of_mem {α β : Type} [DecidableEq α] {l : List (α × β)} {a : α} {b : β} (hn : (l.map Prod.fst).Nodup)
    (hm : (a, b) ∈ l) : l.lookup a = some b := by
  induction l with
  | nil => simp at hm
  | cons e l ih =>
    obtain ⟨a', b'⟩ := e
    rw [List.map_cons, List.nodup_cons] at hn
    rcases List.mem_cons.mp hm with he | hm
    · obtain ⟨rfl, rfl⟩ := Prod.mk.inj he
      exact List.lookup_cons_self
    · have hne : a ≠ a' := fun he => hn.1 (List.mem_map.mpr ⟨(a, b), hm, he⟩)
      rw [List.lookup_cons, beq_false_of_ne hne]
      exact ih hn.2 hm

theorem length_live (log : List Event) : (live log).length = (ids log).length := by simp [ids]

theorem freesOf_append (index : Nat) (log log' : List Event) :
    freesOf index (log ++ log') = freesOf index log + freesOf index log' := by
  induction log with
  | nil => simp [freesOf]
  | cons e log ih =>
    cases e with
    | alloc id address => exact ih
    | free id =>
      simp only [List.cons_append, freesOf, ih]
      omega

end Event

open Event

inductive Op where
  | alloc
  | free (id : ID)

/-- A slot table with the history that led to it. -/
structure Session where
  table : LinkedManager
  log : List Event

namespace Session

def start : Session := ⟨.empty, []⟩

/-- An allocation that throws leaves the table as it was. -/
def step (s : Session) : Op → Session
  | .alloc =>
    match s.table.allocBuffer with
    | .ok (storage, table) => ⟨table, .alloc storage.id storage.address :: s.log⟩
    | .error _ => s
  | .free id => ⟨s.table.freeBuffer id, if id ∈ ids s.log then .free id :: s.log else s.log⟩

def run (ops : List Op) : Session := ops.foldl step start

/-- The slot table agrees with the history, by way of the manager it refines. -/
structure Kept (s : Session) (mgr : BufferManager) : Prop where
  refines : s.table.Refines mgr
  wf : mgr.Wf
  live : ∀ id address,
    (id, address) ∈ live s.log ↔ mgr.Live id ∧ (s.table.slots id.indexOf).storage.address = address
  stamp : ∀ id, mgr.Live id → (s.table.slots id.indexOf).storage.id = id
  nodup : (ids s.log).Nodup
  free : mgr.free = waiting s.log
  dead : ∀ i, 0 < i → i < mgr.size → (mgr.slots i).live = false → i ∈ mgr.free
  generation : ∀ i, (mgr.slots i).generation = freesOf i s.log % 16
  unborn : ∀ i, mgr.size ≤ i → freesOf i s.log = 0
  handed : ∀ id address, .alloc id address ∈ s.log → id.indexOf < mgr.size
  created : ∀ i, 0 < i → i < mgr.size → (s.table.slots i).storage.address ≤ s.table.created
  owner : ∀ i j, 0 < i → i < mgr.size → 0 < j → j < mgr.size →
    (s.table.slots i).storage.address = (s.table.slots j).storage.address → i = j
  freed : ∀ after id before, s.log = after ++ .free id :: before →
    id.generationOf = freesOf id.indexOf before % 16
  order : ∀ after id address before, s.log = after ++ .alloc id address :: before → Turn id before
  liveCount : s.table.liveCount = BitVec.ofNat 16 (ids s.log).length
  freeCount : s.table.freeCount = BitVec.ofNat 16 (waiting s.log).length

variable {s : Session} {mgr mgr' : BufferManager} {id : ID}

theorem kept_start : Kept start .empty := by
  refine ⟨LinkedManager.refines_empty, BufferManager.wf_empty, ?_, ?_, ?_, rfl, ?_, fun _ => rfl, fun _ _ => rfl, ?_,
    ?_, ?_, ?_, ?_, rfl, rfl⟩
  · intro id address
    simp [start, Event.live, BufferManager.Live, BufferManager.empty]
  all_goals simp [start, ids, Event.live, BufferManager.empty, BufferManager.Live]

theorem Kept.mem_ids (h : Kept s mgr) : id ∈ ids s.log ↔ mgr.Live id := by
  simp only [ids, List.mem_map, Prod.exists, exists_and_right, exists_eq_right, h.live]
  exact ⟨fun ⟨_, hl, _⟩ => hl, fun hl => ⟨_, hl, rfl⟩⟩

/-- The new id is the only one of its index. -/
theorem Kept.index_ne {storage : Storage} {table : LinkedManager} (h : Kept s mgr)
    (ht : LinkedManager.Took s.table mgr storage table mgr') {j : ID} (hj : mgr.Live j) :
    j.indexOf ≠ storage.id.indexOf := by
  have ha := BufferManager.allocBuffer_ok h.wf ht.alloc
  intro he
  have hid : j = storage.id := BufferManager.Live.ext ((ha.live j).mpr (.inr hj)) ((ha.live _).mpr (.inl rfl)) he
  exact ha.fresh (hid ▸ hj)

section
variable {storage : Storage} {table : LinkedManager} (h : Kept s mgr) (ht : LinkedManager.Took s.table mgr storage table mgr')
include h ht

theorem Kept.took_size : storage.id.indexOf < mgr'.size ∧ mgr.size ≤ mgr'.size ∧
    ∀ i, 0 < i → i < mgr'.size → i ≠ storage.id.indexOf → i < mgr.size := by
  rw [ht.refines.size, h.refines.size]
  rcases ht.source with ⟨hf, hs, -⟩ | ⟨-, -, hmax, hs, -⟩
  · have hm : storage.id.indexOf ∈ mgr.free := by simp [hf]
    have := (h.refines.mem_free h.wf hm).2.1
    exact ⟨by omega, by omega, by omega⟩
  · exact ⟨by omega, by omega, by omega⟩

theorem Kept.took_free : mgr'.free = (waiting s.log).erase storage.id.indexOf := by
  rw [← h.free]
  rcases ht.source with ⟨hf, -⟩ | ⟨hf, hf', -⟩
  · rw [hf, List.erase_cons_head]
  · rw [hf, hf', List.erase_nil]

theorem Kept.took_turn : Turn storage.id s.log := by
  unfold Turn
  rw [← h.free]
  rcases ht.source with ⟨hf, -⟩ | ⟨hf, -, hmax, -⟩
  · exact .inl (by rw [hf, List.head?_cons])
  · refine .inr ⟨hf, fun id' address hm => ?_⟩
    have := h.handed id' address hm
    rw [h.refines.size] at this
    omega

theorem Kept.took_generation (i : Nat) : (mgr'.slots i).generation = freesOf i s.log % 16 := by
  by_cases hi : i = storage.id.indexOf
  · have hg : (mgr'.slots i).generation = (table.slots i).generation.toNat := by rw [ht.refines.slots]; rfl
    have hg' : (mgr.slots i).generation = (s.table.slots i).generation.toNat := by rw [h.refines.slots]; rfl
    rw [hg]
    rcases ht.source with ⟨-, -, -, -, hs, -⟩ | ⟨-, -, hmax, -, -, -, hs, -⟩
    · rw [hi, hs, ← hi, ← hg', h.generation]
    · rw [h.unborn i (by rw [h.refines.size]; omega), hi, hs]
      rfl
  · rw [← h.generation i, ht.refines.slots, h.refines.slots, LinkedManager.view, LinkedManager.view, ht.frame i hi]

section

variable (i : Nat) (hi : 0 < i) (hlt : i < mgr'.size)
include i hi hlt

theorem Kept.took_dead (hd : (mgr'.slots i).live = false) : i ∈ mgr'.free := by
  have ha := BufferManager.allocBuffer_ok h.wf ht.alloc
  by_cases he : i = storage.id.indexOf
  · have := ((ha.live storage.id).mpr (.inl rfl)).2.2.1
    rw [← he, hd] at this
    contradiction
  · have hd' : (mgr.slots i).live = false := by
      rw [ht.refines.slots] at hd
      rw [h.refines.slots]
      simpa only [LinkedManager.view, ht.frame i he] using hd
    have hm := h.dead i hi ((h.took_size ht).2.2 i hi hlt he) hd'
    rw [h.took_free ht, List.mem_erase_of_ne he, ← h.free]
    exact hm

theorem Kept.took_created : (table.slots i).storage.address ≤ table.created := by
  have hrange := (h.took_size ht).2.2 i hi hlt
  by_cases he : i = storage.id.indexOf
  · rw [he, ht.slot]
    rcases ht.source with ⟨hf, -, hc, hs, -⟩ | ⟨-, -, -, -, hc, hs, -⟩
    · have hm := h.refines.mem_free h.wf (show storage.id.indexOf ∈ mgr.free by simp [hf])
      rw [hc, hs]
      exact h.created _ hm.1 (by rw [h.refines.size]; exact hm.2.1)
    · omega
  · rw [ht.frame i he]
    have := h.created i hi (hrange he)
    rcases ht.source with ⟨-, -, hc, -⟩ | ⟨-, -, -, -, hc, -⟩ <;> omega

theorem Kept.took_owner (hne : i ≠ storage.id.indexOf) : (table.slots i).storage.address ≠ storage.address := by
  rw [ht.frame i hne]
  have hlt' := (h.took_size ht).2.2 i hi hlt hne
  rcases ht.source with ⟨hf, -, -, hs, -⟩ | ⟨-, -, -, -, hc, hs, -⟩
  · have hm := h.refines.mem_free h.wf (show storage.id.indexOf ∈ mgr.free by simp [hf])
    rw [hs]
    exact fun he => hne (h.owner _ _ hi hlt' hm.1 (by rw [h.refines.size]; exact hm.2.1) he)
  · have := h.created i hi hlt'
    omega

end

theorem Kept.took_freeCount :
    table.freeCount = BitVec.ofNat 16 ((waiting s.log).erase storage.id.indexOf).length := by
  have hc := h.freeCount
  rcases ht.source with ⟨hf, -, -, -, -, hs⟩ | ⟨hf, -, -, -, -, -, -, hs⟩
  · rw [h.free] at hf
    rw [hs, hc, hf, List.erase_cons_head, List.length_cons]
    apply BitVec.eq_of_toNat_eq
    simp
    omega
  · rw [h.free] at hf
    rw [hs, hc, hf, List.erase_nil]

/-- An allocation keeps table and history in agreement. -/
theorem Kept.alloc : Kept ⟨table, .alloc storage.id storage.address :: s.log⟩ mgr' := by
  have ha := BufferManager.allocBuffer_ok h.wf ht.alloc
  have hfresh : storage.id ∉ ids s.log := fun hm => ha.fresh (h.mem_ids.mp hm)
  have hslot : ∀ j, mgr.Live j → table.slots j.indexOf = s.table.slots j.indexOf := fun j hj =>
    ht.frame _ (h.index_ne ht hj)
  obtain ⟨hidx, hgrow, -⟩ := h.took_size ht
  refine ⟨ht.refines, ha.wf, ?_, ?_, ?_, h.took_free ht, h.took_dead ht, h.took_generation ht,
    fun i hi => h.unborn i (Nat.le_trans hgrow hi), ?_, h.took_created ht, ?_, ?_, ?_, ?_, h.took_freeCount ht⟩
  · intro j address
    simp only [Event.live, List.mem_cons, Prod.mk.injEq, h.live, ha.live]
    by_cases hj : j = storage.id
    · subst hj
      simp [ht.slot, ha.fresh, eq_comm]
    · simp only [hj, false_and, false_or]
      exact and_congr_right fun hl => by rw [hslot j hl]
  · intro j hj
    rcases (ha.live j).mp hj with rfl | hj
    · rw [ht.slot]
    · rw [hslot j hj]
      exact h.stamp j hj
  · exact List.nodup_cons.mpr ⟨hfresh, h.nodup⟩
  · intro j address hm
    rcases List.mem_cons.mp hm with he | hm
    · rw [(Event.alloc.inj he).1]
      exact hidx
    · exact Nat.lt_of_lt_of_le (h.handed j address hm) hgrow
  · intro i j hi hlt hj hlt' he
    by_cases hi' : i = storage.id.indexOf
    · by_cases hj' : j = storage.id.indexOf
      · rw [hi', hj']
      · rw [hi', ht.slot] at he
        exact absurd he.symm (h.took_owner ht j hj hlt' hj')
    · by_cases hj' : j = storage.id.indexOf
      · rw [hj', ht.slot] at he
        exact absurd he (h.took_owner ht i hi hlt hi')
      · rw [ht.frame i hi', ht.frame j hj'] at he
        have hrange := (h.took_size ht).2.2
        exact h.owner i j hi (hrange i hi hlt hi') hj (hrange j hj hlt' hj') he
  · intro after j before he
    cases after with
    | nil => simp at he
    | cons e after => exact h.freed after j before (List.cons.inj he).2
  · intro after j address before he
    cases after with
    | nil =>
      obtain ⟨hj, rfl⟩ := List.cons.inj he
      rw [← (Event.alloc.inj hj).1]
      exact h.took_turn ht
    | cons e after => exact h.order after j address before (List.cons.inj he).2
  · simp only [ids, Event.live, List.map_cons, List.length_cons, ht.liveCount, h.liveCount]
    apply BitVec.eq_of_toNat_eq
    simp

end

theorem length_ids_free (log : List Event) (hn : (ids log).Nodup) (hm : id ∈ ids log) :
    (ids (.free id :: log)).length + 1 = (ids log).length := by
  rw [ids_free, ← hn.erase_eq_filter, List.length_erase_of_mem hm]
  have := List.length_pos_of_mem hm
  omega

theorem Kept.freed_generation (h : Kept s mgr) (hl : mgr.Live id) (i : Nat) :
    ((mgr.freeBuffer id).slots i).generation = freesOf i (.free id :: s.log) % 16 := by
  rw [BufferManager.freeBuffer_of_live hl, freesOf]
  have hg := h.generation i
  by_cases hi : i = id.indexOf
  · subst hi
    simp only [BufferManager.setSlot, if_true]
    omega
  · simp only [BufferManager.setSlot, hi, if_false, Ne.symm hi, Nat.add_zero]
    exact hg

theorem Kept.freed_dead (h : Kept s mgr) (hl : mgr.Live id) (i : Nat) (hi : 0 < i) (hlt : i < mgr.size)
    (hd : ((mgr.freeBuffer id).slots i).live = false) : i ∈ waiting (.free id :: s.log) := by
  rw [BufferManager.freeBuffer_of_live hl] at hd
  rw [waiting, List.mem_append, List.mem_singleton, ← h.free]
  by_cases he : i = id.indexOf
  · exact .inr he
  · simp only [BufferManager.setSlot, he, if_false] at hd
    exact .inl (h.dead i hi hlt hd)

/-- Freeing a live id keeps table and history in agreement. -/
theorem Kept.free_live (h : Kept s mgr) (hl : mgr.Live id) :
    Kept ⟨s.table.freeBuffer id, .free id :: s.log⟩ (mgr.freeBuffer id) := by
  have hf := BufferManager.freeBuffer_live h.wf hl
  have hsize : (mgr.freeBuffer id).size = mgr.size := by rw [BufferManager.freeBuffer_of_live hl]; rfl
  have hfree : (mgr.freeBuffer id).free = waiting (.free id :: s.log) := by
    rw [BufferManager.freeBuffer_of_live hl, waiting, ← h.free]
  have hmem : id ∈ ids s.log := h.mem_ids.mpr hl
  have hstore := @LinkedManager.storage_freeBuffer s.table id
  obtain ⟨hcreated, hlive, hcount⟩ := LinkedManager.counts_freeBuffer h.refines hl
  refine ⟨LinkedManager.freeBuffer_refines h.refines h.wf, hf.wf, ?_, ?_, ?_, hfree, ?_, h.freed_generation hl, ?_, ?_,
    ?_, ?_, ?_, ?_, ?_, ?_⟩
  · intro j address
    simp only [Event.live, List.mem_filter, h.live, hf.live, (hstore _).1, bne_iff_ne]
    tauto
  · intro j hj
    rw [(hstore _).2]
    exact h.stamp j ((hf.live j).mp hj).2
  · rw [ids_free]
    exact h.nodup.filter _
  · intro i hi hlt hd
    rw [hfree]
    exact h.freed_dead hl i hi (hsize ▸ hlt) hd
  · intro i hi
    rw [hsize] at hi
    have hlt := hl.2.1
    rw [freesOf, h.unborn i hi, if_neg (by omega)]
  · intro j address hm
    rw [hsize]
    exact h.handed j address (by simpa using hm)
  · intro i hi hlt
    rw [(hstore _).1, hcreated]
    exact h.created i hi (hsize ▸ hlt)
  · intro i j hi hlt hj hlt' he
    rw [(hstore _).1, (hstore _).1] at he
    exact h.owner i j hi (hsize ▸ hlt) hj (hsize ▸ hlt') he
  · intro after j before he
    cases after with
    | nil =>
      obtain ⟨hj, rfl⟩ := List.cons.inj he
      rw [← Event.free.inj hj, ← h.generation]
      exact hl.2.2.2.symm
    | cons e after => exact h.freed after j before (List.cons.inj he).2
  · intro after j address before he
    cases after with
    | nil => simp at he
    | cons e after => exact h.order after j address before (List.cons.inj he).2
  · have hlen := length_ids_free s.log h.nodup hmem
    rw [hlive, h.liveCount, ← hlen]
    apply BitVec.eq_of_toNat_eq
    simp
    omega
  · rw [hcount, h.freeCount, waiting, List.length_append, List.length_singleton]
    apply BitVec.eq_of_toNat_eq
    simp

theorem Kept.step (h : Kept s mgr) (op : Op) : ∃ mgr', Kept (s.step op) mgr' := by
  cases op with
  | alloc =>
    simp only [Session.step]
    cases ha : s.table.allocBuffer with
    | error e => exact ⟨mgr, h⟩
    | ok r =>
      obtain ⟨mgr', ht⟩ := LinkedManager.allocBuffer_took h.refines h.wf ha
      exact ⟨mgr', h.alloc ht⟩
  | free id =>
    simp only [Session.step]
    by_cases hl : mgr.Live id
    · rw [if_pos (h.mem_ids.mpr hl)]
      exact ⟨_, h.free_live hl⟩
    · rw [if_neg (fun hm => hl (h.mem_ids.mp hm)), LinkedManager.freeBuffer_dead h.refines hl]
      exact ⟨mgr, h⟩

theorem kept_run (ops : List Op) : ∃ mgr, Kept (run ops) mgr := by
  have hfold : ∀ s mgr, Kept s mgr → ∃ mgr', Kept (ops.foldl Session.step s) mgr' := by
    induction ops with
    | nil => exact fun s mgr h => ⟨mgr, h⟩
    | cons op ops ih =>
      intro s mgr h
      obtain ⟨mgr', h'⟩ := h.step op
      exact ih _ _ h'
  exact hfold start .empty kept_start

/-- What a user of the manager relies on, after any sequence of calls. -/
structure Sound (s : Session) : Prop where
  distinct : (ids s.log).Nodup
  notNull : 0 ∉ ids s.log
  /-- An id resolves when it is live, to the buffer its allocation returned. -/
  resolves : ∀ id, (s.table.find id).map Storage.address = (live s.log).lookup id
  named : ∀ id storage, s.table.find id = some storage → storage.id = id
  unshared : ((live s.log).map Prod.snd).Nodup
  /-- An id stays dead until its slot has been freed 16 times, the free of the id included. -/
  stale : ∀ after id before, s.log = after ++ .free id :: before → freesOf id.indexOf after < 15 →
    s.table.find id = none
  freeList : Threads s.table.next NO_INDEX.toNat s.table.freeHead.toNat s.table.freeTail.toNat (waiting s.log)
  once : (waiting s.log).Nodup
  notLive : ∀ i, i ∈ waiting s.log ↔ 0 < i ∧ i < s.table.size ∧ (s.table.slots i).live = false
  fifo : ∀ after id address before, s.log = after ++ .alloc id address :: before → Turn id before
  liveCount : s.table.allocatedBuffers.toNat = (live s.log).length
  freeCount : s.table.freeBuffers.toNat = (waiting s.log).length
  ignored : ∀ id, id ∉ ids s.log → s.table.freeBuffer id = s.table

section

variable (h : Kept s mgr)
include h

theorem Kept.live_lt (hl : mgr.Live id) : 0 < id.indexOf ∧ id.indexOf < 4096 := by
  have := h.wf.size_le
  exact ⟨hl.1, by have := hl.2.1; omega⟩

/-- The live ids have different indices, and there are fewer than 4096 of these. -/
theorem Kept.length_ids : (ids s.log).length < 4096 := by
  have hn : ((ids s.log).map ID.indexOf).Nodup := by
    refine h.nodup.map_on fun j hj k hk he => ?_
    exact BufferManager.Live.ext (h.mem_ids.mp hj) (h.mem_ids.mp hk) he
  have hsub : (ids s.log).map ID.indexOf ⊆ List.range' 1 4095 := by
    intro i hi
    obtain ⟨j, hj, rfl⟩ := List.mem_map.mp hi
    have := h.live_lt (h.mem_ids.mp hj)
    rw [List.mem_range'_1]
    omega
  have := (hn.subperm hsub).length_le
  rw [List.length_map, List.length_range'] at this
  omega

theorem Kept.length_waiting : (waiting s.log).length < 4096 := by
  rw [← h.free]
  have hsub : mgr.free ⊆ List.range' 1 4095 := by
    intro i hi
    have := h.refines.mem_free h.wf hi
    rw [List.mem_range'_1]
    omega
  have := (h.wf.nodup.subperm hsub).length_le
  rw [List.length_range'] at this
  omega

theorem Kept.find (id : ID) : (s.table.find id).map Storage.address = (Event.live s.log).lookup id := by
  by_cases hl : mgr.Live id
  · have hm := (h.live id _).mpr ⟨hl, rfl⟩
    rw [h.refines.find_live hl, Option.map_some]
    exact (lookup_of_mem h.nodup hm).symm
  · rw [h.refines.find_none hl, Option.map_none, eq_comm, List.lookup_eq_none_iff]
    rintro ⟨j, address⟩ hm
    rw [bne_iff_ne]
    rintro rfl
    exact hl ((h.live _ _).mp hm).1

theorem Kept.stale {after before : List Event} (he : s.log = after ++ .free id :: before)
    (hn : freesOf id.indexOf after < 15) : s.table.find id = none := by
  refine h.refines.find_none fun hl => ?_
  have hg := h.generation id.indexOf
  rw [he, freesOf_append, freesOf, if_pos rfl, hl.2.2.2, h.freed after id before he] at hg
  omega

theorem Kept.sound : Sound s where
  distinct := h.nodup
  notNull hm := (h.mem_ids.mp hm).ne_zero rfl
  resolves := h.find
  named id storage hf := by
    by_cases hl : mgr.Live id
    · rw [h.refines.find_live hl] at hf
      rw [← Option.some.inj hf]
      exact h.stamp id hl
    · rw [h.refines.find_none hl] at hf
      contradiction
  unshared := by
    have hlive : (Event.live s.log).Nodup := h.nodup.of_map _
    refine hlive.map_on ?_
    rintro ⟨j, a⟩ hj ⟨k, b⟩ hk rfl
    obtain ⟨hlj, haj⟩ := (h.live _ _).mp hj
    obtain ⟨hlk, hak⟩ := (h.live _ _).mp hk
    have hidx := h.owner _ _ hlj.1 hlj.2.1 hlk.1 hlk.2.1 (haj.trans hak.symm)
    rw [BufferManager.Live.ext hlj hlk hidx]
  stale _ _ _ he hn := h.stale he hn
  freeList := h.free ▸ h.refines.free
  once := h.free ▸ h.wf.nodup
  notLive i := by
    rw [← h.free]
    constructor
    · intro hi
      have := h.refines.mem_free h.wf hi
      exact ⟨this.1, this.2.1, this.2.2.2⟩
    · rintro ⟨hi, hlt, hd⟩
      exact h.dead i hi (by rw [h.refines.size]; exact hlt) (by rw [h.refines.slots]; exact hd)
  fifo := h.order
  liveCount := by
    have := h.length_ids
    rw [LinkedManager.allocatedBuffers, h.liveCount, length_live, BitVec.toNat_ofNat]
    omega
  freeCount := by
    have := h.length_waiting
    rw [LinkedManager.freeBuffers, h.freeCount, BitVec.toNat_ofNat]
    omega
  ignored id hm := LinkedManager.freeBuffer_dead h.refines fun hl => hm (h.mem_ids.mpr hl)

end

/-- Buffer ids are sound over every sequence of allocations and frees. -/
theorem buffers_sound (ops : List Op) : Sound (run ops) := by
  obtain ⟨mgr, h⟩ := kept_run ops
  exact h.sound

/-- One slot allocated and freed 16 times over, and then allocated once more. -/
def lap : List Op := (List.range 16).flatMap (fun g => [.alloc, .free (ID.makeId 1 g)]) ++ [.alloc]

/-- After 15 further frees of its slot a freed id can resolve again: the generation has gone round. -/
theorem stale_after_fifteen : ∃ ops after id before, (run ops).log = after ++ .free id :: before ∧
    freesOf id.indexOf after = 15 ∧ ((run ops).table.find id).isSome = true :=
  ⟨lap, (run lap).log.take 31, 0x0001, [.alloc 0x0001 1], by decide +kernel, by decide +kernel, by decide +kernel⟩

end Session

end Pepp.Bts
