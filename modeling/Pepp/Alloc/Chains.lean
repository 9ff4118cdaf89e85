import Pepp.Alloc.Manager
import Pepp.Lib.Outcome

/-!
# What chain operations leave unchanged

Every operation on a chain, whether it returns or throws, only adds buffers that
were free before and only writes bytes no one had been handed. `Grows` is that
statement; `Stored` is what it preserves.
-/

namespace Pepp.Bts

open Span Outcome BufferManager

/-- The bytes `data` are handed out at `loc` and lie in one live buffer. -/
structure Stored (mgr : BufferManager) (loc : Location) (data : List U8) : Prop where
  live : mgr.Live loc.id
  used : loc.offset.toNat + data.length ≤ (mgr.deref loc.id).used
  bytes : slice (mgr.deref loc.id).bytes loc.offset.toNat data.length = data

/-- A chain whose buffers are live and listed once. -/
structure Owns (s : BufferManager × BufferChain) : Prop where
  wf : s.1.Wf
  live : ∀ id ∈ s.2.bufs, s.1.Live id
  nodup : s.2.bufs.Nodup

/-- From `s` to `s'` the chain only took free buffers and only wrote past what was handed out. -/
structure Grows (s s' : BufferManager × BufferChain) : Prop where
  live : ∀ id, s.1.Live id → s'.1.Live id
  frame : ∀ id, s.1.Live id → id ∉ s.2.bufs → s'.1.deref id = s.1.deref id
  used : ∀ id, s.1.Live id → (s.1.deref id).used ≤ (s'.1.deref id).used
  bytes : ∀ id, s.1.Live id → ∀ i < (s.1.deref id).used, (s'.1.deref id).bytes i = (s.1.deref id).bytes i
  bufs : ∃ new, s'.2.bufs = s.2.bufs ++ new ∧ ∀ id ∈ new, ¬ s.1.Live id
  owned : ∀ id, s'.1.Live id → s.1.Live id ∨ id ∈ s'.2.bufs
  inner : ∀ id ∈ s.2.bufs.dropLast, s'.1.deref id = s.1.deref id

namespace Grows

variable {s t u : BufferManager × BufferChain}

theorem refl (s : BufferManager × BufferChain) : Grows s s :=
  ⟨fun _ h => h, fun _ _ _ => rfl, fun _ _ => Nat.le_refl _, fun _ _ _ _ => rfl, ⟨[], by simp⟩, fun _ h => .inl h,
    fun _ _ => rfl⟩

theorem subset (h : Grows s t) {id : ID} (hid : id ∈ s.2.bufs) : id ∈ t.2.bufs := by
  obtain ⟨new, hb, -⟩ := h.bufs
  rw [hb]
  exact List.mem_append_left _ hid

theorem dropLast_subset (h : Grows s t) {id : ID} (hid : id ∈ s.2.bufs.dropLast) : id ∈ t.2.bufs.dropLast := by
  obtain ⟨new, hb, -⟩ := h.bufs
  rw [hb, List.dropLast_append]
  split
  · exact hid
  · exact List.mem_append_left _ (List.mem_of_mem_dropLast hid)

theorem trans (h : Grows s t) (h' : Grows t u) : Grows s u := by
  obtain ⟨new, hb, hn⟩ := h.bufs
  obtain ⟨new', hb', hn'⟩ := h'.bufs
  refine ⟨fun id hl => h'.live id (h.live id hl), fun id hl hid => ?_, fun id hl => ?_, fun id hl i hi => ?_, ?_,
    fun id hl => ?_, fun id hid => (h'.inner id (h.dropLast_subset hid)).trans (h.inner id hid)⟩
  · rw [h'.frame id (h.live id hl), h.frame id hl hid]
    rw [hb, List.mem_append, not_or]
    exact ⟨hid, fun hnew => hn id hnew hl⟩
  · exact (h.used id hl).trans (h'.used id (h.live id hl))
  · rw [h'.bytes id (h.live id hl) i (Nat.lt_of_lt_of_le hi (h.used id hl)), h.bytes id hl i hi]
  · refine ⟨new ++ new', by rw [hb', hb, List.append_assoc], fun id hid => ?_⟩
    rcases List.mem_append.mp hid with hid | hid
    · exact hn id hid
    · exact fun hl => hn' id hid (h.live id hl)
  · rcases h'.owned id hl with ht | hu
    · rcases h.owned id ht with hs | ht
      · exact .inl hs
      · exact .inr (h'.subset ht)
    · exact .inr hu

theorem stored (h : Grows s t) {loc : Location} {data : List U8} (hs : Stored s.1 loc data) :
    Stored t.1 loc data := by
  refine ⟨h.live _ hs.live, hs.used.trans (h.used _ hs.live), ?_⟩
  rw [slice_congr (g := (s.1.deref loc.id).bytes), hs.bytes]
  intro i _ hi
  exact h.bytes _ hs.live i (Nat.lt_of_lt_of_le hi hs.used)

end Grows

namespace BufferManager

variable {mgr : BufferManager} {id j : ID} {buffer : Buffer}

@[simp] theorem live_setBuffer : (mgr.setBuffer id buffer).Live j ↔ mgr.Live j := by
  simp only [Live, setBuffer, setSlot]
  by_cases h : j.indexOf = id.indexOf <;> simp [h]

theorem deref_setBuffer_self : (mgr.setBuffer id buffer).deref id = buffer := by
  simp [deref, setBuffer, setSlot]

theorem deref_setBuffer_of_ne (hid : mgr.Live id) (hj : mgr.Live j) (h : j ≠ id) :
    (mgr.setBuffer id buffer).deref j = mgr.deref j := by
  have hne : j.indexOf ≠ id.indexOf := fun he => h (hj.ext hid he)
  simp [deref, setBuffer, setSlot, hne]

theorem setBuffer_setBuffer (buffer' : Buffer) :
    (mgr.setBuffer id buffer).setBuffer id buffer' = mgr.setBuffer id buffer' := by
  simp only [setBuffer, setSlot, BufferManager.mk.injEq, true_and, and_true]
  funext i
  by_cases h : i = id.indexOf <;> simp [h]

theorem Wf.setBuffer (h : mgr.Wf) (hid : mgr.Live id) (hb : buffer.used ≤ SIZE) : (mgr.setBuffer id buffer).Wf := by
  refine ⟨h.size_le, fun i hi => ?_, h.nodup, fun i => ?_, fun i => ?_⟩
  · have hf := h.free i hi
    have hne : i ≠ id.indexOf := by
      rintro rfl
      rw [hid.2.2.1] at hf
      simp at hf
    simpa [BufferManager.setBuffer, setSlot, hne] using hf
  · by_cases hi : i = id.indexOf <;> simp [BufferManager.setBuffer, setSlot, hi, h.generation]
  · by_cases hi : i = id.indexOf <;> simp [BufferManager.setBuffer, setSlot, hi, h.used, hb]

end BufferManager

namespace BufferChain

variable {s : BufferManager × BufferChain} {f g : ID → ID}

theorem bufs_link (chain : BufferChain) (id : ID) : (chain.link id).bufs = chain.bufs ++ [id] := by
  unfold link
  cases h : chain.bufs.getLast? with
  | some last => rfl
  | none => simp [List.getLast?_eq_none_iff.mp h]

/-- A new buffer is empty, last in the chain, and was free before. -/
theorem appendBuffer_meets (h : Owns s) :
    Meets appendBuffer s fun r s' => Grows s s' ∧ Owns s' ∧
      match r with
      | .ok _ => s'.1.available + 1 = s.1.available ∧
          ∃ id, s'.2.bufs = s.2.bufs ++ [id] ∧ (s'.1.deref id).used = 0
      | .error _ => s' = s ∧ s.1.available = 0 := by
  unfold appendBuffer
  apply meets_get
  cases ha : s.1.allocBuffer with
  | error e =>
    refine meets_throw ⟨Grows.refl s, h, rfl, ?_⟩
    have := (allocBuffer_eq_ok h.wf).not.mp (by simp [ha])
    omega
  | ok r =>
    obtain ⟨id, mgr⟩ := r
    have hal := allocBuffer_ok h.wf ha
    refine meets_set ⟨⟨?_, ?_, ?_, ?_, ?_, ?_, ?_⟩, ⟨hal.wf, ?_, ?_⟩, hal.available, id, bufs_link _ _, hal.used⟩
    · exact fun j hj => (hal.live j).mpr (.inr hj)
    · exact fun j hj _ => hal.frame j hj
    · exact fun j hj => (congrArg Buffer.used (hal.frame j hj)).ge
    · exact fun j hj i _ => by rw [hal.frame j hj]
    · exact ⟨[id], bufs_link _ _, by simpa using hal.fresh⟩
    · intro j hj
      rcases (hal.live j).mp hj with rfl | hj
      · exact .inr (by rw [bufs_link]; simp)
      · exact .inl hj
    · exact fun j hj => hal.frame j (h.live j (List.mem_of_mem_dropLast hj))
    · intro j hj
      rw [bufs_link, List.mem_append, List.mem_singleton] at hj
      rcases hj with hj | rfl
      · exact (hal.live j).mpr (.inr (h.live j hj))
      · exact (hal.live j).mpr (.inl rfl)
    · rw [bufs_link, List.nodup_append]
      refine ⟨h.nodup, by simp, ?_⟩
      rintro j hj b hb rfl
      rw [List.mem_singleton] at hb
      subst hb
      exact hal.fresh (h.live _ hj)

/-- Free bytes of the last buffer, if there is one. -/
def room (s : BufferManager × BufferChain) : Option Nat :=
  s.2.bufs.getLast?.map fun id => (s.1.deref id).remaining

/-- How many buffers it takes to have `size` bytes free in the last one. An empty chain is given its
first buffer before anyone looks at the size. -/
def needed (room : Option Nat) (size : Nat) : Nat :=
  match room with
  | some r => if size ≤ r then 0 else 1
  | none => if size ≤ SIZE then 1 else 2

/-- The free bytes of the last buffer then. -/
def roomFor (room : Option Nat) (size : Nat) : Nat :=
  match room with
  | some r => if size ≤ r then r else SIZE
  | none => SIZE

theorem room_append_nil {mgr : BufferManager} {chain : BufferChain} {id : ID} (h : chain.bufs = s.2.bufs ++ [id])
    (hu : (mgr.deref id).used = 0) : room (mgr, chain) = some SIZE := by
  simp [room, h, Buffer.remaining, hu]

theorem tail_meets (h : Owns s) :
    Meets tail s fun r s' => Grows s s' ∧ Owns s' ∧
      match r with
      | .ok buf => s'.2.bufs.getLast? = some buf ∧ (s.2.bufs ≠ [] → s' = s) ∧
          (s.2.bufs = [] → room s' = some SIZE ∧ s'.1.available + 1 = s.1.available)
      | .error _ => s' = s ∧ s.2.bufs = [] ∧ s.1.available = 0 := by
  unfold tail
  apply meets_get
  by_cases he : s.2.bufs = []
  · have hempty : s.2.bufs.isEmpty = true := by simp [he]
    rw [if_pos hempty]
    apply meets_bind
    refine (appendBuffer_meets h).mono fun r s' hr => ?_
    obtain ⟨hg, ho, hr⟩ := hr
    cases r with
    | error e => exact ⟨hg, ho, hr.1, he, hr.2⟩
    | ok _ =>
      obtain ⟨hav, id, hb, hu⟩ := hr
      refine meets_get (meets_pure ⟨hg, ho, ?_, fun hne => absurd he hne, fun _ => ⟨room_append_nil hb hu, hav⟩⟩)
      simp [hb]
  · rw [if_neg (by simpa using he)]
    refine meets_get (meets_pure ⟨Grows.refl s, h, ?_, fun _ => rfl, fun hne => absurd hne he⟩)
    cases hl : s.2.bufs.getLast? with
    | none => exact absurd (List.getLast?_eq_none_iff.mp hl) he
    | some id => rfl

/-- Afterwards the last buffer has the room asked for, or a whole buffer. -/
theorem ensureCapacity_meets (h : Owns s) (size : Nat) :
    Meets (ensureCapacity size) s fun r s' => Grows s s' ∧ Owns s' ∧
      match r with
      | .ok _ => s'.1.available + needed (room s) size = s.1.available ∧
          room s' = some (roomFor (room s) size) ∧ (needed (room s) size = 0 → s' = s)
      | .error _ => s.1.available < needed (room s) size := by
  unfold ensureCapacity
  apply meets_bind
  refine (tail_meets h).mono fun r s₁ hr => ?_
  obtain ⟨hg, ho, hr⟩ := hr
  cases r with
  | error e =>
    obtain ⟨rfl, hb, ha⟩ := hr
    refine ⟨hg, ho, ?_⟩
    simp only [room, hb, needed, List.getLast?_nil, Option.map_none]
    split <;> omega
  | ok buf =>
    obtain ⟨hlast, hne, hnil⟩ := hr
    have hroom : room s₁ = some (s₁.1.deref buf).remaining := by simp [room, hlast]
    have hcap : ((s₁.1.deref buf).canFit size = true) ↔ size ≤ (s₁.1.deref buf).remaining := by
      simp [Buffer.canFit]
    -- What the chain had before the first buffer, if it was empty.
    have hbefore : (room s = some (s₁.1.deref buf).remaining ∧ s₁ = s) ∨
        (room s = none ∧ (s₁.1.deref buf).remaining = SIZE ∧ s₁.1.available + 1 = s.1.available) := by
      by_cases hb : s.2.bufs = []
      · obtain ⟨h₁, h₂⟩ := hnil hb
        exact .inr ⟨by simp [room, hb], Option.some.inj (hroom.symm.trans h₁), h₂⟩
      · have := hne hb
        exact .inl ⟨this ▸ hroom, this⟩
    apply meets_get
    by_cases hfit : size ≤ (s₁.1.deref buf).remaining
    · simp only [hcap.mpr hfit, Bool.not_true, Bool.false_eq_true, if_false]
      refine meets_pure ⟨hg, ho, ?_⟩
      rcases hbefore with ⟨hr, rfl⟩ | ⟨hr, hs, ha⟩
      · simp [hr, needed, roomFor, hfit]
      · rw [hs] at hfit
        simp [hr, needed, roomFor, hfit, hroom, hs, ha]
    · have hnot : (s₁.1.deref buf).canFit size = false := by simpa using hcap.not.mpr hfit
      simp only [hnot, Bool.not_false, if_true]
      refine (appendBuffer_meets ho).mono fun r s₂ hr₂ => ?_
      obtain ⟨hg₂, ho₂, hr₂⟩ := hr₂
      refine ⟨hg.trans hg₂, ho₂, ?_⟩
      cases r with
      | error e =>
        rcases hbefore with ⟨hr, rfl⟩ | ⟨hr, hs, ha⟩
        · simp [hr, needed, hfit, hr₂.2]
        · rw [hs] at hfit
          simp [hr, needed, hfit]
          omega
      | ok _ =>
        obtain ⟨hav, id, hb, hu⟩ := hr₂
        have hroom₂ : room s₂ = some SIZE := room_append_nil hb hu
        rcases hbefore with ⟨hr, rfl⟩ | ⟨hr, hs, ha⟩
        · simp [hr, needed, roomFor, hfit, hroom₂, hav]
        · rw [hs] at hfit
          simp [hr, needed, roomFor, hfit, hroom₂]
          omega

/-- The last buffer, with the room asked for or as much as a buffer has. -/
theorem tailFor_meets (h : Owns s) (size : Nat) :
    Meets (tailFor size) s fun r s' => Grows s s' ∧ Owns s' ∧
      match r with
      | .ok buf => s'.1.available + needed (room s) size = s.1.available ∧ s'.2.bufs.getLast? = some buf ∧
          (s'.1.deref buf).remaining = roomFor (room s) size ∧ (needed (room s) size = 0 → s' = s)
      | .error _ => s.1.available < needed (room s) size := by
  unfold tailFor
  apply meets_bind
  refine (ensureCapacity_meets h size).mono fun r s₁ hr => ?_
  obtain ⟨hg, ho, hr⟩ := hr
  cases r with
  | error e => exact ⟨hg, ho, hr⟩
  | ok _ =>
    obtain ⟨hav, hroom, hsame⟩ := hr
    have hne : s₁.2.bufs ≠ [] := by
      intro he
      simp [room, he] at hroom
    refine (tail_meets ho).mono fun r s₂ hr₂ => ?_
    obtain ⟨-, -, hr₂⟩ := hr₂
    cases r with
    | error e => exact absurd hr₂.2.1 hne
    | ok buf =>
      obtain ⟨hlast, heq, -⟩ := hr₂
      obtain rfl := heq hne
      refine ⟨hg, ho, hav, hlast, ?_, hsame⟩
      simpa [room, hlast] using hroom

/-- Handing out the next bytes of a buffer of the chain, with `data` in them. -/
theorem handOut (h : Owns s) {buf : ID} (hlast : s.2.bufs.getLast? = some buf) {data : List U8}
    (hf : data.length ≤ (s.1.deref buf).remaining) :
    let s' := (s.1.setBuffer buf ⟨(s.1.deref buf).used + data.length,
      overwrite (s.1.deref buf).bytes (s.1.deref buf).used data⟩, s.2)
    Grows s s' ∧ Owns s' ∧ Stored s'.1 ⟨buf, BitVec.ofNat 16 (s.1.deref buf).used⟩ data := by
  have hb : buf ∈ s.2.bufs := List.mem_of_getLast? hlast
  have hl := h.live buf hb
  have hu : (s.1.deref buf).used + data.length ≤ SIZE := by
    have := h.wf.used buf.indexOf
    simp only [Buffer.remaining, deref] at hf ⊢
    omega
  have hself : (s.1.setBuffer buf ⟨(s.1.deref buf).used + data.length,
      overwrite (s.1.deref buf).bytes (s.1.deref buf).used data⟩).deref buf = _ := deref_setBuffer_self
  refine ⟨⟨fun id h => live_setBuffer.mpr h, fun id hid hne => ?_, fun id hid => ?_, fun id hid i hi => ?_,
    ⟨[], by simp⟩, fun id hid => .inl (live_setBuffer.mp hid), fun id hid => ?_⟩,
    ⟨h.wf.setBuffer hl hu, fun id hid => ?_, h.nodup⟩, ⟨live_setBuffer.mpr hl, ?_, ?_⟩⟩
  · exact deref_setBuffer_of_ne hl hid fun he => hne (he ▸ hb)
  · by_cases he : id = buf
    · subst he
      rw [hself]
      exact Nat.le_add_right _ _
    · rw [deref_setBuffer_of_ne hl hid he]
  · by_cases he : id = buf
    · subst he
      rw [hself]
      exact overwrite_of_lt _ _ _ _ hi
    · rw [deref_setBuffer_of_ne hl hid he]
  · refine deref_setBuffer_of_ne hl (h.live id (List.mem_of_mem_dropLast hid)) ?_
    rintro rfl
    have hn := h.nodup
    rw [← List.dropLast_append_getLast? id hlast, List.nodup_append] at hn
    exact hn.2.2 id hid id (by simp) rfl
  · exact live_setBuffer.mpr (h.live id hid)
  · rw [hself]
    simp only [BitVec.toNat_ofNat]
    have := Nat.mod_le (s.1.deref buf).used (2 ^ 16)
    omega
  · rw [hself]
    rcases Nat.eq_zero_or_pos data.length with hz | hz
    · rw [hz, List.length_eq_zero_iff.mp hz, slice_zero]
    · have hlt : (s.1.deref buf).used < 2 ^ 16 := by simp only [SIZE] at hu; omega
      rw [BitVec.toNat_ofNat, Nat.mod_eq_of_lt hlt]
      exact slice_overwrite _ _ _

/-- Where an append puts its bytes, what it costs, and the only ways it can throw. -/
theorem append_meets (h : Owns s) (data : List U8) :
    Meets (append data) s fun r s' => Grows s s' ∧ Owns s' ∧
      match r with
      | .ok loc => s'.1.available + needed (room s) data.length = s.1.available ∧ data.length ≤ SIZE ∧
          Stored s'.1 loc data ∧ s'.2.bufs.getLast? = some loc.id ∧
          room s' = some (roomFor (room s) data.length - data.length) ∧
          (data ≠ [] → loc.offset.toNat + roomFor (room s) data.length = SIZE) ∧
          (needed (room s) data.length = 0 → s'.2 = s.2)
      | .error _ => s.1.available < needed (room s) data.length ∨ SIZE < data.length := by
  unfold append
  apply meets_bind
  refine (tailFor_meets h data.length).mono fun r s₁ hr => ?_
  obtain ⟨hg, ho, hr⟩ := hr
  cases r with
  | error e => exact ⟨hg, ho, .inl hr⟩
  | ok buf =>
    obtain ⟨hav, hlast, hrem, hsame⟩ := hr
    have hroom : data.length ≤ SIZE → data.length ≤ roomFor (room s) data.length := by
      intro hd
      unfold roomFor
      split
      · split <;> omega
      · exact hd
    apply meets_get
    unfold Buffer.append
    by_cases hf : (s₁.1.deref buf).remaining < data.length
    · rw [if_pos hf]
      refine meets_throw ⟨hg, ho, .inr ?_⟩
      rw [hrem] at hf
      omega
    · rw [if_neg hf]
      obtain ⟨hg₂, ho₂, hst⟩ := handOut ho hlast (Nat.le_of_not_lt hf)
      refine meets_bind (meets_set (meets_pure ⟨hg.trans hg₂, ho₂, hav, ?_, hst, hlast, ?_, ?_, ?_⟩))
      · have : (s₁.1.deref buf).remaining ≤ SIZE := Nat.sub_le _ _
        omega
      · have hself : (s₁.1.setBuffer buf ⟨(s₁.1.deref buf).used + data.length,
            overwrite (s₁.1.deref buf).bytes (s₁.1.deref buf).used data⟩).deref buf = _ := deref_setBuffer_self
        rw [← hrem]
        simp only [room, hlast, Option.map_some, hself, Option.some.injEq, Buffer.remaining]
        omega
      · intro hd
        have hpos := List.length_pos_iff.mpr hd
        rw [← hrem]
        simp only [Buffer.remaining, SIZE] at hf ⊢
        rw [BitVec.toNat_ofNat, Nat.mod_eq_of_lt (by omega)]
        omega
      · intro hn
        rw [hsame hn]

/-- An append goes through when one buffer can hold the bytes and the manager has the buffers it takes. -/
theorem append_ok_iff (h : Owns s) (data : List U8) :
    (∃ loc s', append data s = .ok loc s') ↔ data.length ≤ SIZE ∧ needed (room s) data.length ≤ s.1.available := by
  have hm := append_meets h data
  unfold Meets at hm
  constructor
  · rintro ⟨loc, s', ha⟩
    rw [ha] at hm
    obtain ⟨-, -, hav, hsize, -⟩ := hm
    exact ⟨hsize, by omega⟩
  · rintro ⟨hsize, hav⟩
    cases ha : append data s with
    | ok loc s' => exact ⟨loc, s', rfl⟩
    | error e s' =>
      rw [ha] at hm
      obtain ⟨-, -, hm⟩ := hm
      omega

/-- Reserving and then filling the reservation is appending. -/
theorem reserve_fill (data : List U8) :
    (do let loc ← reserve data.length; fill loc data; return loc) = append data := by
  unfold reserve append
  rw [bind_assoc]
  congr 1
  funext buf
  funext s
  change EStateM.run _ s = EStateM.run _ s
  by_cases hf : (s.1.deref buf).remaining < data.length
  · simp [Buffer.allocateUninitialized, Buffer.append, hf, EStateM.run_bind]
    rfl
  · have hoff : overwrite (s.1.deref buf).bytes ((s.1.deref buf).used % 65536) data =
        overwrite (s.1.deref buf).bytes (s.1.deref buf).used data := by
      rcases data with _ | ⟨d, data⟩
      · simp
      · simp only [Buffer.remaining, SIZE, List.length_cons] at hf
        rw [Nat.mod_eq_of_lt (by omega)]
    have hreserved : (s.1.deref buf).allocateUninitialized data.length =
        .ok { s.1.deref buf with used := (s.1.deref buf).used + data.length } := if_neg hf
    have happended : (s.1.deref buf).append data =
        .ok ⟨(s.1.deref buf).used + data.length, overwrite (s.1.deref buf).bytes (s.1.deref buf).used data⟩ := if_neg hf
    simp only [EStateM.run_bind, EStateM.run_get, hreserved, happended, fill]
    change EStateM.Result.ok _ (_, s.2) = EStateM.Result.ok _ (_, s.2)
    simp only [deref_setBuffer_self, setBuffer_setBuffer, BitVec.toNat_ofNat, Nat.reducePow, hoff]

/-- What freeing some buffers does. -/
structure AllFreed (bufs : List ID) (mgr mgr' : BufferManager) : Prop where
  wf : mgr'.Wf
  live : ∀ id, mgr'.Live id ↔ mgr.Live id ∧ id ∉ bufs
  frame : ∀ id, mgr.Live id → id ∉ bufs → mgr'.deref id = mgr.deref id
  available : mgr'.available = mgr.available + bufs.length

/-- Freeing distinct live buffers one after the other frees exactly those. -/
theorem foldl_freeBuffer (bufs : List ID) {mgr : BufferManager} (hwf : mgr.Wf) (hl : ∀ id ∈ bufs, mgr.Live id)
    (hn : bufs.Nodup) : AllFreed bufs mgr (bufs.foldl freeBuffer mgr) := by
  induction bufs generalizing mgr with
  | nil => constructor <;> simp [hwf]
  | cons id bufs ih =>
    have hfr := freeBuffer_live hwf (hl id (by simp))
    have hn := List.nodup_cons.mp hn
    obtain ⟨hwf', hl', hd, ha⟩ := ih hfr.wf (fun j hj => (hfr.live j).mpr
      ⟨fun he => hn.1 (he ▸ hj), hl j (List.mem_cons_of_mem _ hj)⟩) hn.2
    refine ⟨hwf', fun j => ?_, fun j hj hne => ?_, ?_⟩
    · rw [List.foldl_cons, hl', hfr.live, List.mem_cons, not_or]
      tauto
    · rw [List.mem_cons, not_or] at hne
      rw [List.foldl_cons, hd j ((hfr.live j).mpr ⟨hne.1, hj⟩) hne.2, hfr.frame j hne.1 hj]
    · rw [List.foldl_cons, ha, hfr.available, List.length_cons]
      omega

end BufferChain

end Pepp.Bts
