import Pepp.Alloc.Chains

/-!
# A chain as one string of bytes

What a chain has handed out, buffer after buffer, is a string that only ever
grows at its end. The unused tail of a buffer that an append rolled over is not
part of it, so a location is a place in the string and not just an offset.
-/

namespace Pepp.Bts

open Span Outcome BufferManager

/-- The bytes handed out from one buffer. -/
def handedOut (mgr : BufferManager) (id : ID) : List U8 := slice (mgr.deref id).bytes 0 (mgr.deref id).used

def content (s : BufferManager × BufferChain) : List U8 := s.2.bufs.flatMap (handedOut s.1)

/-- The location is `k` bytes into the string of the chain. -/
def PlacedAt (s : BufferManager × BufferChain) (loc : Location) (k : Nat) : Prop :=
  ∃ before after, s.2.bufs = before ++ loc.id :: after ∧
    k = (before.flatMap (handedOut s.1)).length + loc.offset.toNat

variable {s t : BufferManager × BufferChain}

theorem handedOut_congr {mgr mgr' : BufferManager} {bufs : List ID} (h : ∀ id ∈ bufs, mgr'.deref id = mgr.deref id) :
    bufs.flatMap (handedOut mgr') = bufs.flatMap (handedOut mgr) := by
  simp only [List.flatMap]
  congr 1
  exact List.map_congr_left fun id hid => by rw [handedOut, handedOut, h id hid]

/-- The chain of `s` has only grown at its end, whatever happened to other chains. -/
structure Keeps (s s' : BufferManager × BufferChain) : Prop where
  bufs : ∃ new, s'.2.bufs = s.2.bufs ++ new
  live : ∀ id ∈ s.2.bufs, s'.1.Live id
  used : ∀ id ∈ s.2.bufs, (s.1.deref id).used ≤ (s'.1.deref id).used
  bytes : ∀ id ∈ s.2.bufs, ∀ i < (s.1.deref id).used, (s'.1.deref id).bytes i = (s.1.deref id).bytes i
  inner : ∀ id ∈ s.2.bufs.dropLast, s'.1.deref id = s.1.deref id

theorem Grows.keeps (h : Grows s t) (ho : Owns s) : Keeps s t where
  bufs := h.bufs.imp fun _ hb => hb.1
  live id hid := h.live id (ho.live id hid)
  used id hid := h.used id (ho.live id hid)
  bytes id hid := h.bytes id (ho.live id hid)
  inner := h.inner

namespace Keeps

variable {u : BufferManager × BufferChain}

/-- Nothing happened to the chain. -/
theorem of_same (hb : t.2.bufs = s.2.bufs) (hl : ∀ id ∈ s.2.bufs, t.1.Live id)
    (hd : ∀ id ∈ s.2.bufs, t.1.deref id = s.1.deref id) : Keeps s t where
  bufs := ⟨[], by simp [hb]⟩
  live := hl
  used id hid := (congrArg Buffer.used (hd id hid)).ge
  bytes id hid i _ := by rw [hd id hid]
  inner id hid := hd id (List.mem_of_mem_dropLast hid)

theorem subset (h : Keeps s t) {id : ID} (hid : id ∈ s.2.bufs) : id ∈ t.2.bufs := by
  obtain ⟨new, hb⟩ := h.bufs
  rw [hb]
  exact List.mem_append_left _ hid

theorem dropLast_subset (h : Keeps s t) {id : ID} (hid : id ∈ s.2.bufs.dropLast) : id ∈ t.2.bufs.dropLast := by
  obtain ⟨new, hb⟩ := h.bufs
  rw [hb, List.dropLast_append]
  split
  · exact hid
  · exact List.mem_append_left _ (List.mem_of_mem_dropLast hid)

theorem trans (h : Keeps s t) (h' : Keeps t u) : Keeps s u where
  bufs := by
    obtain ⟨new, hb⟩ := h.bufs
    obtain ⟨new', hb'⟩ := h'.bufs
    exact ⟨new ++ new', by rw [hb', hb, List.append_assoc]⟩
  live id hid := h'.live id (h.subset hid)
  used id hid := (h.used id hid).trans (h'.used id (h.subset hid))
  bytes id hid i hi := by
    rw [h'.bytes id (h.subset hid) i (Nat.lt_of_lt_of_le hi (h.used id hid)), h.bytes id hid i hi]
  inner id hid := (h'.inner id (h.dropLast_subset hid)).trans (h.inner id hid)

theorem stored (h : Keeps s t) {loc : Location} {data : List U8} (hid : loc.id ∈ s.2.bufs)
    (hs : Stored s.1 loc data) : Stored t.1 loc data := by
  refine ⟨h.live _ hid, hs.used.trans (h.used _ hid), ?_⟩
  rw [slice_congr (g := (s.1.deref loc.id).bytes), hs.bytes]
  intro i _ hi
  exact h.bytes _ hid i (Nat.lt_of_lt_of_le hi hs.used)

end Keeps

namespace BufferChain

/-- What making room leaves alone. -/
def SameString (s s' : BufferManager × BufferChain) : Prop := content s' = content s ∧ Owns s'

theorem appendBuffer_content (h : Owns s) : Meets appendBuffer s fun _ s' => SameString s s' := by
  refine (Meets.and ?_ (appendBuffer_meets h)).mono fun r s' hr => ⟨hr.1, hr.2.2.1⟩
  unfold appendBuffer
  apply meets_get
  cases ha : s.1.allocBuffer with
  | error e => exact meets_throw rfl
  | ok r =>
    have hal := allocBuffer_ok h.wf ha
    refine meets_set ?_
    rw [content, content, bufs_link, List.flatMap_append, handedOut_congr fun id hid => hal.frame id (h.live id hid)]
    simp [handedOut, hal.used]

theorem tail_content (h : Owns s) : Meets tail s fun _ s' => SameString s s' := by
  unfold tail
  apply meets_get
  split
  · apply meets_bind
    refine (appendBuffer_content h).mono fun r s' hr => ?_
    cases r with
    | error e => exact hr
    | ok _ => exact meets_get (meets_pure hr)
  · exact meets_get (meets_pure ⟨rfl, h⟩)

theorem ensureCapacity_content (h : Owns s) (size : Nat) :
    Meets (ensureCapacity size) s fun _ s' => SameString s s' := by
  unfold ensureCapacity
  apply meets_bind
  refine (tail_content h).mono fun r s₁ hr => ?_
  cases r with
  | error e => exact hr
  | ok buf =>
    apply meets_get
    split
    · exact (appendBuffer_content hr.2).mono fun _ s₂ hr₂ => ⟨hr₂.1.trans hr.1, hr₂.2⟩
    · exact meets_pure hr

theorem tailFor_content (h : Owns s) (size : Nat) : Meets (tailFor size) s fun _ s' => SameString s s' := by
  unfold tailFor
  apply meets_bind
  refine (ensureCapacity_content h size).mono fun r s₁ hr => ?_
  cases r with
  | error e => exact hr
  | ok _ => exact (tail_content hr.2).mono fun _ s₂ hr₂ => ⟨hr₂.1.trans hr.1, hr₂.2⟩

/-- An append adds its bytes at the end of the string, and returns where that is unless it had no bytes
for a buffer with no room. -/
theorem append_content (h : Owns s) (data : List U8) :
    Meets (append data) s fun r s' =>
      match r with
      | .ok loc => content s' = content s ++ data ∧
          (data ≠ [] ∨ room s ≠ some 0 → PlacedAt s' loc (content s).length)
      | .error _ => content s' = content s := by
  unfold append
  apply meets_bind
  refine ((tailFor_content h data.length).and (tailFor_meets h data.length)).mono fun r s₁ hr => ?_
  obtain ⟨⟨hc, ho⟩, hg, -, hr⟩ := hr
  cases r with
  | error e => exact hc
  | ok buf =>
    obtain ⟨-, hlast, hrem, hsame⟩ := hr
    apply meets_get
    unfold Buffer.append
    by_cases hf : (s₁.1.deref buf).remaining < data.length
    · rw [if_pos hf]
      exact meets_throw hc
    · rw [if_neg hf]
      refine meets_bind (meets_set (meets_pure ?_))
      have hl := ho.live buf (List.mem_of_getLast? hlast)
      have hb := List.dropLast_append_getLast? buf hlast
      have hself : (s₁.1.setBuffer buf ⟨(s₁.1.deref buf).used + data.length,
          overwrite (s₁.1.deref buf).bytes (s₁.1.deref buf).used data⟩).deref buf = _ := deref_setBuffer_self
      have hinner : ∀ id ∈ s₁.2.bufs.dropLast, id ≠ buf := by
        rintro id hid rfl
        have hn := ho.nodup
        rw [← hb, List.nodup_append] at hn
        exact hn.2.2 id hid id (by simp) rfl
      have hframe : s₁.2.bufs.dropLast.flatMap (handedOut (s₁.1.setBuffer buf ⟨(s₁.1.deref buf).used + data.length,
          overwrite (s₁.1.deref buf).bytes (s₁.1.deref buf).used data⟩)) = _ := handedOut_congr fun id hid =>
        deref_setBuffer_of_ne hl (ho.live id (List.mem_of_mem_dropLast hid)) (hinner id hid)
      have hnew : handedOut (s₁.1.setBuffer buf ⟨(s₁.1.deref buf).used + data.length,
          overwrite (s₁.1.deref buf).bytes (s₁.1.deref buf).used data⟩) buf = handedOut s₁.1 buf ++ data := by
        rw [handedOut, hself, slice_add, Nat.zero_add, slice_overwrite,
          slice_overwrite_disjoint _ _ _ _ _ (.inl (by omega))]
        rfl
      refine ⟨?_, fun hne => ⟨s₁.2.bufs.dropLast, [], by simpa using hb.symm, ?_⟩⟩
      · rw [← hc, content, content, ← hb]
        simp only [List.flatMap_append, List.flatMap_singleton, hnew, hframe, List.append_assoc]
      · rw [hframe, ← hc, content]
        conv_lhs => rw [← hb]
        simp only [List.flatMap_append, List.flatMap_singleton, List.length_append, BitVec.toNat_ofNat]
        have hpos : 0 < (s₁.1.deref buf).remaining := by
          by_cases hd : data = []
          · have hr := hne.resolve_left (not_not.mpr hd)
            rw [hrem, hd]
            unfold roomFor
            cases hroom : room s with
            | none => exact Nat.succ_pos _
            | some r => simpa using Nat.pos_of_ne_zero fun hz => hr (hz ▸ hroom)
          · have := List.length_pos_iff.mpr hd
            omega
        simp only [Buffer.remaining, SIZE] at hpos
        rw [Nat.mod_eq_of_lt (by omega)]
        simp [handedOut]

end BufferChain

end Pepp.Bts

/-! ## Several appends in a row

Room for all of them is made first. If they fit one buffer together they end up
contiguous; what they cost in buffers, and whether they throw, follows from the
room there was and from their sizes. -/

namespace Pepp.Bts

open Outcome

/-- Append the parts that are not empty. The first of them is where they start. -/
def BufferChain.appendParts : List (List U8) → ChainM (Option Location)
  | [] => pure none
  | part :: parts =>
    if part = [] then appendParts parts
    else do
      let loc ← append part
      let _ ← appendParts parts
      return some loc

def BufferChain.storeParts (parts : List (List U8)) : ChainM (Option Location) := do
  ensureCapacity parts.flatten.length
  appendParts parts

/-- How many buffers appends of these sizes take. -/
def spend (room : Option Nat) : List Nat → Nat
  | [] => 0
  | n :: ns => BufferChain.needed room n + spend (some (BufferChain.roomFor room n - n)) ns

/-- And with room made for all of them first. -/
def cost (room : Option Nat) (sizes : List Nat) : Nat :=
  BufferChain.needed room sizes.sum + spend (some (BufferChain.roomFor room sizes.sum)) sizes

theorem Stored.append {mgr : BufferManager} {loc loc' : Location} {a b : List U8} (ha : Stored mgr loc a)
    (hb : Stored mgr loc' b) (hid : loc'.id = loc.id) (hoff : loc'.offset.toNat = loc.offset.toNat + a.length) :
    Stored mgr loc (a ++ b) := by
  refine ⟨ha.live, ?_, ?_⟩
  · have := hb.used
    rw [hid, hoff] at this
    rw [List.length_append, ← Nat.add_assoc]
    exact this
  · have hbytes := hb.bytes
    rw [hid, hoff] at hbytes
    rw [List.length_append, Span.slice_add, ha.bytes, hbytes]

namespace BufferChain

variable {s : BufferManager × BufferChain}

theorem room_of_append {r n : Nat} (h : n ≤ r) : roomFor (some r) n = r ∧ needed (some r) n = 0 := by
  simp [roomFor, needed, h]

theorem appendParts_meets (h : Owns s) {r : Nat} (hr : room s = some r) (parts : List (List U8)) :
    Meets (appendParts parts) s fun res s' => Grows s s' ∧ Owns s' ∧
      match res with
      | .ok start => s'.1.available + spend (some r) (parts.map List.length) = s.1.available ∧
          (∀ p ∈ parts, p.length ≤ SIZE) ∧
          (parts.flatten ≠ [] → ∃ loc, start = some loc ∧ loc.id ∈ s'.2.bufs) ∧
          (∀ part rest, parts = part :: rest → part ≠ [] → ∃ loc, start = some loc ∧ Stored s'.1 loc part) ∧
          (parts.flatten.length ≤ r → s'.2 = s.2 ∧ ∀ loc, start = some loc → Stored s'.1 loc parts.flatten ∧
            s.2.bufs.getLast? = some loc.id ∧ loc.offset.toNat + r = SIZE)
      | .error _ => s.1.available < spend (some r) (parts.map List.length) ∨ ∃ p ∈ parts, SIZE < p.length := by
  induction parts generalizing s r with
  | nil => exact meets_pure ⟨Grows.refl s, h, by simp [spend]⟩
  | cons part parts ih =>
    unfold appendParts
    by_cases hp : part = []
    · rw [if_pos hp]
      subst hp
      refine (ih h hr).mono fun res s' hres => ?_
      have hs : spend (some r) (([] :: parts).map List.length) = spend (some r) (parts.map List.length) := by
        simp [spend, needed, roomFor]
      rw [hs]
      cases res with
      | error e => simpa using hres
      | ok start =>
        obtain ⟨hg, ho, hav, hle, hsome, -, hfit⟩ := hres
        refine ⟨hg, ho, hav, by simpa using hle, by simpa using hsome, ?_, by simpa using hfit⟩
        rintro part rest he hne
        exact absurd (List.cons.inj he).1.symm hne
    · rw [if_neg hp]
      apply meets_bind
      refine (append_meets h part).mono fun res s₁ h₁ => ?_
      obtain ⟨hg₁, ho₁, h₁⟩ := h₁
      have hs : spend (some r) ((part :: parts).map List.length) =
          needed (some r) part.length + spend (some (roomFor (some r) part.length - part.length))
            (parts.map List.length) := rfl
      rw [hr] at h₁
      cases res with
      | error e =>
        refine ⟨hg₁, ho₁, ?_⟩
        rw [hs]
        rcases h₁ with h₁ | h₁
        · exact .inl (by omega)
        · exact .inr ⟨part, by simp, h₁⟩
      | ok loc =>
        obtain ⟨hav₁, hle, hst, hlast, hroom₁, hoff, hsame⟩ := h₁
        apply meets_bind
        refine (ih ho₁ hroom₁).mono fun res s₂ h₂ => ?_
        obtain ⟨hg₂, ho₂, h₂⟩ := h₂
        cases res with
        | error e =>
          refine ⟨hg₁.trans hg₂, ho₂, ?_⟩
          rw [hs]
          rcases h₂ with h₂ | ⟨p, hp, h₂⟩
          · exact .inl (by omega)
          · exact .inr ⟨p, by simp [hp], h₂⟩
        | ok start =>
          obtain ⟨hav₂, hle₂, hsome, -, hfit⟩ := h₂
          refine meets_pure ⟨hg₁.trans hg₂, ho₂, by rw [hs]; omega, ?_, fun _ => ⟨loc, rfl, ?_⟩, ?_, fun hlen => ?_⟩
          · intro p hp
            rcases List.mem_cons.mp hp with rfl | hp
            · exact hle
            · exact hle₂ p hp
          · exact hg₂.subset (List.mem_of_getLast? hlast)
          · rintro part' rest he -
            obtain rfl := (List.cons.inj he).1
            exact ⟨loc, rfl, hg₂.stored hst⟩
          · simp only [List.flatten_cons, List.length_append] at hlen
            obtain ⟨hrf, hn⟩ := room_of_append (r := r) (n := part.length) (by omega)
            rw [hrf] at hfit hoff
            obtain ⟨hc₂, hloc₂⟩ := hfit (by omega)
            have hc₁ := hsame hn
            refine ⟨hc₂.trans hc₁, fun loc' hloc' => ?_⟩
            cases hloc'
            have hst' := hg₂.stored hst
            refine ⟨?_, hc₁ ▸ hlast, hoff hp⟩
            rw [List.flatten_cons]
            by_cases hflat : parts.flatten = []
            · rw [hflat, List.append_nil]
              exact hst'
            · obtain ⟨loc₂, hstart, -⟩ := hsome hflat
              obtain ⟨hst₂, hlast₂, hoff₂⟩ := hloc₂ loc₂ hstart
              rw [hlast, Option.some.injEq] at hlast₂
              have := hoff hp
              exact hst'.append hst₂ hlast₂.symm (by omega)

/-- Parts that fit one buffer together are stored without a gap. -/
theorem storeParts_meets (h : Owns s) {parts : List (List U8)} (hne : parts.flatten ≠ []) :
    Meets (storeParts parts) s fun res s' => Grows s s' ∧ Owns s' ∧
      match res with
      | .ok start => ∃ loc, start = some loc ∧ loc.id ∈ s'.2.bufs ∧
          s'.1.available + cost (room s) (parts.map List.length) = s.1.available ∧
          (∀ p ∈ parts, p.length ≤ SIZE) ∧ (parts.flatten.length ≤ SIZE → Stored s'.1 loc parts.flatten) ∧
          ∀ part rest, parts = part :: rest → part ≠ [] → Stored s'.1 loc part
      | .error _ =>
          s.1.available < cost (room s) (parts.map List.length) ∨ ∃ p ∈ parts, SIZE < p.length := by
  have hsum : (parts.map List.length).sum = parts.flatten.length := List.length_flatten.symm
  unfold storeParts cost
  rw [hsum]
  apply meets_bind
  refine (ensureCapacity_meets h parts.flatten.length).mono fun res s₁ h₁ => ?_
  obtain ⟨hg₁, ho₁, h₁⟩ := h₁
  cases res with
  | error e => exact ⟨hg₁, ho₁, .inl (by omega)⟩
  | ok _ =>
    obtain ⟨hav₁, hroom₁, -⟩ := h₁
    refine (appendParts_meets ho₁ hroom₁ parts).mono fun res s₂ h₂ => ?_
    obtain ⟨hg₂, ho₂, h₂⟩ := h₂
    cases res with
    | error e => exact ⟨hg₁.trans hg₂, ho₂, h₂.imp_left fun h => by omega⟩
    | ok start =>
      obtain ⟨hav₂, hle, hsome, hfirst, hfit⟩ := h₂
      obtain ⟨loc, rfl, hid⟩ := hsome hne
      refine ⟨hg₁.trans hg₂, ho₂, loc, rfl, hid, by omega, hle, fun hlen => ?_, fun part rest he hp => ?_⟩
      · refine ((hfit ?_).2 loc rfl).1
        unfold roomFor
        split
        · split <;> omega
        · exact hlen
      · obtain ⟨loc', hl, hst⟩ := hfirst part rest he hp
        exact Option.some.inj hl ▸ hst

end BufferChain

end Pepp.Bts
