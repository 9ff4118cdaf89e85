import Pepp.Sim.Memory
import Pepp.Trace.Interval
import Pepp.Trace.Packets

/-!
# Traced memory

`Dense` of the traced simulator. A write records the difference that it makes at
its offset into the memory; a packet is analyzed by applying it to what the
memory holds at the addresses from the recorded one on.
-/

namespace Pepp.Trace

open XorDeltas

/-- Memory over an address type of `k` bytes. -/
structure Dense (k : Nat) where
  span : Interval (8 * k)
  device : U16
  data : List U8
  tb : Option Buffer
  size_data : data.length = span.size false

inductive Direction where
  | Forward | Reverse
  deriving DecidableEq

namespace Dense

variable {k : Nat}

/-- `maxDestAddr`, in `int` for the types that are promoted to it. -/
def maxDestAddr (address : BitVec (8 * k)) (size : Nat) : Nat :=
  let sum := address.toNat + (BitVec.ofNat (8 * k) size - 1).toNat
  if 8 * k < 32 then sum else sum % 2 ^ (8 * k)

def inBounds (self : Dense k) (address : BitVec (8 * k)) (size : Nat) : Prop :=
  self.span.lower ≤ address ∧ maxDestAddr address size ≤ self.span.upper.toNat

instance (self : Dense k) (address : BitVec (8 * k)) (size : Nat) : Decidable (self.inBounds address size) :=
  inferInstanceAs (Decidable (_ ∧ _))

def offset (self : Dense k) (address : BitVec (8 * k)) : BitVec (8 * k) := address - self.span.lower

def read (self : Dense k) (address : BitVec (8 * k)) (dest : List U8) (op : AccessType) :
    Except Exception (List U8 × Dense k) :=
  if self.inBounds address dest.length then
    let offset := self.offset address
    let src := self.data.drop offset.toNat
    let traced := if op ≠ .Application ∧ op ≠ .BufferInternal then
        { self with tb := self.tb.map fun tb => tb.emitPureRead self.device offset (.ofNat (8 * k) src.length) }
      else self
    .ok (memcpy dest src, traced)
  else .error (.oobAccess address.toNat)

def write (self : Dense k) (address : BitVec (8 * k)) (src : List U8) (op : AccessType) :
    Except Exception (Dense k) :=
  if self.inBounds address src.length then
    let offset := self.offset address
    let dest := self.data.drop offset.toNat
    .ok { self with
      tb := if op ≠ .BufferInternal then self.tb.map fun tb => tb.emitWrite self.device offset src dest else self.tb
      data := self.data.take offset.toNat ++ memcpy dest src
      size_data := by
        rw [List.length_append, memcpy, length_copy, List.length_take, List.length_drop, ← self.size_data]
        omega }
  else .error (.oobAccess address.toNat)

/-- `PayloadHelper`: how far the address moves on, and the memory after it. -/
def payload (self : Dense k) (address : BitVec (8 * k)) (frag : Payload) :
    Except Exception (BitVec (8 * k) × Dense k) := do
  let len := min 32 frag.len.toNat
  let (span, self) ← self.read address (List.replicate len 0) .BufferInternal
  let self ← self.write address (memcpyXor span span (frag.bytes.take frag.len.toNat)) .BufferInternal
  return (.ofNat (8 * k) len, self)

/-- Apply the payloads one after another. -/
def applyPayloads (self : Dense k) (address : BitVec (8 * k)) : List Payload → Except Exception (Dense k)
  | [] => .ok self
  | frag :: rest => do
    let (len, self) ← self.payload address frag
    self.applyPayloads (address + len) rest

/-- `analyze`; the payloads come in the direction of the iterator. -/
def analyze (self : Dense k) (packet : Packet) (direction : Direction) : Except Exception (Bool × Dense k) :=
  if packet.header.device ≠ self.device then .ok (false, self)
  else
    match packet.header with
    | .write _ _ address => do
      let payloads := match direction with
        | .Forward => packet.payloads
        | .Reverse => packet.payloads.reverse
      return (true, ← self.applyPayloads (address.toAddress k) payloads)
    | _ => .ok (true, self)

/-! ## Runs -/

/-- What happens to a memory while it is traced. -/
inductive Access (k : Nat) where
  | frameStart
  | read (address : BitVec (8 * k)) (size : Nat) (op : AccessType)
  | write (address : BitVec (8 * k)) (src : List U8) (op : AccessType)

def access (self : Dense k) : Access k → Except Exception (Dense k)
  | .frameStart => .ok { self with tb := self.tb.map Buffer.emitFrameStart }
  | .read address size op => (self.read address (List.replicate size 0) op).map Prod.snd
  | .write address src op => self.write address src op

def run (self : Dense k) : List (Access k) → Except Exception (Dense k)
  | [] => .ok self
  | a :: rest => self.access a >>= fun self => self.run rest

/-- Pass packets to `analyze` one after another. -/
def analyzeAll (self : Dense k) (direction : Direction) : List Packet → Except Exception (Dense k)
  | [] => .ok self
  | p :: rest => self.analyze p direction >>= fun result => result.2.analyzeAll direction rest

end Dense

end Pepp.Trace

/-! ## Undo and redo of traced writes

A memory that starts at address 0 finds a write where it was recorded, and one
of up to 32 bytes has no more than one payload. The packets of such writes lead
back to the initial contents, and then to the final ones again. -/

namespace Pepp.Trace.Dense

open XorDeltas

variable {k : Nat} {m m' : Dense k} {a : Access k} {b : Buffer}

/-- A write into the memory that is traced. -/
def Traced (m : Dense k) : Access k → Prop
  | .write address _ op => op ≠ .BufferInternal ∧ m.span.has address
  | _ => True

instance (m : Dense k) : DecidablePred m.Traced
  | .write _ _ _ => inferInstanceAs (Decidable (_ ∧ _))
  | .frameStart => inferInstanceAs (Decidable True)
  | .read _ _ _ => inferInstanceAs (Decidable True)

/-- A write that goes into one payload. -/
def Short : Access k → Prop
  | .write _ src _ => src.length ≤ 32
  | _ => True

instance : DecidablePred (@Short k)
  | .write _ _ _ => inferInstanceAs (Decidable (_ ≤ _))
  | .frameStart => inferInstanceAs (Decidable True)
  | .read _ _ _ => inferInstanceAs (Decidable True)

/-- The memory with a delta applied to it, and another buffer. -/
def patched (m : Dense k) (tb : Option Buffer) (base : Nat) (d : List U8) : Dense k :=
  { m with tb := tb, data := XorDeltas.apply m.data base d, size_data := (length_apply _ _ _).trans m.size_data }

theorem patched_nil (m : Dense k) (tb : Option Buffer) (base : Nat) : m.patched tb base [] = { m with tb := tb } := by
  have hnil : XorDeltas.apply m.data base [] = m.data := by
    rw [XorDeltas.apply, delta, List.zipWith_nil_right, copy, List.take_nil, List.nil_append, List.length_nil,
      List.drop_zero, List.take_append_drop]
  simp only [patched, hnil]

/-! ## One payload -/

variable {address : BitVec (8 * k)} {n : Nat}

/-- To write is to apply the difference. -/
theorem write_eq {src : List U8} (h : m.inBounds address src.length) (op : AccessType) :
    m.write address src op = .ok (m.patched
      (if op ≠ .BufferInternal then
        m.tb.map fun tb => tb.emitWrite m.device (m.offset address) src (m.data.drop (m.offset address).toNat)
      else m.tb) (m.offset address).toNat (delta src (m.data.drop (m.offset address).toNat))) := by
  rw [write, if_pos h]
  simp only [patched, apply_delta, memcpy]

theorem read_internal {dest : List U8} (h : m.inBounds address dest.length) :
    m.read address dest .BufferInternal = .ok (memcpy dest (m.data.drop (m.offset address).toNat), m) := by
  rw [read, if_pos h]
  rfl

theorem maxDestAddr_of_le (hn : 0 < n) (h : address.toNat + n ≤ 2 ^ (8 * k)) :
    maxDestAddr address n = address.toNat + (n - 1) := by
  have hpred : BitVec.ofNat (8 * k) n - 1 = BitVec.ofNat (8 * k) (n - 1) := by
    obtain ⟨j, rfl⟩ : ∃ j, n = j + 1 := ⟨n - 1, by omega⟩
    rw [Nat.add_sub_cancel, BitVec.ofNat_add]
    exact BitVec.add_sub_cancel _ _
  have hlt : (BitVec.ofNat (8 * k) (n - 1)).toNat = n - 1 := by
    rw [BitVec.toNat_ofNat, Nat.mod_eq_of_lt (by omega)]
  rw [maxDestAddr, hpred, hlt]
  split
  · rfl
  · exact Nat.mod_eq_of_lt (by omega)

theorem length_data_le (m : Dense k) (h : 0 < m.data.length) : m.span.lower.toNat + m.data.length = m.span.upper.toNat + 1 := by
  have hsize := m.size_data
  rw [Interval.size] at hsize
  split at hsize
  · next hvalid =>
    have := BitVec.le_def.mp hvalid
    simp only [Bool.false_eq_true, if_false] at hsize
    omega
  · omega

theorem inBounds_of_le (hlower : m.span.lower = 0) (hn : 0 < n) (h : address.toNat + n ≤ m.data.length) :
    m.inBounds address n := by
  have hlen := m.length_data_le (by omega)
  have hlt := m.span.upper.isLt
  rw [hlower] at hlen
  change 0 + _ = _ at hlen
  refine ⟨?_, ?_⟩
  · rw [hlower, BitVec.le_def]
    exact Nat.zero_le _
  · rw [maxDestAddr_of_le hn (by omega)]
    omega

theorem offset_eq (address : BitVec (8 * k)) (hlower : m.span.lower = 0) : m.offset address = address := by
  rw [offset, hlower]
  exact BitVec.sub_zero address

/-- To combine what is read from a span with a delta and to write it back is to apply the delta. -/
theorem copy_xor_span {old : List U8} {d : List U8} (hold : n ≤ old.length) (hd : d.length = n) :
    memcpy old (memcpyXor (memcpy (List.replicate n 0) old) (memcpy (List.replicate n 0) old) d) =
      copy old (delta old d) := by
  have hspan : memcpy (List.replicate n 0) old = old.take n := by
    rw [memcpy, copy, List.length_replicate, List.drop_eq_nil_of_le (by simpa using hold), List.append_nil]
  have hdelta : delta (old.take n) d = delta old d := by
    apply List.ext_getElem?
    intro i
    rw [delta, delta, List.getElem?_zipWith, List.getElem?_zipWith]
    rcases Nat.lt_or_ge i n with hi | hi
    · rw [List.getElem?_take_of_lt hi]
    · rw [@List.getElem?_eq_none _ d i (by rw [hd]; exact hi)]
      cases (old.take n)[i]? <;> cases old[i]? <;> rfl
  rw [hspan, memcpyXor, hdelta, memcpy]
  congr 1
  refine copy_of_length_eq ?_
  rw [length_delta, List.length_take, hd]
  omega

/-- A payload is a delta. -/
theorem payload_eq {frag : Payload} (hlower : m.span.lower = 0) (hn : 0 < frag.len.toNat) (hshort : frag.len.toNat ≤ 32)
    (h : address.toNat + frag.len.toNat ≤ m.data.length) :
    m.payload address frag = .ok (.ofNat (8 * k) frag.len.toNat,
      m.patched m.tb address.toNat (frag.bytes.take frag.len.toNat)) := by
  have hin := inBounds_of_le hlower hn h
  have hlen : (memcpyXor (memcpy (List.replicate frag.len.toNat 0) (m.data.drop address.toNat))
      (memcpy (List.replicate frag.len.toNat 0) (m.data.drop address.toNat))
      (frag.bytes.take frag.len.toNat)).length = frag.len.toNat := by
    rw [memcpyXor, length_copy, memcpy, length_copy, List.length_replicate]
  have hdelta := @copy_xor_span frag.len.toNat (m.data.drop address.toNat) (frag.bytes.take frag.len.toNat)
    (by rw [List.length_drop]; omega) (by rw [List.length_take, frag.size]; omega)
  have hread := @read_internal k m address (List.replicate frag.len.toNat 0) (by rw [List.length_replicate]; exact hin)
  have hwrite := @write_eq k m address _ (by rw [hlen]; exact hin) .BufferInternal
  rw [offset_eq address hlower] at hread hwrite
  rw [payload, Nat.min_eq_right hshort, hread]
  change (do
    let self ← m.write address (memcpyXor _ _ _) .BufferInternal
    return (BitVec.ofNat (8 * k) frag.len.toNat, self)) = _
  rw [hwrite]
  change Except.ok _ = _
  simp only [patched, apply_delta, ne_eq, not_true_eq_false, if_false]
  simp only [memcpy] at hdelta ⊢
  simp only [hdelta]
  rfl

/-! ## One access -/

theorem payloadsOf_nil {fuel : Nat} {buf1 buf2 : List U8} (h : min buf1.length buf2.length = 0) :
    Buffer.payloadsOf fuel buf1 buf2 = [] := by
  cases fuel with
  | zero => rfl
  | succ fuel =>
    rw [Buffer.payloadsOf]
    exact if_pos h

/-- Up to 32 bytes go into one payload, which holds all of the delta. -/
theorem payloadsOf_short {buf1 buf2 : List U8} (hpos : 0 < min buf1.length buf2.length)
    (hshort : min buf1.length buf2.length ≤ 32) :
    ∃ p, Buffer.payloadsOf (min buf1.length buf2.length) buf1 buf2 = [p] ∧ p.len.toNat = min buf1.length buf2.length ∧
      p.bytes.take (min buf1.length buf2.length) = delta buf1 buf2 := by
  obtain ⟨fuel, hfuel⟩ : ∃ fuel, min buf1.length buf2.length = fuel + 1 := ⟨min buf1.length buf2.length - 1, by omega⟩
  have hrest : Buffer.payloadsOf fuel (buf1.drop (fuel + 1)) (buf2.drop (fuel + 1)) = [] :=
    payloadsOf_nil (by rw [List.length_drop, List.length_drop]; omega)
  have hdelta : delta (buf1.take (fuel + 1)) (buf2.take (fuel + 1)) = delta buf1 buf2 := by
    rw [delta, ← List.take_zipWith]
    refine List.take_of_length_le ?_
    rw [List.length_zipWith]
    omega
  have hlen : (delta buf1 buf2).length = fuel + 1 := by rw [length_delta, hfuel]
  have htake := @take_copy _ (List.replicate 32 (0 : U8)) (delta buf1 buf2) (by rw [hlen, List.length_replicate]; omega)
  rw [hlen] at htake
  rw [hfuel, Buffer.payloadsOf]
  simp only [hfuel, Nat.min_eq_left (show fuel + 1 ≤ 32 by omega), show ¬fuel + 1 = 0 by omega, if_false, hrest]
  refine ⟨_, rfl, ?_, ?_⟩
  · have hflag : decide (fuel + 1 > 32) = false := decide_eq_false (by omega)
    simp only [VariableBytes.ofLen, hflag]
    exact toNat_masked (by omega)
  · simp only [memcpyXor, hdelta]
    exact htake

theorem emitWrite_eq {id : U16} (hon : b.traced id = true) (address : BitVec (8 * k)) (src dest : List U8) :
    b.emitWrite id address src dest = { b with
      fragments := b.fragments ++ (.header (.write id b.currentPath (.fromAddress address)) ::
        (Buffer.payloadsOf (min src.length dest.length) src dest).map .payload) } := by
  have hfold : ∀ (ps : List Payload) (b : Buffer), ps.foldl (fun self p => self.writeFragment (.payload p)) b =
      { b with fragments := b.fragments ++ ps.map .payload } := by
    intro ps
    induction ps with
    | nil => simp
    | cons p ps ih =>
      intro b
      rw [List.foldl_cons, ih, Buffer.writeFragment]
      simp
  rw [Buffer.emitWrite, if_pos hon, Buffer.emitPayloads, hfold]
  simp [Buffer.writeFragment]

theorem payloads_map (ps : List Payload) : payloads (ps.map .payload) = ps := by
  induction ps with
  | nil => rfl
  | cons p ps ih => exact congrArg (p :: ·) ih

theorem packets_map (ps : List Payload) : packets (ps.map .payload) = [] := by
  induction ps with
  | nil => rfl
  | cons p ps ih => exact ih

theorem analyzeAll_append (direction : Direction) (ps qs : List Packet) : m.analyzeAll direction (ps ++ qs) =
    m.analyzeAll direction ps >>= fun m' => m'.analyzeAll direction qs := by
  induction ps generalizing m with
  | nil => rfl
  | cons p ps ih =>
    rw [List.cons_append, analyzeAll, analyzeAll]
    cases m.analyze p direction with
    | error e => rfl
    | ok result => exact ih

/-- The packets lead back from one memory to the other, newest first, and forward again, oldest first. -/
structure Replays (m m' : Dense k) (recorded : List Packet) : Prop where
  span_eq : m'.span = m.span
  device_eq : m'.device = m.device
  reverse : ∀ tb, ({ m' with tb := tb } : Dense k).analyzeAll .Reverse recorded.reverse = .ok { m with tb := tb }
  forward : ∀ tb, ({ m with tb := tb } : Dense k).analyzeAll .Forward recorded = .ok { m' with tb := tb }

theorem Replays.trans {m'' : Dense k} {ps qs : List Packet} (h : m.Replays m' ps) (h' : m'.Replays m'' qs) :
    m.Replays m'' (ps ++ qs) := by
  constructor
  · exact h'.span_eq.trans h.span_eq
  · exact h'.device_eq.trans h.device_eq
  · intro tb
    rw [List.reverse_append, analyzeAll_append, h'.reverse]
    exact h.reverse tb
  · intro tb
    rw [analyzeAll_append, h.forward]
    exact h'.forward tb

/-- The packet of a short write applies its delta. -/
theorem analyze_short (hk : k ≤ 8) (hlower : m.span.lower = 0) (path : U16) {src old : List U8}
    (hshort : src.length ≤ 32) (hold : address.toNat + old.length = m.data.length) (direction : Direction) :
    m.analyze ⟨.write m.device path (.fromAddress address),
      Buffer.payloadsOf (min src.length old.length) src old⟩ direction =
        .ok (true, m.patched m.tb address.toNat (delta src old)) := by
  rw [analyze.eq_def, if_neg (by simp [Header.device])]
  simp only [toAddress_fromAddress hk]
  rcases Nat.eq_zero_or_pos (min src.length old.length) with hzero | hpos
  · have hdelta : delta src old = [] := List.eq_nil_of_length_eq_zero (by rw [length_delta, hzero])
    rw [payloadsOf_nil hzero, hdelta, patched_nil]
    cases direction <;> rfl
  · obtain ⟨p, hp, hlen, hbytes⟩ := payloadsOf_short hpos (by omega)
    have hpayload := @payload_eq k m address p hlower (by omega) (by omega) (by omega)
    rw [hlen, hbytes] at hpayload
    have happly : m.applyPayloads address [p] = .ok (m.patched m.tb address.toNat (delta src old)) := by
      rw [applyPayloads, hpayload]
      rfl
    rw [hp]
    cases direction
    · change (do return (true, ← m.applyPayloads address [p])) = _
      rw [happly]
      rfl
    · change (do return (true, ← m.applyPayloads address [p])) = _
      rw [happly]
      rfl

/-- The packet of a short write leads to the old and to the new content. -/
theorem Replays.write (hk : k ≤ 8) (hlower : m.span.lower = 0) (path : U16) {src : List U8} (hspan : m.span.has address)
    (hshort : src.length ≤ 32) (tb : Option Buffer) :
    m.Replays (m.patched tb address.toNat (delta src (m.data.drop address.toNat)))
      [⟨.write m.device path (.fromAddress address),
        Buffer.payloadsOf (min src.length (m.data.drop address.toNat).length) src (m.data.drop address.toNat)⟩] := by
  have hold : address.toNat + (m.data.drop address.toNat).length = m.data.length := by
    have hsize := m.size_data
    rw [Interval.size, if_pos hspan.1] at hsize
    have hupper := BitVec.le_def.mp hspan.2.2
    rw [List.length_drop, hsize, hlower]
    simp
    omega
  generalize m.data.drop address.toNat = old at *
  constructor
  · rfl
  · rfl
  · intro tb'
    have h := @analyze_short k { m.patched tb address.toNat (delta src old) with tb := tb' } address hk hlower path src old
      hshort (by simpa [patched] using hold) .Reverse
    have hback : ({ m.patched tb address.toNat (delta src old) with tb := tb' } : Dense k).analyze
        ⟨.write m.device path (.fromAddress address), Buffer.payloadsOf (min src.length old.length) src old⟩ .Reverse =
          .ok (true, { m with tb := tb' }) :=
      h.trans (by simp only [patched, apply_apply])
    rw [List.reverse_singleton, analyzeAll, hback]
    rfl
  · intro tb'
    have h := @analyze_short k { m with tb := tb' } address hk hlower path src old hshort hold .Forward
    rw [analyzeAll]
    exact congrArg (fun r => r >>= fun result => result.2.analyzeAll .Forward []) h

/-- The packet of a read changes nothing. -/
theorem Replays.read (path : U16) (len : U64) (address : VariableBytes 8) (tb : Option Buffer) :
    m.Replays { m with tb := tb } [⟨.pureRead m.device path len address, []⟩] := by
  have h : ∀ (tb : Option Buffer) (direction : Direction), ({ m with tb := tb } : Dense k).analyze
      ⟨.pureRead m.device path len address, []⟩ direction = .ok (true, { m with tb := tb }) := fun tb direction => by
    rw [analyze.eq_def, if_neg (by simp [Header.device])]
  constructor
  · rfl
  · rfl
  · intro tb
    rw [List.reverse_singleton, analyzeAll, h]
    rfl
  · intro tb
    rw [analyzeAll, h]
    rfl

/-- What one access adds to the buffer. -/
theorem access_replays (hk : k ≤ 8) (hlower : m.span.lower = 0) (hb : m.tb = some b) (hon : b.traced m.device = true)
    (htraced : m.Traced a) (hshort : Short a) (h : m.access a = .ok m') :
    ∃ added, m'.tb = some { b with fragments := b.fragments ++ added } ∧ payloads added = [] ∧
      m.Replays m' (packets added) := by
  cases a with
  | frameStart =>
    cases h
    refine ⟨[.trace], by simp [hb, Buffer.emitFrameStart, Buffer.writeFragment], rfl, ?_⟩
    exact ⟨rfl, rfl, fun _ => rfl, fun _ => rfl⟩
  | read address size op =>
    change (m.read address (List.replicate size 0) op).map Prod.snd = _ at h
    rw [read] at h
    split at h
    · cases h
      dsimp only
      by_cases hop : op ≠ .Application ∧ op ≠ .BufferInternal
      · rw [if_pos hop]
        have hemit : ∀ offset len : BitVec (8 * k), b.emitPureRead m.device offset len = { b with fragments :=
            b.fragments ++ [.header (.pureRead m.device b.currentPath (len.setWidth 64) (.fromAddress offset))] } :=
          fun offset len => if_pos hon
        rw [hb, Option.map_some, hemit]
        exact ⟨_, rfl, rfl, Replays.read b.currentPath _ _ _⟩
      · rw [if_neg hop]
        refine ⟨[], by rw [hb, List.append_nil], rfl, ?_⟩
        exact ⟨rfl, rfl, fun _ => rfl, fun _ => rfl⟩
    · cases h
  | write address src op =>
    have hin : m.inBounds address src.length := by
      by_contra hout
      change m.write address src op = _ at h
      rw [write, if_neg hout] at h
      cases h
    have hwrite := write_eq hin op
    rw [if_pos htraced.1, offset_eq address hlower, hb, Option.map_some, emitWrite_eq hon] at hwrite
    cases h.symm.trans hwrite
    refine ⟨_, rfl, rfl, ?_⟩
    rw [packets, payloads_map, packets_map]
    exact Replays.write hk hlower b.currentPath htraced.2 hshort _

/-- The packets that a run records lead back from its end to its start, and forward again. -/
theorem run_replays (hk : k ≤ 8) (hlower : m.span.lower = 0) (hb : m.tb = some b) (hon : b.traced m.device = true)
    {accesses : List (Access k)} (htraced : ∀ a ∈ accesses, m.Traced a) (hshort : ∀ a ∈ accesses, Short a)
    (h : m.run accesses = .ok m') :
    ∃ added, m'.tb = some { b with fragments := b.fragments ++ added } ∧ payloads added = [] ∧
      m.Replays m' (packets added) := by
  induction accesses generalizing m b with
  | nil =>
    cases h
    exact ⟨[], by rw [hb, List.append_nil], rfl, rfl, rfl, fun _ => rfl, fun _ => rfl⟩
  | cons a accesses ih =>
    rw [List.forall_mem_cons] at htraced hshort
    cases hstep : m.access a with
    | error e =>
      rw [run, hstep] at h
      cases h
    | ok m₁ =>
      rw [run, hstep] at h
      obtain ⟨first, hb₁, hstart, hfirst⟩ := access_replays hk hlower hb hon htraced.1 hshort.1 hstep
      have htraced₁ : ∀ a ∈ accesses, m₁.Traced a := by
        intro a ha
        have := htraced.2 a ha
        cases a with
        | write address src op => exact ⟨this.1, hfirst.span_eq ▸ this.2⟩
        | _ => trivial
      obtain ⟨rest, hb', hstart', hrest⟩ :=
        ih (hfirst.span_eq ▸ hlower) hb₁ (hfirst.device_eq ▸ hon) htraced₁ hshort.2 h
      refine ⟨first ++ rest, by rw [hb', List.append_assoc], ?_, ?_⟩
      · cases first with
        | nil => exact hstart'
        | cons f first =>
          cases f with
          | payload p => cases hstart
          | _ => rfl
      · rw [packets_append hstart']
        exact hfirst.trans hrest

/-! ## The initial contents, and the final ones -/

/-- Passed back newest first and then forward oldest first, the packets restore the memories `m` and `m'`. -/
def Restores (m m' : Dense k) (recorded : List Packet) : Prop :=
  m'.analyzeAll .Reverse recorded.reverse = .ok { m with tb := m'.tb } ∧
    ({ m with tb := m'.tb } : Dense k).analyzeAll .Forward recorded = .ok m'

/-- In a memory that starts at address 0, writes of up to 32 bytes can be taken back and made again. -/
theorem run_restores (hk : k ≤ 8) (hb : m.tb = some b) (hon : b.traced m.device = true) {accesses : List (Access k)}
    (htraced : ∀ a ∈ accesses, m.Traced a) (h : m.run accesses = .ok m') (hlower : m.span.lower = 0)
    (hshort : ∀ a ∈ accesses, Short a) :
    ∃ added, m'.tb = some { b with fragments := b.fragments ++ added } ∧ m.Restores m' (packets added) := by
  obtain ⟨added, hb', -, hreplays⟩ := run_replays hk hlower hb hon htraced hshort h
  exact ⟨added, hb', hreplays.reverse m'.tb, hreplays.forward m'.tb⟩

/-- A cleared memory with a fresh buffer. -/
def blank (span : Interval 8) : Dense 1 :=
  ⟨span, 1, List.replicate (span.size false) 0, some ⟨fun _ => true, 0, []⟩, List.length_replicate⟩

/-- Two overlapping writes in two frames. -/
theorem run_restores_overlap : ∃ m' added,
    (blank ⟨0, 3⟩).run [.write 0 [7, 8, 8] .Standard, .frameStart, .write 1 [9] .Application] = .ok m' ∧
      m'.tb = some ⟨fun _ => true, 0, added⟩ ∧ (blank ⟨0, 3⟩).Restores m' (packets added) := by
  obtain ⟨m', hrun⟩ : ∃ m',
      (blank ⟨0, 3⟩).run [.write 0 [7, 8, 8] .Standard, .frameStart, .write 1 [9] .Application] = .ok m' := ⟨_, rfl⟩
  obtain ⟨added, hb, hrestores⟩ := run_restores (by decide) rfl rfl (by decide) hrun rfl (by decide)
  exact ⟨m', added, hrun, hb, hrestores⟩

/-- A write to a memory that starts at address 16 is recorded at offset 0, and address 0 is out of bounds. -/
theorem run_not_restores : ¬∀ (m m' : Dense 1) (b : Buffer) (accesses : List (Access 1)), m.tb = some b →
    b.traced m.device = true → (∀ a ∈ accesses, m.Traced a) → m.run accesses = .ok m' →
      ∃ added, m'.tb = some { b with fragments := b.fragments ++ added } ∧ m.Restores m' (packets added) := by
  intro h
  obtain ⟨added, hb, hback, -⟩ := h (blank ⟨16, 19⟩) _ ⟨fun _ => true, 0, []⟩ [.write 16 [7] .Standard] rfl rfl
    (by decide) rfl
  cases hb
  have hdata := congrArg (Except.map Dense.data) hback
  revert hdata
  decide

-- Nor is a write of 33 bytes taken back: its second payload is applied where the first belongs.
example : ∃ m' added,
    (blank ⟨0, 39⟩).run [.write 0 (List.replicate 32 1 ++ [2]) .Standard] = .ok m' ∧
      m'.tb = some ⟨fun _ => true, 0, added⟩ ∧ ¬(blank ⟨0, 39⟩).Restores m' (packets added) := by
  refine ⟨_, _, rfl, rfl, fun h => ?_⟩
  have hdata := congrArg (Except.map Dense.data) h.1
  revert hdata
  decide

end Pepp.Trace.Dense
