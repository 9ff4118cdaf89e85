import Pepp.Trace.IntervalSet
import Pepp.Trace.Packets

/-!
# Modified addresses

A sink adds the lengths of the payloads of a packet, and takes so many addresses
from the packet's own one on as modified, in two intervals when they run over
the end of the address space. The length of a payload has its flag in it.
-/

namespace Pepp.Trace

namespace Buffer

variable {k : Nat}

/-- The chunks of a buffer, as they are. -/
def chunksOf : Nat → List U8 → List Payload
  | 0, _ => []
  | fuel + 1, buf =>
    let remaining := buf.length
    if remaining = 0 then []
    else
      let payloadLen := min remaining 32
      let bytes : Payload := .ofLen (.ofNat 8 payloadLen) (remaining > 32)
      ⟨bytes.len, memcpy bytes.bytes (buf.take payloadLen), (XorDeltas.length_copy _ _).trans bytes.size⟩ ::
        chunksOf fuel (buf.drop payloadLen)

def emitChunks (self : Buffer) (buf : List U8) : Buffer :=
  (chunksOf buf.length buf).foldl (fun self p => self.writeFragment (.payload p)) self

def emitMMWrite (self : Buffer) (id : U16) (address : BitVec (8 * k)) (src : List U8) : Buffer :=
  if self.traced id then
    (self.writeFragment (.header (.write id self.currentPath (.fromAddress address)))).emitChunks src
  else self

def emitMMRead (self : Buffer) (id : U16) (address : BitVec (8 * k)) (src : List U8) : Buffer :=
  if self.traced id then
    (self.writeFragment (.header (.impureRead id self.currentPath (.fromAddress address)))).emitChunks src
  else self

end Buffer

/-- `bits::mask` -/
def mask (byteCount : U8) : U64 := if 8 ≤ byteCount.toNat then -1 else (1 <<< (byteCount.toNat * 8)) - 1

/-- `get_address_bytes` -/
def Header.addressBytes : Header → Option (VariableBytes 8)
  | .clear .. => none
  | .pureRead _ _ _ address => some address
  | .impureRead _ _ address => some address
  | .write _ _ address => some address
  | .increment _ _ address => some address

/-- `payload_length` -/
def Payload.length (self : Payload) : Nat := self.len.toNat

/-- `packet_payloads_length` -/
def Packet.payloadsLength (self : Packet) (includeRead : Bool) : Nat :=
  match self.header with
  | .clear .. => 0
  | .pureRead _ _ payloadLen _ => if includeRead then payloadLen.toNat else 0
  | _ => (self.payloads.map Payload.length).sum

/-- The intervals that `analyze` inserts for a packet; the addresses are not translated. -/
def Packet.modified (self : Packet) : List (Interval 16) :=
  match self.header.addressBytes with
  | none => []
  | some startAddrBytes =>
    let len := self.payloadsLength false
    if len = 0 then []
    else
      let start : U16 := startAddrBytes.toAddress 2
      let endAsU64 : U64 := start.setWidth 64 + .ofNat 64 len - 1
      let end_ : U16 := (endAsU64 &&& mask startAddrBytes.len).setWidth 16
      if end_ < start then
        let maxAddr : U16 := ((1 <<< (startAddrBytes.len.toNat * 8) : U64) - 1).setWidth 16
        [⟨start, maxAddr⟩, ⟨0, end_⟩]
      else [⟨start, end_⟩]

/-- `ModifiedAddressSink::analyze` -/
def analyze (iset : List (Interval 16)) (packet : Packet) : List (Interval 16) :=
  packet.modified.foldl (IntervalSet.insert true) iset

/-! ## What is emitted for a device -/

inductive Emission where
  | write (address : U16) (src dest : List U8)
  | mmWrite (address : U16) (src : List U8)
  | mmRead (address : U16) (src : List U8)
  | pureRead (address len : U16)

namespace Emission

def address : Emission → U16
  | write address .. => address
  | mmWrite address .. => address
  | mmRead address .. => address
  | pureRead address .. => address

/-- How many bytes of data the packet gets. -/
def dataLength : Emission → Nat
  | write _ src dest => min src.length dest.length
  | mmWrite _ src => src.length
  | mmRead _ src => src.length
  | pureRead .. => 0

/-- The addresses of its data, modulo 2^16; a pure read has no data. -/
def Covers (self : Emission) (a : U16) : Prop := ∃ i < self.dataLength, a = self.address + .ofNat 16 i

/-- Data of at most the length of one payload. -/
def Short (self : Emission) : Prop := self.dataLength ≤ 32

end Emission

/-- An emission, in a new frame or not. -/
def Buffer.emit (self : Buffer) (id : U16) (newFrame : Bool) (emission : Emission) : Buffer :=
  let self := if newFrame then self.emitFrameStart else self
  match emission with
  | .write address src dest => self.emitWrite (k := 2) id address src dest
  | .mmWrite address src => self.emitMMWrite (k := 2) id address src
  | .mmRead address src => self.emitMMRead (k := 2) id address src
  | .pureRead address len => self.emitPureRead (k := 2) id address len

def Buffer.emitAll (self : Buffer) (id : U16) (emissions : List (Bool × Emission)) : Buffer :=
  emissions.foldl (fun self e => self.emit id e.1 e.2) self

/-- Each packet has the length of its data, and the sink has the addresses of the data of all packets. -/
def ModifiedExactly (emissions : List Emission) (packets : List Packet) : Prop :=
  List.Forall₂ (fun e p => p.payloadsLength false = e.dataLength) emissions packets ∧
    ∀ a, IntervalSet.contains (packets.foldl analyze []) a = true ↔ ∃ e ∈ emissions, e.Covers a

/-! ## Lengths -/

/-- The lengths of the payloads for so many bytes, with the flags. -/
def flaggedLengths : Nat → Nat → List Nat
  | 0, _ => []
  | fuel + 1, remaining =>
    if remaining = 0 then []
    else (if 32 < remaining then 160 else remaining) :: flaggedLengths fuel (remaining - min remaining 32)

theorem length_ofLen (remaining : Nat) :
    (VariableBytes.ofLen (.ofNat 8 (min remaining 32)) (remaining > 32) : Payload).len.toNat =
      if 32 < remaining then 160 else remaining := by
  rw [VariableBytes.ofLen]
  dsimp only
  by_cases hlong : 32 < remaining
  · rw [Nat.min_eq_right (Nat.le_of_lt hlong), if_pos (decide_eq_true hlong), if_pos hlong]
    rfl
  · have hmasked : (BitVec.ofNat 8 remaining &&& VariableBytes.lenMask ||| if false = true then 0x80 else 0).toNat =
        remaining := toNat_masked (by omega)
    rw [Nat.min_eq_left (Nat.not_lt.mp hlong), decide_eq_false hlong, hmasked, if_neg hlong]

theorem length_chunksOf (fuel : Nat) (buf : List U8) :
    (Buffer.chunksOf fuel buf).map Payload.length = flaggedLengths fuel buf.length := by
  induction fuel generalizing buf with
  | zero => rfl
  | succ fuel ih =>
    rw [Buffer.chunksOf, flaggedLengths]
    dsimp only
    split
    · rfl
    · rw [List.map_cons, ih, List.length_drop, Payload.length]
      exact congrArg (· :: _) (length_ofLen _)

theorem length_payloadsOf (fuel : Nat) (buf1 buf2 : List U8) :
    (Buffer.payloadsOf fuel buf1 buf2).map Payload.length = flaggedLengths fuel (min buf1.length buf2.length) := by
  induction fuel generalizing buf1 buf2 with
  | zero => rfl
  | succ fuel ih =>
    rw [Buffer.payloadsOf, flaggedLengths]
    dsimp only
    split
    · rfl
    · rw [List.map_cons, ih, List.length_drop, List.length_drop, Nat.sub_min_sub_right, Payload.length]
      exact congrArg (· :: _) (length_ofLen _)

theorem le_sum_flaggedLengths {fuel remaining : Nat} (hfuel : remaining ≤ fuel) :
    remaining ≤ (flaggedLengths fuel remaining).sum := by
  induction fuel generalizing remaining with
  | zero => exact Nat.le_trans hfuel (Nat.zero_le _)
  | succ fuel ih =>
    rw [flaggedLengths]
    split
    · next hzero => exact hzero ▸ Nat.zero_le _
    · have hrest : remaining - min remaining 32 ≤ (flaggedLengths fuel (remaining - min remaining 32)).sum :=
        ih (by omega)
      rw [List.sum_cons]
      split <;> omega

/-- The flags count as 128 bytes each, so that the sum is right for one payload only. -/
theorem sum_flaggedLengths_iff (n : Nat) : (flaggedLengths n n).sum = n ↔ n ≤ 32 := by
  cases n with
  | zero => exact iff_of_true rfl (Nat.zero_le _)
  | succ n =>
    rw [flaggedLengths, if_neg (Nat.succ_ne_zero n), List.sum_cons]
    by_cases hlong : 32 < n + 1
    · have hrest : n + 1 - min (n + 1) 32 ≤ (flaggedLengths n (n + 1 - min (n + 1) 32)).sum :=
        le_sum_flaggedLengths (by omega)
      rw [if_pos hlong]
      omega
    · have hzero : flaggedLengths n 0 = [] := by cases n <;> rfl
      rw [if_neg hlong, Nat.min_eq_left (Nat.not_lt.mp hlong), Nat.sub_self, hzero, List.sum_nil]
      omega

/-! ## Packets -/

/-- The packet of an emission. -/
def Emission.packet (path id : U16) : Emission → Packet
  | write address src dest =>
    ⟨.write id path (.fromAddress (k := 2) address), Buffer.payloadsOf (min src.length dest.length) src dest⟩
  | mmWrite address src => ⟨.write id path (.fromAddress (k := 2) address), Buffer.chunksOf src.length src⟩
  | mmRead address src => ⟨.impureRead id path (.fromAddress (k := 2) address), Buffer.chunksOf src.length src⟩
  | pureRead address len => ⟨.pureRead id path (len.setWidth 64) (.fromAddress (k := 2) address), []⟩

theorem foldl_writeFragment (ps : List Payload) (self : Buffer) :
    ps.foldl (fun self p => self.writeFragment (.payload p)) self =
      { self with fragments := self.fragments ++ ps.map .payload } := by
  induction ps generalizing self with
  | nil => rw [List.foldl_nil, List.map_nil, List.append_nil]
  | cons p ps ih =>
    rw [List.foldl_cons, ih, Buffer.writeFragment, List.map_cons, List.append_assoc]
    rfl

/-- The fragments of a packet. -/
def Packet.fragments (self : Packet) : List Fragment := .header self.header :: self.payloads.map .payload

theorem packets_fragments (p : Packet) : packets p.fragments = [p] := by
  have hpayloads : ∀ ps : List Payload, payloads (ps.map .payload) = ps ∧ packets (ps.map .payload) = [] := by
    intro ps
    induction ps with
    | nil => exact ⟨rfl, rfl⟩
    | cons p ps ih => exact ⟨congrArg (p :: ·) ih.1, ih.2⟩
  rw [Packet.fragments, packets, (hpayloads _).1, (hpayloads _).2]

theorem writePacket_eq (self : Buffer) (p : Packet) :
    p.payloads.foldl (fun self p => self.writeFragment (.payload p)) (self.writeFragment (.header p.header)) =
      { self with fragments := self.fragments ++ p.fragments } := by
  rw [foldl_writeFragment, Buffer.writeFragment, List.append_assoc]
  rfl

/-- What an emission appends to the buffer. -/
theorem emit_eq {self : Buffer} {id : U16} (htraced : self.traced id = true) (newFrame : Bool) (e : Emission) :
    self.emit id newFrame e = { self with
      fragments := self.fragments ++ (if newFrame then [.trace] else []) ++
        (e.packet self.currentPath id).fragments } := by
  have hemit : ∀ self : Buffer, self.traced id = true → self.emit id false e =
      { self with fragments := self.fragments ++ (e.packet self.currentPath id).fragments } := by
    intro self htraced
    cases e with
    | write address src dest =>
      exact (if_pos htraced).trans (writePacket_eq self (Emission.packet self.currentPath id (.write address src dest)))
    | mmWrite address src =>
      exact (if_pos htraced).trans (writePacket_eq self (Emission.packet self.currentPath id (.mmWrite address src)))
    | mmRead address src =>
      exact (if_pos htraced).trans (writePacket_eq self (Emission.packet self.currentPath id (.mmRead address src)))
    | pureRead address len =>
      exact (if_pos htraced).trans (writePacket_eq self (Emission.packet self.currentPath id (.pureRead address len)))
  cases newFrame with
  | false =>
    rw [hemit self htraced, if_neg Bool.false_ne_true, List.append_nil]
  | true => exact hemit self.emitFrameStart htraced

theorem packets_emitAll {self : Buffer} {id : U16} (htraced : self.traced id = true)
    (emissions : List (Bool × Emission)) : packets (self.emitAll id emissions).fragments =
      packets self.fragments ++ emissions.map fun e => e.2.packet self.currentPath id := by
  induction emissions generalizing self with
  | nil => exact (List.append_nil _).symm
  | cons e emissions ih =>
    rw [Buffer.emitAll, List.foldl_cons, emit_eq htraced]
    have hframe : packets (if e.1 = true then [Fragment.trace] else []) = [] := by cases e.1 <;> rfl
    have hpayloads : payloads (if e.1 = true then [Fragment.trace] else []) = [] := by cases e.1 <;> rfl
    refine (ih ?_).trans ?_
    · exact htraced
    · rw [packets_append rfl, packets_append hpayloads, hframe, packets_fragments, List.append_nil, List.append_assoc]
      rfl

variable (path id : U16)

/-- The length of a packet is right if its data fits in one payload. -/
theorem payloadsLength_packet (e : Emission) : (e.packet path id).payloadsLength false = e.dataLength ↔ e.Short := by
  cases e with
  | write address src dest =>
    change ((Buffer.payloadsOf _ src dest).map Payload.length).sum = _ ↔ _
    rw [length_payloadsOf]
    exact sum_flaggedLengths_iff _
  | mmWrite address src | mmRead address src =>
    change ((Buffer.chunksOf _ src).map Payload.length).sum = _ ↔ _
    rw [length_chunksOf]
    exact sum_flaggedLengths_iff _
  | pureRead address len => exact iff_of_true rfl (Nat.zero_le _)

/-! ## Intervals -/

theorem addressBytes_packet (e : Emission) :
    (e.packet path id).header.addressBytes = some (.fromAddress (k := 2) e.address) := by
  cases e <;> rfl

theorem toNat_end (start : U16) {n : Nat} (hpos : 0 < n) (hn : n ≤ 32) :
    (((start.setWidth 64 + .ofNat 64 n - 1 : U64) &&& mask 2).setWidth 16 : U16).toNat =
      (start.toNat + (n - 1)) % 2 ^ 16 := by
  have hlt := start.isLt
  have hmask : (mask 2).toNat = 2 ^ 16 - 1 := rfl
  have hone : (1 : U64).toNat = 1 := rfl
  have hsum : (start.setWidth 64 + .ofNat 64 n - 1 : U64).toNat = start.toNat + (n - 1) := by
    rw [BitVec.toNat_sub, BitVec.toNat_add, BitVec.toNat_setWidth, BitVec.toNat_ofNat, hone]
    omega
  rw [BitVec.toNat_setWidth, BitVec.toNat_and, hsum, hmask, Nat.and_two_pow_sub_one_eq_mod, Nat.mod_mod]

theorem covers_iff {e : Emission} {a : U16} :
    e.Covers a ↔ ∃ i < e.dataLength, a.toNat = (e.address.toNat + i) % 2 ^ 16 := by
  refine exists_congr fun i => and_congr_right fun _ => ?_
  rw [← BitVec.toNat_inj, BitVec.toNat_add, BitVec.toNat_ofNat, Nat.add_mod_mod]

/-- The intervals of a packet are the addresses of its data. -/
theorem modified_packet {e : Emission} (hshort : e.Short) :
    (∀ i ∈ (e.packet path id).modified, i.valid) ∧
      ∀ a, (∃ i ∈ (e.packet path id).modified, i.has a) ↔ e.Covers a := by
  have hlen : (VariableBytes.fromAddress (k := 2) e.address : VariableBytes 8).len = 2 := rfl
  have hmax : (((1 <<< ((2 : U8).toNat * 8) : U64) - 1).setWidth 16 : U16).toNat = 65535 := rfl
  rw [Packet.modified, addressBytes_packet]
  dsimp only
  rw [(payloadsLength_packet path id e).mpr hshort, hlen, toAddress_fromAddress (by decide)]
  by_cases hzero : e.dataLength = 0
  · rw [if_pos hzero]
    refine ⟨fun i hi => absurd hi List.not_mem_nil, fun a => iff_of_false ?_ ?_⟩
    · rintro ⟨i, hi, -⟩
      exact List.not_mem_nil hi
    · rintro ⟨i, hi, -⟩
      omega
  · have hend := toNat_end e.address (Nat.pos_of_ne_zero hzero) hshort
    have hlt := e.address.isLt
    have hshort : e.dataLength ≤ 32 := hshort
    rw [if_neg hzero]
    generalize (((e.address.setWidth 64 + .ofNat 64 e.dataLength - 1 : U64) &&& mask 2).setWidth 16 : U16) = last at *
    split
    · next hwrap =>
      have hwrap := BitVec.lt_def.mp hwrap
      refine ⟨List.forall_mem_cons.mpr ⟨?_, List.forall_mem_singleton.mpr ?_⟩, fun a => ?_⟩
      · rw [Interval.valid_iff, Interval.low_mk, Interval.high_mk, hmax]
        omega
      · exact Interval.valid_iff.mpr (Nat.zero_le _)
      · have ha := a.isLt
        have hzero : (0 : U16).toNat = 0 := rfl
        rw [covers_iff, List.exists_mem_cons_iff, List.exists_mem_cons_iff, Interval.has_iff, Interval.has_iff,
          Interval.low_mk, Interval.high_mk, Interval.low_mk, Interval.high_mk, hmax, hzero]
        constructor
        · rintro (⟨hle, -⟩ | ⟨-, hle⟩ | ⟨i, hi, -⟩)
          · exact ⟨a.toNat - e.address.toNat, by omega, by omega⟩
          · exact ⟨a.toNat + 65536 - e.address.toNat, by omega, by omega⟩
          · exact absurd hi List.not_mem_nil
        · rintro ⟨i, hi, heq⟩
          omega
    · next hwrap =>
      have hwrap := Nat.not_lt.mp fun h => hwrap (BitVec.lt_def.mpr h)
      refine ⟨List.forall_mem_singleton.mpr ?_, fun a => ?_⟩
      · rw [Interval.valid_iff, Interval.low_mk, Interval.high_mk]
        exact hwrap
      · rw [covers_iff, List.exists_mem_cons_iff, Interval.has_iff, Interval.low_mk, Interval.high_mk]
        constructor
        · rintro (⟨hle, hle'⟩ | ⟨i, hi, -⟩)
          · exact ⟨a.toNat - e.address.toNat, by omega, by omega⟩
          · exact absurd hi List.not_mem_nil
        · rintro ⟨i, hi, heq⟩
          omega

/-! ## Sequences of packets -/

theorem contains_analyze {packets : List Packet} (h : ∀ p ∈ packets, ∀ i ∈ p.modified, i.valid) (a : U16) :
    IntervalSet.contains (packets.foldl analyze []) a = true ↔ ∃ p ∈ packets, ∃ i ∈ p.modified, i.has a := by
  have hvalid : ∀ i ∈ packets.flatMap Packet.modified, i.valid := by
    intro i hi
    obtain ⟨p, hp, hi⟩ := List.mem_flatMap.mp hi
    exact h p hp i hi
  have hfold : packets.foldl analyze [] = IntervalSet.insertAll (packets.flatMap Packet.modified) := by
    rw [IntervalSet.insertAll, List.foldl_flatMap]
    rfl
  obtain ⟨hseparated, hcovers⟩ := IntervalSet.insertAll_spec hvalid
  rw [hfold, IntervalSet.contains_spec hseparated, IntervalSet.has_iff_covers, hcovers, ← IntervalSet.has_iff_covers]
  constructor
  · rintro ⟨i, hi, ha⟩
    obtain ⟨p, hp, hi⟩ := List.mem_flatMap.mp hi
    exact ⟨p, hp, i, hi, ha⟩
  · rintro ⟨p, hp, i, hi, ha⟩
    exact ⟨i, List.mem_flatMap.mpr ⟨p, hp, hi⟩, ha⟩

/-- The packets that are emitted for a device have the lengths of their data, and the sink has the addresses that they
modify, if and only if the data of each packet fits in one payload. -/
theorem modifiedExactly_iff (buffer : Buffer) (id : U16) (emissions : List (Bool × Emission))
    (htraced : buffer.traced id = true) (hempty : buffer.fragments = []) :
    ModifiedExactly (emissions.map Prod.snd) (packets (buffer.emitAll id emissions).fragments) ↔
      ∀ e ∈ emissions, e.2.Short := by
  have hpackets : packets (buffer.emitAll id emissions).fragments =
      emissions.map fun e => e.2.packet buffer.currentPath id := by
    rw [packets_emitAll htraced, hempty]
    rfl
  rw [ModifiedExactly, hpackets, List.forall₂_map_left_iff, List.forall₂_map_right_iff, List.forall₂_same]
  have hlengths : (∀ e ∈ emissions, (e.2.packet buffer.currentPath id).payloadsLength false = e.2.dataLength) ↔
      ∀ e ∈ emissions, e.2.Short := forall_congr' fun e => forall_congr' fun _ => payloadsLength_packet _ id e.2
  rw [hlengths]
  refine and_iff_left_of_imp fun hshort a => ?_
  have hmodified : ∀ e ∈ emissions, _ := fun e he => modified_packet buffer.currentPath id (hshort e he)
  rw [contains_analyze (List.forall_mem_map.mpr fun e he => (hmodified e he).1)]
  constructor
  · rintro ⟨p, hp, hhas⟩
    obtain ⟨e, he, rfl⟩ := List.mem_map.mp hp
    exact ⟨e.2, List.mem_map_of_mem he, ((hmodified e he).2 a).mp hhas⟩
  · rintro ⟨e', he', hcovers⟩
    obtain ⟨e, he, rfl⟩ := List.mem_map.mp he'
    exact ⟨_, List.mem_map_of_mem he, ((hmodified e he).2 a).mpr hcovers⟩

/-- A write over the end of the address space and a read of a port. -/
theorem modifiedExactly_wrapping : ModifiedExactly [.write 0xFFFF [1, 2] [0, 0], .mmRead 5 [7], .pureRead 9 4]
    (packets ((Buffer.mk (fun _ => true) 0 []).emitAll 1
      [(true, .write 0xFFFF [1, 2] [0, 0]), (false, .mmRead 5 [7]), (true, .pureRead 9 4)]).fragments) := by
  refine (modifiedExactly_iff (Buffer.mk (fun _ => true) 0 []) 1
    [(true, .write 0xFFFF [1, 2] [0, 0]), (false, .mmRead 5 [7]), (true, .pureRead 9 4)] rfl rfl).mpr ?_
  have hshort : ∀ n, n ≤ 2 → n ≤ 32 := fun n hn => by omega
  exact List.forall_mem_cons.mpr ⟨hshort _ (by decide), List.forall_mem_cons.mpr ⟨hshort _ (by decide),
    List.forall_mem_singleton.mpr (hshort _ (by decide))⟩⟩

/-- Of 33 bytes the first payload counts as 160. -/
theorem not_modifiedExactly_long : ¬ModifiedExactly [.mmWrite 0 (List.replicate 33 0)]
    (packets ((Buffer.mk (fun _ => true) 0 []).emitAll 1 [(true, .mmWrite 0 (List.replicate 33 0))]).fragments) := by
  rintro ⟨hlengths, -⟩
  rw [packets_emitAll rfl] at hlengths
  have hshort := (payloadsLength_packet 0 1 _).mp (List.forall₂_cons.mp hlengths).1
  exact absurd hshort (by decide : ¬33 ≤ 32)

end Pepp.Trace
