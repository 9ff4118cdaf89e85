import Pepp.Lib.Runs
import Pepp.Tvm.Decoder
import Pepp.Tvm.Meaning

/-!
# Fetching a packet

Where the bytes of a packet lie in a buffer, the decoder finds its opcode word,
its length and every word after it.
-/

namespace Pepp.Tvm

open Bts Span EncodedOp

variable {mgr : BufferManager} {loc : SegmentPair} {bytes : List U8}

theorem bytesAt_eq_some {size : Nat} :
    bytesAt mgr loc size = some bytes ↔
      ∃ buf, mgr.find loc.hi = some buf ∧ loc.lo.toNat + size ≤ SIZE ∧ slice buf.bytes loc.lo.toNat size = bytes := by
  rw [bytesAt, Option.bind_eq_some_iff]
  constructor
  · rintro ⟨buf, hfind, h⟩
    split at h
    · exact ⟨buf, hfind, by assumption, Option.some.inj h⟩
    · cases h
  · rintro ⟨buf, hfind, hfits, h⟩
    exact ⟨buf, hfind, by rw [if_pos hfits, h]⟩

theorem length_of_bytesAt {size : Nat} (h : bytesAt mgr loc size = some bytes) : bytes.length = size := by
  obtain ⟨buf, _, _, rfl⟩ := bytesAt_eq_some.mp h
  exact length_slice ..

/-- A part of what lies at an address lies so much further on. -/
theorem bytesAt_skip {size k n : Nat} (h : bytesAt mgr loc size = some bytes) (hk : k + n ≤ size) :
    bytesAt mgr (loc.skip k) n = some ((bytes.drop k).take n) := by
  obtain ⟨buf, hfind, hfits, rfl⟩ := bytesAt_eq_some.mp h
  have hlt := loc.lo.isLt
  obtain rfl | hn := Nat.eq_zero_or_pos n
  · have hlo := (loc.skip k).lo.isLt
    exact bytesAt_eq_some.mpr ⟨buf, hfind, by simp only [SIZE]; omega, by rw [slice_zero, List.take_zero]⟩
  have hskip : (loc.skip k).lo.toNat = loc.lo.toNat + k := by
    simp only [SIZE] at hfits
    simp only [SegmentPair.skip, BitVec.toNat_add, BitVec.toNat_ofNat]
    omega
  refine bytesAt_eq_some.mpr ⟨buf, hfind, by omega, ?_⟩
  apply List.ext_getElem
  · simp only [length_slice, List.length_take, List.length_drop]
    omega
  · intro i h₁ h₂
    simp only [getElem_slice, List.getElem_take, List.getElem_drop, hskip, Nat.add_assoc]

theorem read16_of_bytesAt {b₀ b₁ : U8} (s : MachineState) (h : bytesAt mgr loc 2 = some [b₀, b₁]) :
    s.read16 mgr loc.hi loc.lo = (bigEndian b₁ b₀, s) := by
  obtain ⟨buf, hfind, hfits, hslice⟩ := bytesAt_eq_some.mp h
  rw [slice_two] at hslice
  cases hslice
  rw [MachineState.read16, hfind]
  exact if_neg (by omega)

namespace EncodedOp

theorem leWords_append (ws ws' : List U16) : leWords (ws ++ ws') = leWords ws ++ leWords ws' := List.flatMap_append

/-- The `k`-th word of a packet is two bytes of it. -/
theorem drop_leWords {words : List U16} {k : Nat} {w : U16} (h : words[k]? = some w) :
    ((leWords words).drop (2 * k)).take 2 = leBytes w := by
  induction words generalizing k with
  | nil => cases h
  | cons w' words ih =>
    change ((leBytes w' ++ leWords words).drop (2 * k)).take 2 = _
    cases k with
    | zero =>
      cases h
      rfl
    | succ k =>
      rw [List.getElem?_cons_succ] at h
      have hlen : (leBytes w').length = 2 := rfl
      rw [List.drop_append, List.drop_eq_nil_of_le (by omega), List.nil_append,
        show 2 * (k + 1) - (leBytes w').length = 2 * k by omega]
      exact ih h

theorem length_packBytes (data : List U8) : (packBytes data).length = (data.length + 1) / 2 := by
  fun_induction packBytes data with
  | case1 => rfl
  | case2 => simp
  | case3 b₀ b₁ bytes ih =>
    simp only [List.length_cons, ih]
    omega

/-- Packing pads, and loses nothing. -/
theorem take_leWords_packBytes (data : List U8) : (leWords (packBytes data)).take data.length = data := by
  fun_induction packBytes data with
  | case1 => rfl
  | case2 b => simp [leWords, leBytes]
  | case3 b₀ b₁ bytes ih =>
    change (leBytes (bigEndian b₁ b₀) ++ leWords (packBytes bytes)).take _ = _
    simp only [leBytes, loByte_bigEndian, hiByte_bigEndian, List.length_cons, List.cons_append, List.nil_append,
      List.take_succ_cons, ih]

namespace Immediate

theorem length_octets_le (data : Immediate) : data.octets.length ≤ 2 * data.packed.length := by
  cases data with
  | bytes data =>
    rw [packed, octets, length_packBytes]
    omega
  | words data => rw [packed, octets, length_leWords]

theorem take_packed (data : Immediate) : (leWords data.packed).take data.octets.length = data.octets := by
  cases data with
  | bytes data => exact take_leWords_packBytes data
  | words data => exact List.take_length

theorem toNat_size {data : Immediate} (h : data.mods.length < 32768) : data.size.toNat = data.octets.length := by
  rw [mods, List.length_cons] at h
  cases data with
  | bytes data =>
    rw [packed, length_packBytes] at h
    rw [size, octets, BitVec.toNat_ofNat]
    omega
  | words data =>
    simp only [packed] at h
    rw [size, octets, length_leWords, BitVec.toNat_mul, BitVec.toNat_ofNat]
    change 2 * (data.length % 65536) % 65536 = _
    omega

end Immediate

end EncodedOp

/-- The words of a packet behind its opcode word, where the decoder looks for them. -/
def Supplies (mgr : BufferManager) (ibp : Bts.ID) (iop : U16) (mods : List U16) : Prop :=
  ∀ k w, mods[k]? = some w → ∀ s : MachineState, s.read16 mgr ibp (iop + BitVec.ofNat 16 (2 * k)) = (w, s)

variable {op : Opcode} {clrmod : Bool} {mods : List U16}

/-- A packet lies at an address. -/
def Loaded (mgr : BufferManager) (loc : SegmentPair) (bytes : List U8) : Prop :=
  bytesAt mgr loc bytes.length = some bytes

theorem Loaded.word (h : Loaded mgr loc (leWords mods)) {k : Nat} {w : U16} (hk : mods[k]? = some w)
    (s : MachineState) : s.read16 mgr loc.hi (loc.lo + BitVec.ofNat 16 (2 * k)) = (w, s) := by
  have hlt := (List.getElem?_eq_some_iff.mp hk).1
  have hpart := bytesAt_skip (k := 2 * k) (n := 2) h (by rw [length_leWords]; omega)
  rw [drop_leWords hk] at hpart
  have hread := read16_of_bytesAt s hpart
  rwa [bigEndian_bytes] at hread

theorem Loaded.supplies (h : Loaded mgr loc (encodeOp op clrmod mods)) :
    Supplies mgr loc.hi (2 + loc.lo) mods := by
  intro k w hk s
  have hread := Loaded.word h (k := k + 1) (by rwa [List.getElem?_cons_succ]) s
  rwa [show 2 * (k + 1) = 2 + 2 * k by omega, BitVec.ofNat_add, ← BitVec.add_assoc, BitVec.add_comm loc.lo] at hread

/-- The payload of an immediate form lies behind its size word. -/
theorem Loaded.octets {pre : List U16} {data : Immediate} (h : Loaded mgr loc (encodeOp op clrmod (pre ++ data.mods)))
    (hlen : data.mods.length < 32768) :
    bytesAt mgr (loc.skip (2 * (pre.length + 2))) data.size.toNat = some data.octets := by
  have hle := data.length_octets_le
  have hpart := bytesAt_skip (k := 2 * (pre.length + 2)) (n := data.octets.length) h (by
    rw [length_encodeOp, List.length_append, Immediate.mods, List.length_cons]
    omega)
  rw [Immediate.toNat_size hlen, hpart, encodeOp, Immediate.mods]
  generalize OpWord.asU16 _ = w
  rw [show w :: (pre ++ data.size :: data.packed) = (w :: pre ++ [data.size]) ++ data.packed by simp, leWords_append,
    List.drop_append, List.drop_eq_nil_of_le (by rw [length_leWords]; simp), List.nil_append, length_leWords]
  simp only [List.length_append, List.length_cons, List.length_nil, Nat.sub_self, Nat.zero_add, List.drop_zero]
  rw [data.take_packed]

namespace Decoder

/-- The decoder of each opcode. -/
def crack (mgr : BufferManager) (ibp : Bts.ID) (iop : U16) : Opcode → DecodeM (Option DecodedOp)
  | .HALT => some <$> decodeHalt mgr ibp iop
  | .RET => pure (some .ret)
  | .CALL => some <$> decodeCall mgr ibp iop
  | .INVCALL => some <$> decodeInvCall mgr ibp iop
  | .INVRET => pure (some .invRet)
  | .ASYN => some <$> decodeASyn mgr ibp iop
  | .ISYN => some <$> decodeISyn mgr ibp iop
  | .LMR => some <$> decodeLmr mgr ibp iop
  | .SETMEM => some <$> decodeSetmem mgr ibp iop .Assign
  | .SETMEMX => some <$> decodeSetmem mgr ibp iop .Xor
  | .SETMEMDX => some <$> decodeSetmemdx mgr ibp iop
  | .STEPMEM => some <$> decodeStepmem mgr ibp iop
  | .CMPMEM => some <$> decodeCmpmem mgr ibp iop
  | .CLRMEM => some <$> decodeClrmem mgr ibp iop
  | .SETREG => some <$> decodeDeltareg mgr ibp iop .Assign
  | .SETREGX => some <$> decodeDeltareg mgr ibp iop .Xor
  | .STEPREG => some <$> decodeDeltareg mgr ibp iop .Add
  | .CMPREG => some <$> decodeCmpreg mgr ibp iop
  | .CLRREG => some <$> decodeClrreg mgr ibp iop
  | .TRADDR => some <$> decodeTraddr mgr ibp iop
  | .LDP => some <$> decodeLdp mgr ibp iop
  | .ACCDP => some <$> decodeAccdp mgr ibp iop
  | .INCDP => some <$> decodeIncdp mgr ibp iop
  | Opcode.MMIO => some <$> decodeMmio mgr ibp iop
  | .CCB => do
    hardStop .IllegalOpcode
    return none
  | op => some <$> decodeBr mgr ibp iop op

/-- The machine once the opcode word of a packet is cracked. -/
def fetched (s : MachineState) (op : Opcode) (clrmod : Bool) (mods : List U16) : MachineState :=
  let s := s.cleared
  { s with
    csrs := { s.csrs with CLRMOD := clrmod }
    regs := { s.regs with
      IS := ⟨op.value, clrmod, BitVec.ofNat 8 mods.length⟩
      IP := s.regs.IP.skip (2 * (mods.length + 1)) } }

theorem stepped_ip {lo : U16} {n : Nat} (heven : lo.getLsbD 0 = false) (hn : n ≤ 255) :
    (lo + 2 + (BitVec.ofNat 8 n).setWidth 16 * 2) &&& 0xFFFE = lo + BitVec.ofNat 16 (2 * (n + 1)) := by
  have hsum : lo + 2 + (BitVec.ofNat 8 n).setWidth 16 * 2 = lo + BitVec.ofNat 16 (2 * (n + 1)) := by
    apply BitVec.eq_of_toNat_eq
    have htwo : (2 : U16).toNat = 2 := rfl
    simp only [BitVec.toNat_add, BitVec.toNat_mul, BitVec.toNat_setWidth, BitVec.toNat_ofNat, htwo]
    omega
  rw [hsum]
  have hbit : (lo + BitVec.ofNat 16 (2 * (n + 1))).getLsbD 0 = false := by
    rw [BitVec.getLsbD, Nat.testBit_zero] at heven ⊢
    simp only [decide_eq_false_iff_not] at heven ⊢
    rw [BitVec.toNat_add, BitVec.toNat_ofNat]
    omega
  ext i hi
  rw [BitVec.getElem_and]
  obtain rfl | hpos := Nat.eq_zero_or_pos i
  · rw [← BitVec.getLsbD_eq_getElem, hbit, Bool.false_and]
  · have hmask : ∀ i < 16, 0 < i → (0xFFFE : U16).getLsbD i = true := by decide
    rw [← BitVec.getLsbD_eq_getElem hi, ← BitVec.getLsbD_eq_getElem hi, hmask i hi hpos, Bool.and_true]

/-- Between cracking the opcode word of the packet at `loc` and cracking the words behind it, at `iop`. -/
structure Fetched (mgr : BufferManager) (loc : SegmentPair) (iop : U16) (mods : List U16) (s : MachineState) :
    Prop where
  iop_eq : iop = 2 + loc.lo
  supplies : Supplies mgr loc.hi iop mods
  wordLen : s.regs.IS.wordLen.toNat = mods.length
  ip : s.regs.IP = loc.skip (2 * (mods.length + 1))

theorem fetched_of_loaded {s : MachineState} (h : Loaded mgr s.regs.IP (encodeOp op clrmod mods))
    (hlen : mods.length ≤ 255) : Fetched mgr s.regs.IP (2 + s.regs.IP.lo) mods (fetched s op clrmod mods) := by
  have hip : s.cleared.regs.IP = s.regs.IP := by
    rw [MachineState.cleared]
    split <;> rfl
  refine ⟨rfl, h.supplies, ?_, ?_⟩
  · change (BitVec.ofNat 8 mods.length).toNat = _
    rw [BitVec.toNat_ofNat]
    exact Nat.mod_eq_of_lt (by omega)
  · change s.cleared.regs.IP.skip _ = _
    rw [hip]

theorem decode_eq {s : MachineState} (h : Loaded mgr s.regs.IP (encodeOp op clrmod mods))
    (heven : s.regs.IP.lo.getLsbD 0 = false) (hlen : mods.length ≤ 255) :
    decode mgr s = crack mgr s.regs.IP.hi (2 + s.regs.IP.lo) op (fetched s op clrmod mods) := by
  have hread (s' : MachineState) : read mgr s.regs.IP.hi s.regs.IP.lo s' =
      ((OpWord.mk op.value clrmod (BitVec.ofNat 8 mods.length)).asU16, s') := by
    have hword := Loaded.word h (k := 0) rfl s'
    rwa [Nat.mul_zero, BitVec.add_zero] at hword
  have hip := stepped_ip heven hlen
  cases hc : s.csrs.CLRMOD with
  | false =>
    simp only [decode, States.bind_apply, States.get_apply, States.modify_apply, modifyRegs, modifyCsrs, hc, hread,
      hip, fetched, MachineState.cleared, OpWord.ofU16_asU16, Opcode.ofBits?_value, reduceIte, Bool.false_eq_true]
    cases op <;> rfl
  | true =>
    simp only [decode, States.bind_apply, States.get_apply, States.modify_apply, modifyRegs, modifyCsrs, hc, hread,
      hip, fetched, MachineState.cleared, OpWord.ofU16_asU16, Opcode.ofBits?_value, reduceIte]
    cases op <;> rfl

end Decoder

end Pepp.Tvm
