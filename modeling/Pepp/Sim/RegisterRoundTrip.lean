import Pepp.Sim.RegisterAccess

/-!
# Registers are read back as they were written

What a write puts into a register or a field of it, the next read takes out again,
and the bits around the field stay. Only a field as wide as a register of eight
bytes can be, for which the shifts of the read are not defined, is lost.
-/

namespace Pepp.RegisterScan

open Tc (Order memcpyEndian hostOrder)
open Tvm (RegisterRef)
open Outcome BitFields

variable {σ : Type} {scan : RegisterScan σ} {reg : Register} {field : Option Field} {s : Machine σ} {bytes : List U8}

/-- What is taken out of the stored bytes of a number that a value was put into. -/
theorem take_put (hw : reg.byteWidth.toNat ≤ 8) (hin : firstBit field + bitWidth reg field ≤ reg.byteWidth.toNat * 8)
    (hshift : Shiftable field) (whole value : U64) :
    (take field (BitVec.ofNat 64 ((put field whole value).toNat % 256 ^ reg.byteWidth.toNat))).toNat %
      256 ^ reg.byteWidth.toNat = value.toNat % 2 ^ bitWidth reg field := by
  cases field with
  | none =>
    rw [take, put, bitWidth, BitVec.toNat_ofNat, pow_bytes]
    have hdvd : 2 ^ (reg.byteWidth.toNat * 8) ∣ 2 ^ 64 := Nat.pow_dvd_pow 2 (by omega)
    rw [Nat.mod_mod_of_dvd _ hdvd, Nat.mod_mod]
  | some f =>
    obtain ⟨hwidth, hoff⟩ := hshift f rfl
    simp only [firstBit, bitWidth] at hin ⊢
    have hcut : extract (BitVec.ofNat 64 ((put (some f) whole value).toNat % 256 ^ reg.byteWidth.toNat))
        f.bitOffset.toNat f.bitWidth.toNat = extract (put (some f) whole value) f.bitOffset.toNat f.bitWidth.toNat := by
      apply extract_congr hwidth
      intro i hi
      rw [BitVec.getLsbD_ofNat, pow_bytes, Nat.testBit_mod_two_pow, BitVec.getLsbD]
      simp [show f.bitOffset.toNat + i < 64 by omega, show f.bitOffset.toNat + i < reg.byteWidth.toNat * 8 by omega]
    rw [take, hcut, put, extract_insert _ _ hwidth (by omega), toNat_and_lowMask _ hwidth, pow_bytes]
    exact Nat.mod_eq_of_lt (Nat.lt_of_lt_of_le (Nat.mod_lt _ (Nat.two_pow_pos _))
      (Nat.pow_le_pow_right (by decide) (by omega)))

/-- Bits outside the named ones stay. -/
theorem testBit_put (hlen : bytes.length = reg.byteWidth.toNat) (hw : reg.byteWidth.toNat ≤ 8) (value : U64) {i : Nat}
    (hi : i < firstBit field ∨ firstBit field + bitWidth reg field ≤ i) :
    ((put field (toU64 bytes reg.order) value).toNat % 256 ^ reg.byteWidth.toNat).testBit i =
      (Endian.decode reg.order.endian bytes).testBit i := by
  have hlt := Endian.decode_lt reg.order.endian bytes
  rw [hlen, pow_bytes] at hlt
  rw [pow_bytes, Nat.testBit_mod_two_pow]
  by_cases hlow : i < reg.byteWidth.toNat * 8
  · cases field with
    | none =>
      simp only [firstBit, bitWidth] at hi
      omega
    | some f =>
      simp only [firstBit, bitWidth] at hi
      have hkeep := getLsbD_insert (toU64 bytes reg.order) value hi
      rw [put, ← BitVec.getLsbD, hkeep, toU64_eq, BitVec.getLsbD_ofNat]
      simp [hlow, show i < 64 by omega]
  · have hzero := Nat.testBit_lt_two_pow (Nat.lt_of_lt_of_le hlt (Nat.pow_le_pow_right (by decide) (Nat.not_lt.mp hlow)))
    rw [hzero]
    simp [hlow]

/-- A register of up to eight bytes, or a field inside it, that may be written and read and has storage. -/
structure Opened (scan : RegisterScan σ) (ref : RegisterRef) (reg : Register) (field : Option Field)
    (writeLevel readLevel : Level) (s : Machine σ) : Prop where
  resolved : scan.resolve ref = some (reg, field)
  width : reg.byteWidth.toNat ≤ 8
  inside : firstBit field + bitWidth reg field ≤ reg.byteWidth.toNat * 8
  keeps : Keeps scan reg s
  writable : Writable reg field writeLevel
  readable : Readable reg field readLevel

/-- The bits of the register that are not in the field. -/
def OthersStay (scan : RegisterScan σ) (reg : Register) (field : Option Field) (s s' : Machine σ) : Prop :=
  ∃ before after, Holds scan reg before s ∧ Holds scan reg after s' ∧
    ∀ i, i < firstBit field ∨ firstBit field + bitWidth reg field ≤ i →
      (Endian.decode reg.order.endian after).testBit i = (Endian.decode reg.order.endian before).testBit i

/-- Bytes that are written come back as far as there is room for them. -/
def BytesReadBack (scan : RegisterScan σ) (ref : RegisterRef) (reg : Register) (field : Option Field)
    (writeLevel readLevel : Level) (s : Machine σ) (src : List U8) (bswap : Byteswap) : Prop :=
  ∃ s', scan.write ref src bswap writeLevel s = .ok () s' ∧ OthersStay scan reg field s s' ∧
    ∀ dest : List U8, dest.length = reg.byteWidth.toNat →
      ∃ out, scan.read ref dest bswap readLevel s' = .ok (reg.order, out) s' ∧
        Endian.decode (srcOrder reg bswap).endian out =
          Endian.decode (srcOrder reg bswap).endian src % 2 ^ bitWidth reg field

/-- A value that is written comes back as far as there is room for it. -/
def ValueReadsBack (scan : RegisterScan σ) (ref : RegisterRef) (reg : Register) (field : Option Field)
    (writeLevel readLevel : Level) (s : Machine σ) (value : U64) : Prop :=
  ∃ s', scan.writeAs ref value writeLevel s = .ok () s' ∧ OthersStay scan reg field s s' ∧
    ∀ n, scan.readAs n ref readLevel s' = .ok (BitVec.ofNat n (value.toNat % 2 ^ bitWidth reg field)) s'

variable {ref : RegisterRef} {writeLevel readLevel : Level}

section

variable (h : Opened scan ref reg field writeLevel readLevel s)
include h

theorem bytesReadBack (hshift : Shiftable field) (src : List U8) (bswap : Byteswap) :
    BytesReadBack scan ref reg field writeLevel readLevel s src bswap := by
  obtain ⟨bytes, hbytes⟩ := h.keeps.now
  have hpow : 2 ^ bitWidth reg field ∣ 2 ^ 64 := Nat.pow_dvd_pow 2 (by have := h.inside; have := h.width; omega)
  obtain ⟨s', hwrite, hafter⟩ := @writeReg_ok _ _ _ _ _ _ src bswap _ h.width h.keeps hbytes h.writable
    fun f hf => (hshift f hf).2
  refine ⟨s', by rw [write, h.resolved]; exact hwrite, ⟨bytes, _, hbytes, hafter, ?_⟩, ?_⟩
  · intro i hi
    rw [Endian.decode_encode]
    exact testBit_put hbytes.length h.width _ hi
  · intro dest hdest
    refine ⟨_, by rw [read, h.resolved]; exact readReg_ok h.width hafter h.readable hshift hdest, ?_⟩
    rw [decode_swapped, Endian.decode_encode, toU64_eq _ reg.order, Endian.decode_encode,
      take_put h.width h.inside hshift, toU64_eq, BitVec.toNat_ofNat, Nat.mod_mod_of_dvd _ hpow]

theorem valueReadsBack (hshift : Shiftable field) (value : U64) :
    ValueReadsBack scan ref reg field writeLevel readLevel s value := by
  have hmin : min reg.byteWidth.toNat 8 = reg.byteWidth.toNat := Nat.min_eq_left h.width
  obtain ⟨s', hwrite, hothers, hread⟩ :=
    bytesReadBack h hshift (copyU64 (List.replicate reg.byteWidth.toNat 0) reg.order value) .Never
  refine ⟨s', ?_, hothers, ?_⟩
  · rw [write, h.resolved] at hwrite
    rw [writeAs, h.resolved]
    dsimp only
    rw [hmin]
    exact hwrite
  · intro n
    obtain ⟨out, hout, hdecode⟩ := hread (List.replicate reg.byteWidth.toNat 0) (by simp)
    rw [read, h.resolved] at hout
    have hdvd : 2 ^ bitWidth reg field ∣ 2 ^ (reg.byteWidth.toNat * 8) :=
      Nat.pow_dvd_pow 2 (Nat.le_trans (Nat.le_add_left _ _) h.inside)
    have hsrc : copyU64 (List.replicate reg.byteWidth.toNat 0) reg.order value =
        Endian.encode reg.order.endian reg.byteWidth.toNat value.toNat := by
      rw [copyU64_eq _ _ (by simpa using h.width), List.length_replicate]
    rw [srcOrder, hsrc, Endian.decode_encode, pow_bytes, Nat.mod_mod_of_dvd _ hdvd] at hdecode
    rw [readAs, h.resolved]
    dsimp only
    rw [hmin, bind_apply_ok hout]
    change EStateM.Result.ok ((toU64 out reg.order).setWidth n) s' = _
    rw [toU64_eq, hdecode]
    congr 1
    apply BitVec.eq_of_toNat_eq
    have hlt : value.toNat % 2 ^ bitWidth reg field < 2 ^ 64 := Nat.lt_of_le_of_lt (Nat.mod_le _ _) value.isLt
    rw [BitVec.toNat_setWidth, BitVec.toNat_ofNat, BitVec.toNat_ofNat, Nat.mod_eq_of_lt hlt]

/-- A field that a shift is not defined for is not read back. -/
theorem not_shiftable (hshift : ¬ Shiftable field) :
    ∃ f, field = some f ∧ ¬ (f.bitWidth.toNat < 64 ∧ f.bitOffset.toNat < 64) ∧
      ∀ (src : List U8) (bswap : Byteswap) (s' : Machine σ),
        scan.writeReg reg (some f) src bswap writeLevel s = .ok () s' → ∃ bytes, Holds scan reg bytes s' := by
  simp only [Shiftable, not_forall] at hshift
  obtain ⟨f, hf, hnot⟩ := hshift
  obtain rfl : field = some f := hf
  refine ⟨f, rfl, hnot, ?_⟩
  intro src bswap s' hwrite
  obtain ⟨bytes, hbytes⟩ := h.keeps.now
  by_cases hoff : f.bitOffset.toNat < 64
  · obtain ⟨s'', hok, hafter⟩ := @writeReg_ok _ _ _ (some f) _ _ src bswap _ h.width h.keeps hbytes h.writable
      fun g hg => by obtain rfl : f = g := Option.some.inj hg; exact hoff
    rw [hok] at hwrite
    injection hwrite with _ hs
    exact ⟨_, hs ▸ hafter⟩
  · rw [writeReg_undefined h.width hbytes h.writable hoff] at hwrite
    injection hwrite

end

/-- What is written is read back, and its neighbours stay, unless the field is all of a register of 64 bits. -/
theorem reads_back_iff (h : Opened scan ref reg field writeLevel readLevel s) (value : U64) (src : List U8)
    (bswap : Byteswap) :
    (ValueReadsBack scan ref reg field writeLevel readLevel s value ↔ Shiftable field) ∧
      (BytesReadBack scan ref reg field writeLevel readLevel s src bswap ↔ Shiftable field) := by
  refine ⟨⟨?_, fun hshift => valueReadsBack h hshift value⟩, ⟨?_, fun hshift => bytesReadBack h hshift src bswap⟩⟩
  · rintro ⟨s', hwrite, -, hread⟩
    by_contra hshift
    obtain ⟨f, rfl, hnot, hafter⟩ := not_shiftable h hshift
    rw [writeAs, h.resolved] at hwrite
    obtain ⟨bytes, hbytes⟩ := hafter _ _ _ hwrite
    have hread := hread 64
    rw [readAs, h.resolved] at hread
    dsimp only at hread
    rw [bind_apply_error (readReg_undefined hbytes h.readable hnot (by have := h.width; simp; omega))] at hread
    injection hread
  · rintro ⟨s', hwrite, -, hread⟩
    by_contra hshift
    obtain ⟨f, rfl, hnot, hafter⟩ := not_shiftable h hshift
    rw [write, h.resolved] at hwrite
    obtain ⟨bytes, hbytes⟩ := hafter _ _ _ hwrite
    obtain ⟨out, hout, -⟩ := hread (List.replicate reg.byteWidth.toNat 0) (by simp)
    rw [read, h.resolved] at hout
    dsimp only at hout
    rw [readReg_undefined hbytes h.readable hnot (by simp)] at hout
    injection hout

/-- A field of eight bits that lies across the two bytes of a register in memory. -/
theorem reads_back_across :
    let reg : Register := ⟨2, ReadWrite, ReadWrite, 1, .bigEndian, [⟨ReadWrite, ReadWrite, 4, 8⟩], .address 0x10⟩
    let scan : RegisterScan Dense := ⟨⟨fun _ => some (some denseTarget)⟩, fun _ => some reg⟩
    let s : Machine Dense := ⟨⟨fullSpan, fun _ => 0xFF⟩, fun _ => []⟩
    ValueReadsBack scan ⟨1, 1⟩ reg (some ⟨ReadWrite, ReadWrite, 4, 8⟩) .Guest .Host s 0x1A5 := by
  intro reg scan s
  have h : Opened scan ⟨1, 1⟩ reg (some ⟨ReadWrite, ReadWrite, 4, 8⟩) .Guest .Host s := by
    refine ⟨rfl, by decide, by decide, ?_, ⟨rfl, ?_⟩, ⟨rfl, ?_⟩⟩
    · exact keeps_dense rfl rfl (by decide)
    · simp [Field.granted, granted, ReadWrite]
    · simp [Field.granted, granted, ReadWrite]
  refine (reads_back_iff h 0x1A5 [] .Never).1.mpr ?_
  intro f hf
  obtain rfl := Option.some.inj hf
  decide

/-- A field over all of a register of eight bytes can be written, but reading it shifts by 64. -/
theorem not_reads_back_full :
    let reg : Register :=
      ⟨8, ReadWrite, ReadWrite, 1, .littleEndian, [⟨ReadWrite, ReadWrite, 0, 64⟩], .pointer 8 (some 0)⟩
    let scan : RegisterScan Unit := ⟨⟨fun _ => none⟩, fun _ => some reg⟩
    let s : Machine Unit := ⟨(), fun _ => List.replicate 8 0⟩
    ∃ s', scan.writeAs ⟨1, 1⟩ 5 .Host s = .ok () s' ∧ scan.readAs 64 ⟨1, 1⟩ .Host s' = .error .undefined s' :=
  ⟨_, rfl, rfl⟩

end Pepp.RegisterScan
