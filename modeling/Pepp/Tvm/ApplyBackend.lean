import Pepp.Sim.RegisterAccess
import Pepp.Tvm.Backend

/-!
# Comparing registers

`CMPREG` compares a register, or a field of one, with a payload of as many bytes
as the register has. The payload lies in a data buffer, least significant byte
first, and is cut to the field. An access that the scan chain refuses sets `F`.
-/

namespace Pepp.Tvm

open Bts Span Outcome RegisterScan

/-- What derives from `std::runtime_error`. -/
def Caught : Exception → Bool
  | .oobAccess _ => true
  | .runtimeError _ => true
  | .ringOverflow _ => true
  | .logicError _ => false
  | .assertion _ => false

variable {σ : Type}

/-- `try_access`: no value when the access was refused. -/
def tryAccess {α : Type} (fn : ScanM σ α) : ScanM σ (Option α) := fun s =>
  match fn s with
  | .ok a s => .ok (some a) s
  | .error (.thrown e) s => if Caught e then .ok none s else .error (.thrown e) s
  | .error .undefined s => .error .undefined s

namespace MachineState

variable (self : MachineState)

/-- The payload of a comparison, read by words. Not every width can be compared. -/
def expectedValue (mgr : BufferManager) (id : Bts.ID) (offset : U16) : (byteWidth : Nat) → Option (U64 × MachineState)
  | 1 =>
    let (word, self) := self.read16 mgr id offset
    some ((word &&& 0xFF).setWidth 64, self)
  | 2 =>
    let (word, self) := self.read16 mgr id offset
    some (word.setWidth 64, self)
  | 4 =>
    let (high, self) := self.read16 mgr id (offset + 2)
    let (low, self) := self.read16 mgr id offset
    some ((high.setWidth 32 <<< 16 ||| low.setWidth 32 : U32).setWidth 64, self)
  | _ => none

/-- The flags after a comparison, or after one that was refused. -/
def compared (actual : Option U64) (expected : U64) : MachineState :=
  match actual with
  | none => { self with csrs := { self.csrs with F := true } }
  | some actual =>
    { self with csrs := { self.csrs with F := false, Z := actual = expected, N := actual < expected } }

end MachineState

/-- The register's value, read at its own width. -/
def actualValue (scan : RegisterScan σ) (ref : RegisterRef) : (byteWidth : Nat) → ScanM σ U64
  | 1 => do
    let value ← scan.readAs 8 ref .Host
    return value.setWidth 64
  | 2 => do
    let value ← scan.readAs 16 ref .Host
    return value.setWidth 64
  | 4 => do
    let value ← scan.readAs 32 ref .Host
    return value.setWidth 64
  | _ => pure 0

/-- The payload of a field is cut to its width, as a read cuts the value. -/
def cutTo (field : Option Field) (expected : U64) : U64 :=
  match field with
  | none => expected
  | some field => expected &&& fieldMask field.bitWidth.toNat

/-- `_scan` is null without a system. -/
structure ApplyBackend (σ : Type) where
  mgr : BufferManager
  scan : Option (RegisterScan σ)

namespace ApplyBackend

variable (self : ApplyBackend σ)

def onCmpreg (ref : RegisterRef) (data : SegmentPair) (size : U16) (state : MachineState) : ScanM σ MachineState :=
  if !state.csrs.TR then pure (state.hardStop .WrongTR)
  else
    match self.scan with
    | none => pure (state.hardStop .MissingSystem)
    | some scan =>
      match scan.resolve ref with
      | none => pure (state.hardStop .RegisterInvalid)
      | some (reg, field) =>
        if self.mgr.find data.hi = none then pure (state.hardStop .InvalidDBuffer)
        else if SIZE < data.lo.toNat + size.toNat then pure (state.hardStop .InvalidDBuffer)
        else if reg.byteWidth.toNat ≠ size.toNat then pure (state.hardStop .RegisterSizeMismatch)
        else
          match state.expectedValue self.mgr data.hi data.lo reg.byteWidth.toNat with
          | none => pure (state.hardStop .RegisterWidthIllegal)
          | some (expected, state) => do
            let actual ← tryAccess (actualValue scan ref reg.byteWidth.toNat)
            return state.compared actual (cutTo field expected)

end ApplyBackend

/-! ## Payloads -/

theorem leValue_eq (bytes : List U8) : leValue bytes = Endian.ofLE bytes := by
  induction bytes with
  | nil => rfl
  | cons b bytes ih =>
    rw [leValue, ih]
    rfl

theorem toNat_bigEndian (hi lo : U8) : (bigEndian hi lo).toNat = lo.toNat + 256 * hi.toNat := by
  have hhi := hi.isLt
  have hlo := lo.isLt
  have hjoin := Nat.shiftLeft_add_eq_or_of_lt (show lo.toNat < 2 ^ 8 from hlo) hi.toNat
  rw [bigEndian, BitVec.toNat_or, BitVec.toNat_shiftLeft, BitVec.toNat_setWidth, BitVec.toNat_setWidth,
    Nat.mod_eq_of_lt (show hi.toNat < 2 ^ 16 by omega), Nat.mod_eq_of_lt (show lo.toNat < 2 ^ 16 by omega),
    Nat.mod_eq_of_lt (by rw [Nat.shiftLeft_eq]; omega), ← hjoin, Nat.shiftLeft_eq]
  omega

theorem toNat_words (high low : U16) :
    (high.setWidth 32 <<< 16 ||| low.setWidth 32 : U32).toNat = low.toNat + 65536 * high.toNat := by
  have hhigh := high.isLt
  have hlow := low.isLt
  have hjoin := Nat.shiftLeft_add_eq_or_of_lt (show low.toNat < 2 ^ 16 from hlow) high.toNat
  rw [BitVec.toNat_or, BitVec.toNat_shiftLeft, BitVec.toNat_setWidth, BitVec.toNat_setWidth,
    Nat.mod_eq_of_lt (show high.toNat < 2 ^ 32 by omega), Nat.mod_eq_of_lt (show low.toNat < 2 ^ 32 by omega),
    Nat.mod_eq_of_lt (by rw [Nat.shiftLeft_eq]; omega), ← hjoin, Nat.shiftLeft_eq]
  omega

namespace MachineState

variable {self : MachineState} {mgr : BufferManager} {buf : Buffer} {id : Bts.ID} {offset : U16}

theorem read16_ok (hfind : mgr.find id = some buf) (hin : offset.toNat + 2 ≤ SIZE) :
    self.read16 mgr id offset = (bigEndian (buf.bytes (offset.toNat + 1)) (buf.bytes offset.toNat), self) := by
  rw [read16, hfind]
  dsimp only
  rw [if_neg (by omega)]

/-- A payload that the words reading it do not run out of is the number of its bytes. -/
theorem expectedValue_ok {byteWidth : Nat} (hwidth : byteWidth = 1 ∨ byteWidth = 2 ∨ byteWidth = 4)
    (hfind : mgr.find id = some buf) (hin : offset.toNat + byteWidth ≤ SIZE)
    (hlast : byteWidth = 1 → offset.toNat + 2 ≤ SIZE) :
    self.expectedValue mgr id offset byteWidth =
      some (BitVec.ofNat 64 (leValue (slice buf.bytes offset.toNat byteWidth)), self) := by
  have hlt : ∀ k, (buf.bytes k).toNat < 256 := fun k => (buf.bytes k).isLt
  have hlow := hlt offset.toNat
  have h1 := hlt (offset.toNat + 1)
  rcases hwidth with rfl | rfl | rfl
  · have hand : (bigEndian (buf.bytes (offset.toNat + 1)) (buf.bytes offset.toNat) &&& 0xFF).toNat =
        (buf.bytes offset.toNat).toNat := by
      rw [BitVec.toNat_and, toNat_bigEndian]
      refine (Nat.and_two_pow_sub_one_eq_mod _ 8).trans ?_
      omega
    rw [expectedValue, read16_ok hfind (hlast rfl), slice_one]
    simp only [leValue, Option.some.injEq, Prod.mk.injEq, and_true]
    apply BitVec.eq_of_toNat_eq
    rw [BitVec.toNat_setWidth, hand, BitVec.toNat_ofNat]
    rfl
  · rw [expectedValue, read16_ok hfind hin, slice_two]
    simp only [leValue, Option.some.injEq, Prod.mk.injEq, and_true]
    apply BitVec.eq_of_toNat_eq
    rw [BitVec.toNat_setWidth, toNat_bigEndian, BitVec.toNat_ofNat]
    omega
  · have hnext : (offset + 2).toNat = offset.toNat + 2 := by
      simp only [SIZE] at hin
      rw [BitVec.toNat_add]
      exact Nat.mod_eq_of_lt (show offset.toNat + 2 < 2 ^ 16 by omega)
    rw [expectedValue, @read16_ok self _ _ _ (offset + 2) hfind (by omega)]
    dsimp only
    rw [@read16_ok self _ _ _ offset hfind (by omega)]
    simp only [slice_succ, slice_zero, Nat.add_assoc, Nat.reduceAdd, leValue, Option.some.injEq, Prod.mk.injEq, and_true]
    apply BitVec.eq_of_toNat_eq
    rw [BitVec.toNat_setWidth, toNat_words, toNat_bigEndian, toNat_bigEndian, BitVec.toNat_ofNat, hnext]
    simp only [Nat.add_assoc, Nat.reduceAdd]
    omega

/-- `Z` and `N` say how a value compares with a payload. -/
def judged (state : MachineState) (value payload : Nat) : MachineState :=
  { state with csrs := { state.csrs with F := false, Z := value = payload, N := value < payload } }

theorem compared_eq {value payload : Nat} (hv : value < 2 ^ 64) (hp : payload < 2 ^ 64) :
    self.compared (some (BitVec.ofNat 64 value)) (BitVec.ofNat 64 payload) = self.judged value payload := by
  have heq : (BitVec.ofNat 64 value = BitVec.ofNat 64 payload) ↔ value = payload := by
    rw [← BitVec.toNat_inj, BitVec.toNat_ofNat, BitVec.toNat_ofNat, Nat.mod_eq_of_lt hv, Nat.mod_eq_of_lt hp]
  have hlt : (BitVec.ofNat 64 value < BitVec.ofNat 64 payload) ↔ value < payload := by
    rw [BitVec.lt_def, BitVec.toNat_ofNat, BitVec.toNat_ofNat, Nat.mod_eq_of_lt hv, Nat.mod_eq_of_lt hp]
  simp only [compared, judged, heq, hlt]

end MachineState

/-- The registers that can be compared, and their fields. -/
def ByteWidth (n : Nat) : Prop := n = 1 ∨ n = 2 ∨ n = 4

namespace ApplyBackend

/-- The machine is in register mode, the register is known and may be read, and the payload is in its buffer. -/
structure Comparable (backend : ApplyBackend σ) (scan : RegisterScan σ) (ref : RegisterRef) (reg : Register)
    (field : Option Field) (bytes : List U8) (buf : Buffer) (data : SegmentPair) (size : U16) (state : MachineState)
    (s : Machine σ) : Prop where
  mode : state.csrs.TR = true
  attached : backend.scan = some scan
  resolved : scan.resolve ref = some (reg, field)
  field_inside : firstBit field + bitWidth reg field ≤ reg.byteWidth.toNat * 8
  holds : Holds scan reg bytes s
  readable : Readable reg field .Host
  found : backend.mgr.find data.hi = some buf
  payload_inside : data.lo.toNat + size.toNat ≤ SIZE

variable {self : ApplyBackend σ} {scan : RegisterScan σ} {ref : RegisterRef} {reg : Register} {field : Option Field}
  {bytes : List U8} {buf : Buffer} {data : SegmentPair} {size : U16} {state : MachineState} {s : Machine σ}

theorem onCmpreg_eq (h : Comparable self scan ref reg field bytes buf data size state s) :
    self.onCmpreg ref data size state =
      if reg.byteWidth.toNat ≠ size.toNat then pure (state.hardStop .RegisterSizeMismatch)
      else
        match state.expectedValue self.mgr data.hi data.lo reg.byteWidth.toNat with
        | none => pure (state.hardStop .RegisterWidthIllegal)
        | some (expected, state) => do
          let actual ← tryAccess (actualValue scan ref reg.byteWidth.toNat)
          return state.compared actual (cutTo field expected) := by
  have hin := h.payload_inside
  rw [onCmpreg, h.mode, h.attached]
  simp only [Bool.not_true, Bool.false_eq_true, if_false]
  rw [h.resolved]
  dsimp only
  rw [if_neg (by rw [h.found]; exact Option.some_ne_none buf), if_neg (by omega)]

theorem actualValue_ok (h : Comparable self scan ref reg field bytes buf data size state s)
    (hwidth : ByteWidth reg.byteWidth.toNat) :
    tryAccess (actualValue scan ref reg.byteWidth.toNat) s =
      .ok (some (BitVec.ofNat 64 (fieldValue field (Endian.decode reg.order.endian bytes)))) s := by
  have hshift : Shiftable field := by
    intro f hf
    obtain rfl : field = some f := hf
    have hin := h.field_inside
    simp only [firstBit, bitWidth] at hin
    rcases hwidth with hw | hw | hw <;> rw [hw] at hin <;> omega
  have hlt := fieldValue_lt h.holds.length h.field_inside reg.order.endian
  have hread := readAs_ok h.resolved (by rcases hwidth with hw | hw | hw <;> omega) h.field_inside h.holds h.readable
    hshift
  have hcast : ∀ n, fieldValue field (Endian.decode reg.order.endian bytes) < 2 ^ n → n ≤ 64 →
      (BitVec.ofNat n (fieldValue field (Endian.decode reg.order.endian bytes))).setWidth 64 =
        BitVec.ofNat 64 (fieldValue field (Endian.decode reg.order.endian bytes)) := by
    intro n hn hle
    apply BitVec.eq_of_toNat_eq
    rw [BitVec.toNat_setWidth, BitVec.toNat_ofNat, BitVec.toNat_ofNat, Nat.mod_eq_of_lt hn]
  have hvalue : actualValue scan ref reg.byteWidth.toNat s =
      .ok (BitVec.ofNat 64 (fieldValue field (Endian.decode reg.order.endian bytes))) s := by
    rcases hwidth with hw | hw | hw
    all_goals
      rw [hw] at hlt ⊢
      rw [actualValue, bind_apply_ok (hread _), hcast _ hlt (by decide)]
      rfl
  rw [tryAccess, hvalue]

theorem expectedValue_none {byteWidth : Nat} (mgr : BufferManager) (id : Bts.ID) (offset : U16)
    (hwidth : ¬ ByteWidth byteWidth) : state.expectedValue mgr id offset byteWidth = none := by
  unfold MachineState.expectedValue
  split
  · exact absurd (.inl rfl) hwidth
  · exact absurd (.inr (.inl rfl)) hwidth
  · exact absurd (.inr (.inr rfl)) hwidth
  · rfl

theorem toNat_cutTo {payload : Nat} (hp : payload < 256 ^ reg.byteWidth.toNat) (hwidth : ByteWidth reg.byteWidth.toNat)
    (hin : firstBit field + bitWidth reg field ≤ reg.byteWidth.toNat * 8) :
    cutTo field (BitVec.ofNat 64 payload) = BitVec.ofNat 64 (payload % 2 ^ bitWidth reg field) := by
  rw [pow_bytes] at hp
  have hpow : 2 ^ (reg.byteWidth.toNat * 8) ≤ 2 ^ 64 :=
    Nat.pow_le_pow_right (by decide) (by rcases hwidth with hw | hw | hw <;> omega)
  have hpayload : (BitVec.ofNat 64 payload).toNat = payload := by
    rw [BitVec.toNat_ofNat]
    exact Nat.mod_eq_of_lt (by omega)
  cases field with
  | none => rw [cutTo, bitWidth, Nat.mod_eq_of_lt hp]
  | some f =>
    have hlt : f.bitWidth.toNat < 64 := by
      simp only [firstBit, bitWidth] at hin
      rcases hwidth with hw | hw | hw <;> omega
    apply BitVec.eq_of_toNat_eq
    rw [cutTo, bitWidth, show fieldMask f.bitWidth.toNat = BitFields.lowMask 64 f.bitWidth.toNat from
      BitFields.cappedMask_of_lt hlt, BitFields.toNat_and_lowMask _ hlt, hpayload, BitVec.toNat_ofNat]
    exact (Nat.mod_eq_of_lt (Nat.lt_of_le_of_lt (Nat.mod_le _ _) (by omega))).symm

/-- A comparison of a whole register's payload sets the flags by the values, unless the payload is one byte at
the very end of its buffer. A payload of another size, or a register of another width, stops the run. -/
theorem cmpreg_verdict (h : Comparable self scan ref reg field bytes buf data size state s) :
    (size.toNat ≠ reg.byteWidth.toNat →
      self.onCmpreg ref data size state s = .ok (state.hardStop .RegisterSizeMismatch) s) ∧
    (size.toNat = reg.byteWidth.toNat → ¬ ByteWidth reg.byteWidth.toNat →
      self.onCmpreg ref data size state s = .ok (state.hardStop .RegisterWidthIllegal) s) ∧
    (size.toNat = reg.byteWidth.toNat → ByteWidth reg.byteWidth.toNat → (size = 1 → data.lo.toNat + 2 ≤ SIZE) →
      self.onCmpreg ref data size state s = .ok (state.judged (fieldValue field (Endian.decode reg.order.endian bytes))
        (leValue (slice buf.bytes data.lo.toNat size.toNat) % 2 ^ bitWidth reg field)) s) := by
  rw [onCmpreg_eq h]
  refine ⟨?_, ?_, ?_⟩
  · intro hsize
    rw [if_pos (Ne.symm hsize)]
    rfl
  · intro hsize hwidth
    rw [if_neg (by simp [hsize]), expectedValue_none _ _ _ hwidth]
    rfl
  · intro hsize hwidth hlast
    have hin := h.payload_inside
    have hexpected := @MachineState.expectedValue_ok state _ _ _ data.lo _ hwidth h.found (by omega)
      (by intro hone; exact hlast (BitVec.eq_of_toNat_eq (by rw [hsize, hone]; rfl)))
    rw [if_neg (by simp [hsize]), hexpected]
    dsimp only
    have hpayload := Endian.ofLE_lt (slice buf.bytes data.lo.toNat reg.byteWidth.toNat)
    rw [length_slice, ← leValue_eq] at hpayload
    have hvalue := fieldValue_lt h.holds.length h.field_inside reg.order.endian
    have hpow : 256 ^ reg.byteWidth.toNat ≤ 2 ^ 64 := by
      rw [pow_bytes]
      exact Nat.pow_le_pow_right (by decide) (by rcases hwidth with hw | hw | hw <;> omega)
    rw [bind_apply_ok (actualValue_ok h hwidth), toNat_cutTo hpayload hwidth h.field_inside, hsize]
    change EStateM.Result.ok (state.compared _ _) s = _
    rw [MachineState.compared_eq (by omega) (Nat.lt_of_le_of_lt (Nat.mod_le _ _) (by omega))]

/-- A byte of a register is less than the payload in the last byte but one of a buffer. -/
theorem cmpreg_verdict_byte :
    let reg : Register := ⟨1, ReadWrite, ReadWrite, 1, .bigEndian, [], .pointer 1 (some 0)⟩
    let scan : RegisterScan Unit := ⟨⟨fun _ => none⟩, fun _ => some reg⟩
    let mgr : BufferManager := ⟨2, fun _ => ⟨true, 0, ⟨0, fun _ => 9⟩⟩, []⟩
    let state : MachineState := ⟨{ Flags.default with TR := true }, Registers.default, fun _ => 0⟩
    let s : Machine Unit := ⟨(), fun _ => [7]⟩
    (⟨mgr, some scan⟩ : ApplyBackend Unit).onCmpreg ⟨1, 0⟩ ⟨1, 0xFFFE⟩ 1 state s = .ok (state.judged 7 9) s := by
  intro reg scan mgr state s
  have h : Comparable ⟨mgr, some scan⟩ scan ⟨1, 0⟩ reg none [7] ⟨0, fun _ => 9⟩ ⟨1, 0xFFFE⟩ 1 state s := by
    refine ⟨rfl, rfl, rfl, by decide, ⟨rfl, fun access _ => rfl⟩, ⟨rfl, ?_⟩, rfl, by decide⟩
    simp
  exact (cmpreg_verdict h).2.2 rfl (.inl rfl) fun _ => by decide

/-- One byte of payload for a register of two bytes stops the run. -/
theorem not_cmpreg_verdict_short :
    let reg : Register := ⟨2, ReadWrite, ReadWrite, 1, .bigEndian, [], .pointer 2 (some 0)⟩
    let scan : RegisterScan Unit := ⟨⟨fun _ => none⟩, fun _ => some reg⟩
    let mgr : BufferManager := ⟨2, fun _ => ⟨true, 0, ⟨0, fun _ => 9⟩⟩, []⟩
    let state : MachineState := ⟨{ Flags.default with TR := true }, Registers.default, fun _ => 0⟩
    let s : Machine Unit := ⟨(), fun _ => [0, 7]⟩
    (⟨mgr, some scan⟩ : ApplyBackend Unit).onCmpreg ⟨1, 0⟩ ⟨1, 0⟩ 1 state s =
      .ok (state.hardStop .RegisterSizeMismatch) s :=
  rfl

end ApplyBackend

end Pepp.Tvm
