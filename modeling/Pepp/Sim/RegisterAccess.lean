import Pepp.Sim.RegisterScan

/-!
# What register accesses do

The bytes of a register stand for a number in its own order. A write puts a value
into that number or into a field of it, and a read takes one out. The shifts of a
read are defined for fields of fewer than 64 bits, those of a write for fields
that start below bit 64.
-/

namespace Pepp

namespace Tc

def Order.endian : Order → Endian.Order
  | .littleEndian => .little
  | .bigEndian => .big

/-- A copy to no more bytes keeps the low end of the number. -/
theorem memcpyEndian_narrow {dest src : List U8} (destOrder srcOrder : Order) (h : dest.length ≤ src.length) :
    memcpyEndian dest destOrder src srcOrder =
      Endian.encode destOrder.endian dest.length (Endian.decode srcOrder.endian src) := by
  have hcut : ∀ bytes : List U8, bytes.length = src.length →
      Endian.leBytes dest.length (Endian.ofLE bytes) = bytes.take dest.length := by
    intro bytes hlen
    rw [Endian.leBytes_ofLE, show dest.length - bytes.length = 0 by omega, List.replicate_zero, List.append_nil]
  have hsrc : (if dest.length < src.length ∧ srcOrder = .bigEndian then src.length - dest.length else 0) =
      if srcOrder = .bigEndian then src.length - dest.length else 0 := by
    split <;> split <;> grind
  have hdest : ¬ (src.length < dest.length ∧ destOrder = .bigEndian) := by omega
  have hlow : src.drop (src.length - dest.length) = (src.reverse.take dest.length).reverse := by
    rw [List.take_reverse, List.reverse_reverse]
  have hmin : src.length - (src.length - dest.length) = dest.length := by omega
  have hwhole : (src.reverse.take dest.length).reverse.take dest.length = (src.reverse.take dest.length).reverse :=
    List.take_of_length_le (by simp)
  unfold memcpyEndian
  rw [hsrc, if_neg hdest]
  cases srcOrder with
  | littleEndian =>
    cases destOrder <;> simp [Order.endian, Endian.encode, Endian.decode, hcut, h]
  | bigEndian =>
    cases destOrder <;> simp [Order.endian, Endian.encode, Endian.decode, hcut, hlow, hmin, hwhole, h]

/-- A copy to more bytes pads the number with zeros. -/
theorem memcpyEndian_zeros {k : Nat} {src : List U8} (destOrder srcOrder : Order) (h : src.length ≤ k) :
    memcpyEndian (List.replicate k 0) destOrder src srcOrder =
      Endian.encode destOrder.endian k (Endian.decode srcOrder.endian src) := by
  have hpad : ∀ bytes : List U8, bytes.length = src.length →
      Endian.leBytes k (Endian.ofLE bytes) = bytes ++ List.replicate (k - src.length) 0 := by
    intro bytes hlen
    rw [Endian.leBytes_ofLE, hlen, List.take_of_length_le (by omega)]
  have hsrc : ¬ (k < src.length ∧ srcOrder = .bigEndian) := by omega
  have hdest : (if src.length < k ∧ destOrder = .bigEndian then k - src.length else 0) =
      if destOrder = .bigEndian then k - src.length else 0 := by
    split <;> split <;> grind
  unfold memcpyEndian
  rw [List.length_replicate, hdest, if_neg hsrc]
  cases srcOrder with
  | littleEndian | bigEndian =>
    cases destOrder <;> simp [Order.endian, Endian.encode, Endian.decode, hpad, h]

end Tc

namespace RegisterScan

open Tc (Order memcpyEndian hostOrder)
open Tvm (RegisterRef)
open Outcome BitFields

theorem toU64_eq (src : List U8) (o : Order) : toU64 src o = BitVec.ofNat 64 (Endian.decode o.endian src) := by
  have hcopy : memcpyEndian (List.replicate 8 0) hostOrder src o =
      Endian.encode .little 8 (Endian.decode o.endian src) := by
    by_cases h : src.length ≤ 8
    · exact Tc.memcpyEndian_zeros .littleEndian o h
    · have hn := @Tc.memcpyEndian_narrow (List.replicate 8 0) src .littleEndian o (by simp; omega)
      rw [List.length_replicate] at hn
      exact hn
  apply BitVec.eq_of_toNat_eq
  rw [toU64, hcopy, Endian.encode, Endian.ofLE_leBytes, BitVec.toNat_ofNat, BitVec.toNat_ofNat]
  exact Nat.mod_mod_of_dvd _ (by decide)

theorem toNat_toU64 {src : List U8} (o : Order) (h : src.length ≤ 8) :
    (toU64 src o).toNat = Endian.decode o.endian src := by
  have hlt := Endian.decode_lt o.endian src
  have hpow : 256 ^ src.length ≤ 256 ^ 8 := Nat.pow_le_pow_right (by decide) h
  rw [toU64_eq, BitVec.toNat_ofNat]
  exact Nat.mod_eq_of_lt (Nat.lt_of_lt_of_le hlt hpow)

theorem copyU64_eq {dest : List U8} (o : Order) (v : U64) (h : dest.length ≤ 8) :
    copyU64 dest o v = Endian.encode o.endian dest.length v.toNat := by
  have hv : Endian.decode Endian.Order.little (Endian.leBytes 8 v.toNat) = v.toNat := by
    rw [Endian.decode, Endian.ofLE_leBytes]
    exact Nat.mod_eq_of_lt v.isLt
  have hn := @Tc.memcpyEndian_narrow dest (Endian.leBytes 8 v.toNat) o .littleEndian (by simpa using h)
  rw [copyU64]
  exact hn.trans (congrArg _ hv)

variable {σ : Type}

/-- The accesses of the scan chain itself. -/
def Quiet (access : Operation) : Prop := access = rw ∨ access = rwBuf

/-- What the storage of a register holds, in its own order. Looking at it changes nothing. -/
structure Holds (scan : RegisterScan σ) (reg : Register) (bytes : List U8) (s : Machine σ) : Prop where
  length : bytes.length = reg.byteWidth.toNat
  load : ∀ access, Quiet access → scan.load reg reg.byteWidth.toNat access s = .ok bytes s

/-- Storage: bytes that are written are there afterwards. -/
structure Keeps (scan : RegisterScan σ) (reg : Register) (s : Machine σ) : Prop where
  now : ∃ bytes, Holds scan reg bytes s
  store : ∀ src access, src.length = reg.byteWidth.toNat → Quiet access →
    ∃ s', scan.store reg src access s = .ok () s' ∧ Holds scan reg src s'

/-- The fields that all shifts are defined for. -/
def Shiftable (field : Option Field) : Prop := ∀ f ∈ field, f.bitWidth.toNat < 64 ∧ f.bitOffset.toNat < 64

/-- The rights that a read or a write needs. -/
def Readable (reg : Register) (field : Option Field) (level : Level) : Prop :=
  (reg.granted level).read = true ∧ ∀ f ∈ field, (f.granted level).read = true

def Writable (reg : Register) (field : Option Field) (level : Level) : Prop :=
  (reg.granted level).write = true ∧ ∀ f ∈ field, (f.granted level).write = true

/-- The number in a register once a value has been put into it, or into a field of it. -/
def put (field : Option Field) (whole value : U64) : U64 :=
  match field with
  | none => value
  | some f => insert whole value f.bitOffset.toNat f.bitWidth.toNat

def take (field : Option Field) (whole : U64) : U64 :=
  match field with
  | none => whole
  | some f => extract whole f.bitOffset.toNat f.bitWidth.toNat

variable {scan : RegisterScan σ} {reg : Register} {field : Option Field} {s s' : Machine σ} {bytes src dest : List U8}
  {bswap : Byteswap} {level : Level}

theorem quiet_level (level : Level) : Quiet (if level = .Guest then rw else rwBuf) := by
  cases level
  · exact .inl rfl
  · exact .inr rfl

theorem Holds.located (h : Holds scan reg bytes s) : reg.loc ≠ .none := by
  intro hloc
  have hload := h.load rw (.inl rfl)
  rw [RegisterScan.load, hloc] at hload
  injection hload

variable {n : Nat} {x : U64}

@[simp] theorem shiftLeft_ok (h : n < 64) : shiftLeft x n s = .ok (x <<< n) s := by
  rw [shiftLeft, if_pos h]
  rfl

@[simp] theorem shiftRight_ok (h : n < 64) : shiftRight x n s = .ok (x >>> n) s := by
  rw [shiftRight, if_pos h]
  rfl

theorem shiftLeft_undefined (h : ¬ n < 64) : shiftLeft x n s = .error .undefined s := by
  rw [shiftLeft, if_neg h]
  rfl

theorem shiftRight_undefined (h : ¬ n < 64) : shiftRight x n s = .error .undefined s := by
  rw [shiftRight, if_neg h]
  rfl

/-! ## Storage -/

/-- What a memory target does that keeps the bytes at an address. -/
structure Target.Keeps (target : Target σ) (address : Address) (len : Nat) (system : σ) : Prop where
  now : ∃ bytes : List U8, bytes.length = len ∧
    ∀ access, Quiet access → target.read address len access system = .ok bytes system
  store : ∀ src access, src.length = len → Quiet access → ∃ system', target.write address src access system =
    .ok () system' ∧ ∀ access', Quiet access' → target.read address len access' system' = .ok src system'

theorem keeps_address {address : Address} {target : Target σ} (hloc : reg.loc = .address address)
    (hfind : scan.sys.findById reg.target = some (some target))
    (h : target.Keeps address reg.byteWidth.toNat s.system) : Keeps scan reg s := by
  have hload : ∀ (s s' : Machine σ) bytes access, s'.cells = s.cells →
      target.read address reg.byteWidth.toNat access s.system = .ok bytes s'.system →
      scan.load reg reg.byteWidth.toNat access s = .ok bytes s' := by
    intro s s' bytes access hcells hread
    rw [RegisterScan.load, hloc]
    dsimp only
    rw [onDevice, hfind]
    dsimp only
    rw [onTarget, hread, ← hcells]
  obtain ⟨bytes, hlen, hnow⟩ := h.now
  refine ⟨⟨bytes, hlen, fun access ha => hload s s bytes access rfl (hnow access ha)⟩, ?_⟩
  intro src access hsrc ha
  obtain ⟨system', hwrite, hkept⟩ := h.store src access hsrc ha
  refine ⟨{ s with system := system' }, ?_, hsrc, fun access' ha' => hload _ _ src access' rfl (hkept access' ha')⟩
  rw [RegisterScan.store, hloc]
  dsimp only
  rw [onDevice, hfind]
  dsimp only
  rw [onTarget, hwrite]

/-- The flat memory as a target. -/
def denseTarget : Target Dense where
  read address len _ := fun ram =>
    match ram.read address len with
    | .ok dest => .ok dest ram
    | .error e => .error e ram
  write address src _ := fun ram =>
    match ram.write address src with
    | .ok ram => .ok () ram
    | .error e => .error e ram

theorem keeps_dense {scan : RegisterScan Dense} {s : Machine Dense} {address : Address}
    (hloc : reg.loc = .address address) (hfind : scan.sys.findById reg.target = some (some denseTarget))
    (hin : s.system.inBounds address reg.byteWidth.toNat) : Keeps scan reg s := by
  have hread : ∀ (ram : Dense) access, ram.inBounds address reg.byteWidth.toNat →
      denseTarget.read address reg.byteWidth.toNat access ram = .ok (ram.bytes address reg.byteWidth.toNat) ram := by
    intro ram access hram
    simp only [denseTarget, Dense.read_ok.mpr ⟨hram, rfl⟩]
  refine keeps_address hloc hfind
    ⟨⟨_, Span.length_slice s.system.data _ _, fun access _ => hread s.system access hin⟩, ?_⟩
  intro src access hsrc _
  let ram := { s.system with data := Span.overwrite s.system.data (s.system.offset address) src }
  refine ⟨ram, by simp only [denseTarget, Dense.write_ok.mpr ⟨hsrc ▸ hin, rfl⟩]; rfl, fun access' _ => ?_⟩
  have hback := Span.slice_overwrite s.system.data (s.system.offset address) src
  rw [hread ram access' hin, Dense.bytes, ← hsrc]
  exact congrArg (EStateM.Result.ok · ram) hback

/-! ## Writes -/

theorem writeField_ok {value : U64} (hw : reg.byteWidth.toNat ≤ 8) (h : Holds scan reg bytes s)
    (hgrant : Writable reg field level) (hoff : ∀ f ∈ field, f.bitOffset.toNat < 64) :
    scan.writeField reg field value level s = .ok (put field (toU64 bytes reg.order) value) s := by
  cases field with
  | none => rfl
  | some f =>
    have hload := h.load rwBuf (.inr rfl)
    have hoff := hoff f rfl
    rw [writeField, hgrant.2 f rfl, Nat.min_eq_left hw]
    simp only [Bool.not_true, Bool.false_eq_true, if_false]
    rw [bind_apply_ok hload, bind_apply_ok (shiftLeft_ok hoff), bind_apply_ok (shiftLeft_ok hoff)]
    rfl

/-- A write puts the value into the number that the register holds. -/
theorem writeReg_ok (hw : reg.byteWidth.toNat ≤ 8) (hk : Keeps scan reg s) (h : Holds scan reg bytes s)
    (hgrant : Writable reg field level) (hoff : ∀ f ∈ field, f.bitOffset.toNat < 64) :
    ∃ s', scan.writeReg reg field src bswap level s = .ok () s' ∧
      Holds scan reg (Endian.encode reg.order.endian reg.byteWidth.toNat
        (put field (toU64 bytes reg.order) (toU64 src (srcOrder reg bswap))).toNat) s' := by
  let value := put field (toU64 bytes reg.order) (toU64 src (srcOrder reg bswap))
  have hout : copyU64 ((Endian.leBytes 8 value.toNat).take (min reg.byteWidth.toNat 8)) reg.order value =
      Endian.encode reg.order.endian reg.byteWidth.toNat value.toNat := by
    have hlen : ((Endian.leBytes 8 value.toNat).take (min reg.byteWidth.toNat 8)).length = reg.byteWidth.toNat := by
      rw [List.length_take, Endian.length_leBytes]
      omega
    rw [copyU64_eq _ _ (by omega), hlen]
  obtain ⟨s', hstore, hholds⟩ := hk.store _ _ (Endian.length_encode reg.order.endian reg.byteWidth.toNat value.toNat)
    (quiet_level level)
  refine ⟨s', ?_, hholds⟩
  rw [writeReg, if_neg h.located, hgrant.1]
  simp only [Bool.not_true, Bool.false_eq_true, if_false]
  rw [bind_apply_ok (writeField_ok hw h hgrant hoff), hout, hstore]

theorem writeReg_undefined {f : Field} (hw : reg.byteWidth.toNat ≤ 8) (h : Holds scan reg bytes s)
    (hgrant : Writable reg (some f) level) (hoff : ¬ f.bitOffset.toNat < 64) :
    scan.writeReg reg (some f) src bswap level s = .error .undefined s := by
  have hload := h.load rwBuf (.inr rfl)
  rw [writeReg, if_neg h.located, hgrant.1]
  simp only [Bool.not_true, Bool.false_eq_true, if_false]
  apply bind_apply_error
  simp only [writeField]
  rw [hgrant.2 f rfl, Nat.min_eq_left hw]
  simp only [Bool.not_true, Bool.false_eq_true, if_false]
  rw [bind_apply_ok hload, bind_apply_error (shiftLeft_undefined hoff)]

/-! ## Reads -/

/-- Bytes in the order that a caller asked for. -/
def swapped (reg : Register) (bswap : Byteswap) (out : List U8) : List U8 :=
  if bswap = .Always ∨ (bswap = .IfHostMismatch ∧ reg.order ≠ hostOrder) then out.reverse else out

theorem decode_swapped (reg : Register) (bswap : Byteswap) (out : List U8) :
    Endian.decode (srcOrder reg bswap).endian (swapped reg bswap out) = Endian.decode reg.order.endian out := by
  unfold swapped srcOrder hostOrder
  cases bswap <;> cases reg.order <;> simp [Order.endian, Endian.decode]

theorem readField_ok (hw : bytes.length ≤ 8) (hgrant : Readable reg field level) (hshift : Shiftable field) :
    readField reg field bytes level s =
      .ok (Endian.encode reg.order.endian bytes.length (take field (toU64 bytes reg.order)).toNat) s := by
  cases field with
  | none =>
    rw [take, toNat_toU64 _ hw, Endian.encode_decode]
    rfl
  | some f =>
    obtain ⟨hwidth, hoff⟩ := hshift f rfl
    rw [readField, hgrant.2 f rfl]
    simp only [Bool.not_true, Bool.false_eq_true, if_false]
    rw [bind_apply_ok (shiftRight_ok hoff), bind_apply_ok (shiftLeft_ok hwidth), copyU64_eq _ _ hw]
    rfl

/-- A read takes the value out of the number that the register holds. -/
theorem readReg_ok (hw : reg.byteWidth.toNat ≤ 8) (h : Holds scan reg bytes s) (hgrant : Readable reg field level)
    (hshift : Shiftable field) (hdest : dest.length = reg.byteWidth.toNat) :
    scan.readReg reg field dest bswap level s = .ok (reg.order, swapped reg bswap
      (Endian.encode reg.order.endian reg.byteWidth.toNat (take field (toU64 bytes reg.order)).toNat)) s := by
  have hload := h.load _ (quiet_level level)
  have hfield := @readField_ok _ _ _ s _ _ (by rw [h.length]; exact hw) hgrant hshift
  rw [h.length] at hfield
  have hout : scan.readOut reg field bswap level s = .ok (swapped reg bswap
      (Endian.encode reg.order.endian reg.byteWidth.toNat (take field (toU64 bytes reg.order)).toNat)) s := by
    rw [readOut, hgrant.1]
    simp only [Bool.not_true, Bool.false_eq_true, if_false]
    rw [bind_apply_ok hload, bind_apply_ok hfield]
    rfl
  rw [readReg, if_neg h.located, if_neg (by omega), bind_apply_ok hout, hdest, Nat.sub_self, List.take_zero,
    List.nil_append]
  rfl

theorem readReg_undefined {f : Field} (h : Holds scan reg bytes s) (hgrant : Readable reg (some f) level)
    (hshift : ¬ (f.bitWidth.toNat < 64 ∧ f.bitOffset.toNat < 64)) (hdest : dest.length = reg.byteWidth.toNat) :
    scan.readReg reg (some f) dest bswap level s = .error .undefined s := by
  have hload := h.load _ (quiet_level level)
  have hfield : readField reg (some f) bytes level s = .error .undefined s := by
    rw [readField, hgrant.2 f rfl]
    simp only [Bool.not_true, Bool.false_eq_true, if_false]
    by_cases hoff : f.bitOffset.toNat < 64
    · rw [bind_apply_ok (shiftRight_ok hoff)]
      apply bind_apply_error
      exact shiftLeft_undefined fun hwidth => hshift ⟨hwidth, hoff⟩
    · exact bind_apply_error (shiftRight_undefined hoff) _
  rw [readReg, if_neg h.located, if_neg (by omega)]
  apply bind_apply_error
  rw [readOut, hgrant.1]
  simp only [Bool.not_true, Bool.false_eq_true, if_false]
  rw [bind_apply_ok hload, bind_apply_error hfield]

/-! ## Values -/

/-- Where the named bits begin. -/
def firstBit (field : Option Field) : Nat :=
  match field with
  | none => 0
  | some f => f.bitOffset.toNat

/-- `bit_width`. -/
def bitWidth (reg : Register) (field : Option Field) : Nat :=
  match field with
  | none => reg.byteWidth.toNat * 8
  | some f => f.bitWidth.toNat

theorem pow_bytes (n : Nat) : 256 ^ n = 2 ^ (n * 8) := by
  rw [Nat.mul_comm, Nat.pow_mul]

/-- The value of a register whose bytes stand for a number, or of a field of it. -/
def fieldValue (field : Option Field) (number : Nat) : Nat :=
  match field with
  | none => number
  | some f => number / 2 ^ f.bitOffset.toNat % 2 ^ f.bitWidth.toNat

theorem toNat_take (hw : reg.byteWidth.toNat ≤ 8) (hlen : bytes.length = reg.byteWidth.toNat) (hshift : Shiftable field) :
    (take field (toU64 bytes reg.order)).toNat = fieldValue field (Endian.decode reg.order.endian bytes) := by
  have hwhole := toNat_toU64 reg.order (show bytes.length ≤ 8 by omega)
  cases field with
  | none => exact hwhole
  | some f =>
    rw [take, extract, toNat_and_lowMask _ (hshift f rfl).1, BitVec.toNat_ushiftRight, hwhole, Nat.shiftRight_eq_div_pow]
    rfl

theorem fieldValue_lt (hlen : bytes.length = reg.byteWidth.toNat)
    (hin : firstBit field + bitWidth reg field ≤ reg.byteWidth.toNat * 8) (o : Endian.Order) :
    fieldValue field (Endian.decode o bytes) < 256 ^ reg.byteWidth.toNat := by
  cases field with
  | none =>
    have hlt := Endian.decode_lt o bytes
    rw [hlen] at hlt
    exact hlt
  | some f =>
    simp only [firstBit, bitWidth] at hin
    rw [fieldValue, pow_bytes]
    exact Nat.lt_of_lt_of_le (Nat.mod_lt _ (Nat.two_pow_pos _)) (Nat.pow_le_pow_right (by decide) (by omega))

/-- A register's value as an integral type gives it. -/
theorem readAs_ok {ref : RegisterRef} (hres : scan.resolve ref = some (reg, field)) (hw : reg.byteWidth.toNat ≤ 8)
    (hin : firstBit field + bitWidth reg field ≤ reg.byteWidth.toNat * 8) (h : Holds scan reg bytes s)
    (hgrant : Readable reg field level) (hshift : Shiftable field) (n : Nat) :
    scan.readAs n ref level s =
      .ok (BitVec.ofNat n (fieldValue field (Endian.decode reg.order.endian bytes))) s := by
  have hread := @readReg_ok _ _ _ _ _ _ (List.replicate (min reg.byteWidth.toNat 8) 0) .Never _ hw h hgrant hshift
    (by rw [List.length_replicate, Nat.min_eq_left hw])
  have hlt := fieldValue_lt h.length hin reg.order.endian
  have hpow : 256 ^ reg.byteWidth.toNat ≤ 2 ^ 64 := by
    rw [pow_bytes]
    exact Nat.pow_le_pow_right (by decide) (by omega)
  rw [readAs, hres]
  dsimp only
  rw [bind_apply_ok hread]
  change EStateM.Result.ok ((toU64 _ reg.order).setWidth n) s = _
  congr 1
  apply BitVec.eq_of_toNat_eq
  rw [swapped, if_neg (by simp), toU64_eq, Endian.decode_encode, toNat_take hw h.length hshift,
    Nat.mod_eq_of_lt hlt, BitVec.toNat_setWidth, BitVec.toNat_ofNat, BitVec.toNat_ofNat]
  rw [Nat.mod_eq_of_lt (Nat.lt_of_lt_of_le hlt hpow)]

end RegisterScan

end Pepp
