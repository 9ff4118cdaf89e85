import Pepp.Integers
import Pepp.Lib.Endian
import Pepp.Lib.XorDeltas

/-!
# Trace packets

A packet is a header and the payloads behind it. Addresses and payloads are byte
arrays of a variable length; a payload takes 32 bytes, and longer data goes into
several, each of which has a flag in its length when another one follows.
-/

namespace Pepp.Trace

open XorDeltas

/-- `bits::memcpy` -/
def memcpy (dest src : List U8) : List U8 := copy dest src

/-- `bits::memcpy_xor` -/
def memcpyXor (dest src1 src2 : List U8) : List U8 := copy dest (delta src1 src2)

/-- Bytes of which `len` are in use. The high bit of `len` is the flag `continues`. -/
structure VariableBytes (N : Nat) where
  len : U8
  bytes : List U8
  size : bytes.length = N
  deriving DecidableEq

namespace VariableBytes

variable {N k : Nat}

def lenMask : U8 := 0x7f

def ofLen (len : U8) (continues : Bool) : VariableBytes N :=
  ⟨(len &&& lenMask) ||| (if continues then 0x80 else 0), List.replicate N 0, List.length_replicate⟩

/-- The constructor that copies its bytes from `src`. -/
def ofBytes (len : U8) (src : List U8) (continues : Bool) : VariableBytes N :=
  ⟨(len &&& lenMask) ||| (if continues then 0x80 else 0), memcpy (List.replicate N 0) (src.take len.toNat),
    by rw [memcpy, length_copy, List.length_replicate]⟩

/-- The bytes of an address of `k` bytes, in the order of the host. -/
def fromAddress (address : BitVec (8 * k)) : VariableBytes N :=
  ofBytes (.ofNat 8 k) (Endian.leBytes k address.toNat) false

def toAddress (k : Nat) (self : VariableBytes N) : BitVec (8 * k) :=
  .ofNat (8 * k) (Endian.ofLE (memcpy (List.replicate k 0) (self.bytes.take self.len.toNat)))

end VariableBytes

inductive Header where
  | clear (device : U16) (value : VariableBytes 8)
  | pureRead (device path : U16) (payloadLen : U64) (address : VariableBytes 8)
  | impureRead (device path : U16) (address : VariableBytes 8)
  | write (device path : U16) (address : VariableBytes 8)
  | increment (device : U16) (payloadLen : U64) (address : VariableBytes 8)
  deriving DecidableEq

def Header.device : Header → U16
  | .clear device .. => device
  | .pureRead device .. => device
  | .impureRead device .. => device
  | .write device .. => device
  | .increment device .. => device

abbrev Payload := VariableBytes 32

inductive Fragment where
  | trace
  | header (header : Header)
  | payload (payload : Payload)
  deriving DecidableEq

structure Packet where
  header : Header
  payloads : List Payload
  deriving DecidableEq

/-- The payloads in front of the next header. -/
def payloads : List Fragment → List Payload
  | .payload p :: rest => p :: payloads rest
  | _ => []

/-- The packets of all frames, in the order in which they were written. -/
def packets : List Fragment → List Packet
  | [] => []
  | .header h :: rest => ⟨h, payloads rest⟩ :: packets rest
  | _ :: rest => packets rest

/-! ## Recording -/

structure Buffer where
  traced : U16 → Bool
  currentPath : U16
  fragments : List Fragment

namespace Buffer

variable {k : Nat}

def writeFragment (self : Buffer) (fragment : Fragment) : Buffer :=
  { self with fragments := self.fragments ++ [fragment] }

def emitFrameStart (self : Buffer) : Buffer := self.writeFragment .trace

/-- The chunks of two buffers, XOR-encoded. The 32-bit counter of the loop wraps only behind 4 GiB of data. -/
def payloadsOf : Nat → List U8 → List U8 → List Payload
  | 0, _, _ => []
  | fuel + 1, buf1, buf2 =>
    let remaining := min buf1.length buf2.length
    if remaining = 0 then []
    else
      let payloadLen := min remaining 32
      let bytes : Payload := .ofLen (.ofNat 8 payloadLen) (remaining > 32)
      ⟨bytes.len, memcpyXor bytes.bytes (buf1.take payloadLen) (buf2.take payloadLen),
        (length_copy _ _).trans bytes.size⟩ :: payloadsOf fuel (buf1.drop payloadLen) (buf2.drop payloadLen)

def emitPayloads (self : Buffer) (buf1 buf2 : List U8) : Buffer :=
  (payloadsOf (min buf1.length buf2.length) buf1 buf2).foldl (fun self p => self.writeFragment (.payload p)) self

def emitWrite (self : Buffer) (id : U16) (address : BitVec (8 * k)) (src dest : List U8) : Buffer :=
  if self.traced id then
    (self.writeFragment (.header (.write id self.currentPath (.fromAddress address)))).emitPayloads src dest
  else self

def emitPureRead (self : Buffer) (id : U16) (address len : BitVec (8 * k)) : Buffer :=
  if self.traced id then
    self.writeFragment (.header (.pureRead id self.currentPath (len.setWidth 64) (.fromAddress address)))
  else self

end Buffer

/-! ## Reading packets back -/

section

variable {k : Nat} {fs gs : List Fragment}

theorem toNat_masked {n : Nat} (h : n < 128) :
    ((BitVec.ofNat 8 n &&& VariableBytes.lenMask) ||| if false = true then 0x80 else 0).toNat = n := by
  have hmask : (BitVec.ofNat 8 n &&& VariableBytes.lenMask).toNat = n := by
    rw [BitVec.toNat_and, BitVec.toNat_ofNat, Nat.mod_eq_of_lt (by omega)]
    exact (Nat.and_two_pow_sub_one_eq_mod n 7).trans (Nat.mod_eq_of_lt h)
  rw [if_neg Bool.false_ne_true, BitVec.toNat_or, hmask]
  exact Nat.or_zero n

theorem toAddress_fromAddress (hk : k ≤ 8) (address : BitVec (8 * k)) :
    (VariableBytes.fromAddress address : VariableBytes 8).toAddress k = address := by
  have hlen : (Endian.leBytes k address.toNat).length = k := Endian.length_leBytes k _
  have hk' : (BitVec.ofNat 8 k).toNat = k := by
    rw [BitVec.toNat_ofNat]
    omega
  have hmask := toNat_masked (show k < 128 by omega)
  have htake := @take_copy _ (List.replicate 8 (0 : U8)) (Endian.leBytes k address.toNat) (by simpa [hlen] using hk)
  rw [hlen] at htake
  rw [VariableBytes.toAddress, VariableBytes.fromAddress, VariableBytes.ofBytes]
  dsimp only
  rw [hmask, hk', List.take_of_length_le hlen.le, memcpy, memcpy, htake,
    copy_of_length_eq (by rw [hlen, List.length_replicate]), Endian.ofLE_leBytes]
  apply BitVec.eq_of_toNat_eq
  rw [BitVec.toNat_ofNat, show (256 : Nat) = 2 ^ 8 from rfl, ← pow_mul, Nat.mod_mod,
    Nat.mod_eq_of_lt address.isLt]

/-- What does not begin with a payload begins with its own packets. -/
theorem packets_append (h : payloads gs = []) : packets (fs ++ gs) = packets fs ++ packets gs := by
  have hpayloads : ∀ fs, payloads (fs ++ gs) = payloads fs := by
    intro fs
    induction fs with
    | nil => exact h
    | cons f fs ih =>
      cases f with
      | payload p => exact congrArg (p :: ·) ih
      | _ => rfl
  induction fs with
  | nil => rfl
  | cons f fs ih =>
    cases f with
    | header h => rw [List.cons_append, packets, packets, hpayloads, ih, List.cons_append]
    | _ => exact ih

end

end Pepp.Trace
