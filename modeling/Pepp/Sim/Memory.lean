import Pepp.Integers
import Pepp.Lib.Bytes

/-!
# Memory targets

`Dense` is the flat RAM of the core simulator. It checks the span of every
access, in the 32-bit arithmetic of its addresses, before it touches a byte.
-/

namespace Pepp

open Span

/-- What the modelled code throws. A failed assertion ends the program. -/
inductive Exception where
  | oobAccess : Nat → Exception
  | logicError : String → Exception
  | runtimeError : String → Exception
  | ringOverflow : Nat → Exception
  | assertion : String → Exception
  deriving DecidableEq, Repr

/-- Who makes an access, and why. The replay machinery and the user interface mark theirs
`BufferInternal`, which is never traced. -/
inductive AccessType where
  | Standard | Application | Speculative | BufferInternal
  deriving DecidableEq, Repr

def AccessType.value : AccessType → U8
  | .Standard => 0
  | .Application => 1
  | .Speculative => 2
  | .BufferInternal => 3

def AccessType.ofU16 (v : U16) : AccessType :=
  match (v &&& 0b11).toNat with
  | 0 => .Standard
  | 1 => .Application
  | 2 => .Speculative
  | _ => .BufferInternal

/-- `kind` is whether the access is for data rather than an instruction. -/
structure Operation where
  type : AccessType
  kind : Bool
  initiator : U8
  deriving DecidableEq, Repr

namespace Operation

def modeAsU8 (self : Operation) : U8 := self.type.value <<< 4 ||| (if self.kind then 1 else 0)

def asU16 (self : Operation) : U16 := bigEndian self.initiator self.modeAsU8

def ofU16 (v : U16) : Operation := ⟨AccessType.ofU16 (v >>> 4), v &&& 1 != 0, hiByte v⟩

end Operation

abbrev Address := U32

/-- A closed interval of addresses. -/
structure AddressSpan where
  lower : Address
  upper : Address
  deriving DecidableEq, Repr

/-- Backing bytes are indexed by their offset from `span.lower`. -/
structure Dense where
  span : AddressSpan
  data : Nat → U8

namespace Dense

variable (self : Dense)

def offset (address : Address) : Nat := (address - self.span.lower).toNat

/-- Length is 1-indexed and addresses are 0-indexed, so the last address is one short. -/
def inBounds (address : Address) (len : Nat) : Prop :=
  self.span.lower ≤ address ∧ address + (BitVec.ofNat 32 len - 1) ≤ self.span.upper

instance (address : Address) (len : Nat) : Decidable (self.inBounds address len) :=
  inferInstanceAs (Decidable (_ ∧ _))

/-- The bytes under an access that is about to be overwritten. -/
def bytes (address : Address) (len : Nat) : List U8 := slice self.data (self.offset address) len

def read (address : Address) (len : Nat) : Except Exception (List U8) :=
  if self.inBounds address len then .ok (self.bytes address len) else .error (.oobAccess address.toNat)

def write (address : Address) (src : List U8) : Except Exception Dense :=
  if self.inBounds address src.length then
    .ok { self with data := overwrite self.data (self.offset address) src }
  else .error (.oobAccess address.toNat)

/-- `Target::read<u8>`. -/
def readU8 (address : Address) : Except Exception U8 := do
  let dest ← self.read address 1
  return dest.getD 0 0

/-- `Target::read<u16, host_is_le>`: memory holds words most significant byte first. -/
def readU16 (address : Address) : Except Exception U16 := do
  let dest ← self.read address 2
  return bigEndian (dest.getD 0 0) (dest.getD 1 0)

end Dense

/-- The two bytes of a word in memory order. -/
def wordBytes (w : U16) : List U8 := [hiByte w, loByte w]

@[simp] theorem length_wordBytes (w : U16) : (wordBytes w).length = 2 := rfl

/-- A RAM covering the whole 16-bit address space. -/
def fullSpan : AddressSpan := ⟨0, 0xFFFF⟩

namespace Dense

variable {self : Dense}

variable {address : Address}

theorem read_ok {len : Nat} {out : List U8} :
    self.read address len = .ok out ↔ self.inBounds address len ∧ out = self.bytes address len := by
  unfold read
  split <;> simp_all [eq_comm]

theorem write_ok {src : List U8} {out : Dense} :
    self.write address src = .ok out ↔ self.inBounds address src.length ∧
      out = { self with data := overwrite self.data (self.offset address) src } := by
  unfold write
  split <;> simp_all [eq_comm]

theorem readU8_ok {b : U8} :
    self.readU8 address = .ok b ↔ self.inBounds address 1 ∧ b = self.data (self.offset address) := by
  unfold readU8 read
  split <;> simp_all [bind, Except.bind, pure, Except.pure, bytes, slice_one, eq_comm]

theorem readU16_ok {w : U16} :
    self.readU16 address = .ok w ↔ self.inBounds address 2 ∧
      w = bigEndian (self.data (self.offset address)) (self.data (self.offset address + 1)) := by
  unfold readU16 read
  split <;> simp_all [bind, Except.bind, pure, Except.pure, bytes, slice_two, eq_comm]

theorem offset_full (h : self.span = fullSpan) (address : Address) :
    self.offset address = address.toNat := by
  simp [offset, h, fullSpan]

/-- In a RAM over the whole 16-bit space no access near its start address wraps. -/
theorem inBounds_full (h : self.span = fullSpan) {len : Nat} (hl : 0 < len) (hn : address.toNat + len < 2 ^ 32) :
    self.inBounds address len ↔ address.toNat + len ≤ 0x10000 := by
  have h1 : (address + (BitVec.ofNat 32 len - 1)).toNat = address.toNat + (len - 1) := by
    rw [BitVec.toNat_add, BitVec.toNat_sub_of_le]
    · simp; omega
    · simp [BitVec.le_def]; omega
  simp only [inBounds, h, fullSpan, BitVec.le_def, h1]
  simp
  omega

end Dense

end Pepp

/-! ## Closed intervals of addresses

`Interval<u32>`: both endpoints belong to the interval, and an interval whose
lower endpoint exceeds its upper one is empty. Empty intervals are equivalent
and sort in front of the others, which sort by lower and then upper endpoint. -/

namespace Pepp.AddressSpan

def valid (self : AddressSpan) : Prop := self.lower ≤ self.upper

instance (self : AddressSpan) : Decidable self.valid := inferInstanceAs (Decidable (_ ≤ _))

/-- `operator<`, from the three-way comparison. -/
def lt (lhs rhs : AddressSpan) : Prop :=
  if ¬ lhs.valid ∧ ¬ rhs.valid then False
  else if ¬ lhs.valid then True
  else if ¬ rhs.valid then False
  else if lhs.lower ≠ rhs.lower then lhs.lower < rhs.lower
  else lhs.upper < rhs.upper

instance (lhs rhs : AddressSpan) : Decidable (lhs.lt rhs) := by unfold lt; infer_instance

/-- `size<T, exclude_right>` in the wider type, where it does not overflow. -/
def size (self : AddressSpan) (excludeRight : Bool) : Nat :=
  if ¬ self.valid then 0 else self.upper.toNat - self.lower.toNat + if excludeRight then 0 else 1

def sizeInclusive (self : AddressSpan) : Nat := self.size false

def sizeExclusive (self : AddressSpan) : Nat := self.size true

/-- `contains` for a point. -/
def has (outer : AddressSpan) (inner : Address) : Prop := outer.valid ∧ outer.lower ≤ inner ∧ inner ≤ outer.upper

instance (outer : AddressSpan) (inner : Address) : Decidable (outer.has inner) := inferInstanceAs (Decidable (_ ∧ _))

def contains (outer inner : AddressSpan) : Prop :=
  outer.valid ∧ inner.valid ∧ outer.lower ≤ inner.lower ∧ inner.upper ≤ outer.upper

instance (outer inner : AddressSpan) : Decidable (outer.contains inner) := inferInstanceAs (Decidable (_ ∧ _))

/-- The intervals share a point, be it only an endpoint. -/
def intersects (lhs rhs : AddressSpan) : Prop :=
  lhs.valid ∧ rhs.valid ∧ lhs.lower ≤ rhs.upper ∧ rhs.lower ≤ lhs.upper

instance (lhs rhs : AddressSpan) : Decidable (lhs.intersects rhs) := inferInstanceAs (Decidable (_ ∧ _))

/-- `offset_map`: the address of `dst` as far from its start as `v` is from the start of `src`. -/
def offsetMap (v : Address) (src dst : AddressSpan) : Except Exception Address :=
  if src.lower ≤ v ∧ v ≤ src.upper then
    let ret := dst.lower + (v - src.lower)
    if dst.lower ≤ ret ∧ ret ≤ dst.upper then .ok ret
    else .error (.assertion "dst.lower() <= ret && ret <= dst.upper()")
  else .error (.assertion "src.lower() <= v && v <= src.upper()")

variable {a b c : AddressSpan} {v : Address}

theorem lt_valid (ha : a.valid) (hb : b.valid) :
    a.lt b ↔ a.lower < b.lower ∨ (a.lower = b.lower ∧ a.upper < b.upper) := by
  unfold lt
  by_cases he : a.lower = b.lower
  · simp [ha, hb, he]
  · simp [ha, hb, he]

theorem lt_empty (ha : ¬ a.valid) (hb : b.valid) : a.lt b := by simp [lt, ha, hb]

theorem not_lt_empty (hb : ¬ b.valid) : ¬ a.lt b := by
  unfold lt
  by_cases ha : a.valid <;> simp [ha, hb]

theorem intersects_comm : a.intersects b ↔ b.intersects a := by
  unfold intersects
  tauto

theorem intersects_of_has (ha : a.has v) (hb : b.has v) : a.intersects b :=
  ⟨ha.1, hb.1, BitVec.le_trans ha.2.1 hb.2.2, BitVec.le_trans hb.2.1 ha.2.2⟩

theorem has_of_contains (h : a.contains b) (hv : b.has v) : a.has v :=
  ⟨h.1, BitVec.le_trans h.2.2.1 hv.2.1, BitVec.le_trans hv.2.2 h.2.2.2⟩

/-- Not being greater is a total preorder, which is what a sort needs. -/
theorem not_lt_total : ¬ b.lt a ∨ ¬ a.lt b := by
  by_cases ha : a.valid
  · by_cases hb : b.valid
    · rw [lt_valid ha hb, lt_valid hb ha]
      simp only [BitVec.lt_def, ← BitVec.toNat_inj]
      omega
    · exact .inr (not_lt_empty hb)
  · exact .inl (not_lt_empty ha)

theorem not_lt_trans (hab : ¬ b.lt a) (hbc : ¬ c.lt b) : ¬ c.lt a := by
  by_cases ha : a.valid
  · by_cases hb : b.valid
    · by_cases hc : c.valid
      · rw [lt_valid hb ha] at hab
        rw [lt_valid hc hb] at hbc
        rw [lt_valid hc ha]
        simp only [BitVec.lt_def, ← BitVec.toNat_inj] at *
        omega
      · exact absurd (lt_empty hc hb) hbc
    · exact absurd (lt_empty hb ha) hab
  · exact not_lt_empty ha

end Pepp.AddressSpan
