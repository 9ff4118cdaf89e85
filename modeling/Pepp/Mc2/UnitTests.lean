import Pepp.Lib.Endian
import Pepp.Sim.Memory
import Pepp.Microcode.Line

/-!
# Unit tests of microcode

Tests of memory, registers and status bits are set up in front of a program and
checked behind it. Each processor has its own copy of the check, and the copies
compare the bytes of memory in opposite ways.
-/

namespace Pepp.Mc2

open Span Ucode

/-! ## The machine under test -/

/-- A memory target: the memory, or a bank of registers. -/
inductive Place where
  | memory | bankRegs | csrs
  deriving DecidableEq, Repr

def Place.span : Place → AddressSpan
  | .memory => fullSpan
  | .bankRegs => ⟨0, 31⟩
  | .csrs => ⟨0, 4⟩

/-- The bytes of each target. -/
abbrev Machine := Place → Nat → U8

namespace Machine

variable (self : Machine)

def target (place : Place) : Dense := ⟨place.span, self place⟩

def read (place : Place) (address : Address) (len : Nat) : Except Exception (List U8) :=
  (self.target place).read address len

def write (place : Place) (address : Address) (src : List U8) : Except Exception Machine := do
  let target ← (self.target place).write address src
  return Function.update self place target.data

end Machine

/-- `static_cast<u8>(reg)`. -/
def registerIndex : NamedRegisters → Address
  | .A => 0 | .X => 2 | .SP => 4 | .PC => 6 | .IR => 8 | .T1 => 11 | .T2 => 12 | .T3 => 14 | .T4 => 16 | .T5 => 18
  | .T6 => 20 | .M1 => 22 | .M2 => 24 | .M3 => 26 | .M4 => 28 | .M5 => 30 | .INVALID => 32

def csrIndex : Ucode.CSRs → Address
  | .N => 0 | .Z => 1 | .V => 2 | .C => 3 | .S => 4

def byteswap (value : U32) : U32 := BitVec.ofNat 32 (Endian.decode .big (Endian.leBytes 4 value.toNat))

/-- The first bytes of `regValue`, on a host that has the least significant byte first. -/
def registerBytes (value : U32) (size : Nat) : List U8 :=
  let regValue := byteswap value >>> (8 * (4 - size))
  (Endian.leBytes 4 regValue.toNat).take size

def memBytes (t : MemTest) : List U8 := [t.value.1, t.value.2].take t.size

/-! ## Set-up and check -/

def applyPrecondition (self : Machine) : Test → Except Exception Machine
  | .mem t => self.write .memory (t.address.setWidth 32) (memBytes t)
  | .register t => self.write .bankRegs (registerIndex t.reg) (registerBytes t.value t.reg.byteSize)
  | .csr t => self.write .csrs (csrIndex t.reg) [if t.value then 1 else 0]

def applyPreconditions (self : Machine) (tests : List Test) : Except Exception Machine :=
  tests.foldlM applyPrecondition self

/-- One test. The bytes of memory are compared by `agree`. -/
def testPostcondition (agree : U8 → U8 → Bool) (self : Machine) : Test → Except Exception Bool
  | .mem t => do
    let temp ← self.read .memory (t.address.setWidth 32) t.size
    return (temp.zip (memBytes t)).all fun p => agree p.1 p.2
  | .register t => do
    let temp ← self.read .bankRegs (registerIndex t.reg) t.reg.byteSize
    return temp == registerBytes t.value t.reg.byteSize
  | .csr t => do
    let temp ← self.read .csrs (csrIndex t.reg) 1
    return (temp.getD 0 0 != 0) == t.value

namespace CPUByteBus

def applyPreconditions : Machine → List Test → Except Exception Machine := Mc2.applyPreconditions

def testPostconditions (self : Machine) (tests : List Test) : Except Exception (List Bool) :=
  tests.mapM (testPostcondition (· == ·) self)

end CPUByteBus

namespace CPUWordBus

def applyPreconditions : Machine → List Test → Except Exception Machine := Mc2.applyPreconditions

def testPostconditions (self : Machine) (tests : List Test) : Except Exception (List Bool) :=
  tests.mapM (testPostcondition (· != ·) self)

end CPUWordBus

/-! ## What a test says -/

def Satisfied (self : Machine) : Test → Prop
  | .mem t => slice (self .memory) t.address.toNat t.size = memBytes t
  | .register t =>
    Endian.decode .big (slice (self .bankRegs) (registerIndex t.reg).toNat t.reg.byteSize) = t.value.toNat
  | .csr t => (self .csrs (csrIndex t.reg).toNat != 0) = t.value

instance (self : Machine) (t : Test) : Decidable (Satisfied self t) :=
  match t with
  | .mem _ => inferInstanceAs (Decidable (_ = _))
  | .register _ => inferInstanceAs (Decidable (_ = _))
  | .csr _ => inferInstanceAs (Decidable (_ = _))

/-- A test of memory is of one or two bytes, and the value of a register fits it. -/
def WellFormed : Test → Prop
  | .mem t => t.size = 1 ∨ t.size = 2
  | .register t => t.value.toNat < 256 ^ t.reg.byteSize
  | .csr _ => True

/-- The test is of bytes that there are. -/
def Readable : Test → Prop
  | .mem t => t.address.toNat + t.size ≤ 0x10000
  | .register t => t.reg ≠ .INVALID
  | .csr _ => True

def IsMem (t : Test) : Prop := ∃ m, t = .mem m

/-- Some byte of a memory test agrees with memory, and some does not. -/
def Split (self : Machine) : Test → Prop
  | .mem t => (∃ p ∈ (slice (self .memory) t.address.toNat t.size).zip (memBytes t), p.1 = p.2) ∧
      ∃ p ∈ (slice (self .memory) t.address.toNat t.size).zip (memBytes t), p.1 ≠ p.2
  | _ => True

/-- The verdicts are those of the tests, in order. -/
def Judges (testPostconditions : Machine → List Test → Except Exception (List Bool)) (self : Machine)
    (tests : List Test) : Prop :=
  testPostconditions self tests = .ok (tests.map fun t => decide (Satisfied self t))

/-- Tests that were set up are all reported to hold. -/
def Prepares (applyPreconditions : Machine → List Test → Except Exception Machine)
    (testPostconditions : Machine → List Test → Except Exception (List Bool)) (self : Machine)
    (tests : List Test) : Prop :=
  ∃ self', applyPreconditions self tests = .ok self' ∧ testPostconditions self' tests = .ok (tests.map fun _ => true)

/-! ## Bytes under a test -/

def place : Test → Place
  | .mem _ => .memory
  | .register _ => .bankRegs
  | .csr _ => .csrs

def address : Test → Address
  | .mem t => t.address.setWidth 32
  | .register t => registerIndex t.reg
  | .csr t => csrIndex t.reg

/-- The bytes a test sets up. -/
def image : Test → List U8
  | .mem t => memBytes t
  | .register t => registerBytes t.value t.reg.byteSize
  | .csr t => [if t.value then 1 else 0]

/-- The tests do not touch the same location. -/
def Apart (t u : Test) : Prop :=
  place t ≠ place u ∨ (address t).toNat + (image t).length ≤ (address u).toNat ∨
    (address u).toNat + (image u).length ≤ (address t).toNat

instance (t u : Test) : Decidable (Apart t u) := inferInstanceAs (Decidable (_ ∨ _))

variable {self self' : Machine} {t u : Test}

theorem byteSize_bounds (reg : NamedRegisters) : 0 < reg.byteSize ∧ reg.byteSize ≤ 4 := by
  cases reg <;> decide

@[simp] theorem length_registerBytes (value : U32) (reg : NamedRegisters) :
    (registerBytes value reg.byteSize).length = reg.byteSize := by
  rw [registerBytes, List.length_take, Endian.length_leBytes, Nat.min_eq_left (byteSize_bounds reg).2]

theorem length_memBytes {t : MemTest} (h : t.size = 1 ∨ t.size = 2) : (memBytes t).length = t.size := by
  rcases h with h | h <;> simp [memBytes, h]

theorem applyPrecondition_eq (self : Machine) (t : Test) :
    applyPrecondition self t = self.write (place t) (address t) (image t) := by
  cases t <;> rfl

theorem image_pos (h : WellFormed t) : 0 < (image t).length := by
  cases t with
  | mem t =>
    rw [image, length_memBytes h]
    rcases h with h | h <;> omega
  | register t =>
    rw [image, length_registerBytes]
    exact (byteSize_bounds t.reg).1
  | csr t => exact Nat.one_pos

theorem span_lower (place : Place) : place.span.lower = 0 := by
  cases place <;> rfl

theorem inBounds_iff (self : Machine) (place : Place) {address : Address} {len : Nat} (hl : 0 < len)
    (hn : address.toNat + len < 2 ^ 32) :
    (self.target place).inBounds address len ↔ address.toNat + len ≤ place.span.upper.toNat + 1 := by
  have h1 : (address + (BitVec.ofNat 32 len - 1)).toNat = address.toNat + (len - 1) := by
    have hone : (1 : BitVec 32).toNat = 1 := rfl
    rw [BitVec.toNat_add, BitVec.toNat_sub, BitVec.toNat_ofNat, hone]
    omega
  have hzero : (0 : Address).toNat = 0 := rfl
  change place.span.lower ≤ address ∧ address + (BitVec.ofNat 32 len - 1) ≤ place.span.upper ↔ _
  rw [span_lower, BitVec.le_def, BitVec.le_def, h1, hzero]
  omega

theorem offset_eq (self : Machine) (place : Place) (address : Address) :
    (self.target place).offset address = address.toNat := by
  change (address - place.span.lower).toNat = _
  rw [span_lower]
  exact congrArg BitVec.toNat (BitVec.sub_zero address)

theorem readable_iff (self : Machine) (h : WellFormed t) :
    Readable t ↔ (self.target (place t)).inBounds (address t) (image t).length := by
  have hpos := image_pos h
  cases t with
  | mem t =>
    have ht := t.address.isLt
    have hlen := length_memBytes h
    change 0 < (memBytes t).length at hpos
    have haddress : (t.address.setWidth 32).toNat = t.address.toNat := by
      rw [BitVec.toNat_setWidth]
      omega
    change _ ↔ (self.target .memory).inBounds (t.address.setWidth 32) (memBytes t).length
    rw [hlen] at hpos ⊢
    rw [inBounds_iff self .memory hpos (by rcases h with h | h <;> omega), haddress]
    rfl
  | register t =>
    change _ ↔ (self.target .bankRegs).inBounds (registerIndex t.reg) (registerBytes t.value t.reg.byteSize).length
    rw [length_registerBytes, inBounds_iff self .bankRegs (byteSize_bounds t.reg).1 (by cases t.reg <;> decide)]
    change t.reg ≠ .INVALID ↔ _
    cases t.reg <;> decide
  | csr t =>
    change True ↔ (self.target .csrs).inBounds (csrIndex t.reg) 1
    rw [inBounds_iff self .csrs Nat.one_pos (by cases t.reg <;> decide)]
    cases t.reg <;> decide

/-- The bytes of a register's value, most significant first. -/
theorem registerBytes_eq (value : U32) {size : Nat} (h : size ≤ 4) :
    registerBytes value size = Endian.encode .big size value.toNat := by
  have hlt : Endian.decode .big (Endian.leBytes 4 value.toNat) < 256 ^ 4 := by
    have hd := Endian.decode_lt .big (Endian.leBytes 4 value.toNat)
    rwa [Endian.length_leBytes] at hd
  have hswap : (byteswap value).toNat = Endian.decode .big (Endian.leBytes 4 value.toNat) := by
    rw [byteswap, BitVec.toNat_ofNat]
    exact Nat.mod_eq_of_lt hlt
  have hbytes : Endian.leBytes 4 (Endian.decode .big (Endian.leBytes 4 value.toNat)) =
      (Endian.leBytes 4 value.toNat).reverse := by
    have he := Endian.leBytes_ofLE 4 (Endian.leBytes 4 value.toNat).reverse
    rwa [List.take_of_length_le (by simp), List.length_reverse, Endian.length_leBytes, Nat.sub_self,
      List.replicate_zero, List.append_nil] at he
  calc registerBytes value size
      = (Endian.leBytes 4 ((byteswap value).toNat / 256 ^ (4 - size))).take size := by
        rw [registerBytes, BitVec.toNat_ushiftRight, Nat.shiftRight_eq_div_pow, Nat.pow_mul]
    _ = (Endian.leBytes (4 - size + size) (byteswap value).toNat).drop (4 - size) := by
        rw [Endian.take_leBytes h, Endian.drop_leBytes]
    _ = ((Endian.leBytes 4 value.toNat).reverse).drop (4 - size) := by
        rw [Nat.sub_add_cancel h, hswap, hbytes]
    _ = (Endian.leBytes size value.toNat).reverse := by
        rw [List.drop_reverse, Endian.length_leBytes, Nat.sub_sub_self h, Endian.take_leBytes h]

/-! ## Reading and writing a test -/

theorem read_eq (self : Machine) (h : WellFormed t) :
    (Readable t → self.read (place t) (address t) (image t).length =
        .ok (slice (self (place t)) (address t).toNat (image t).length)) ∧
      (¬ Readable t → self.read (place t) (address t) (image t).length = .error (.oobAccess (address t).toNat)) := by
  have hiff := readable_iff self h
  constructor
  · intro hr
    change (if _ then _ else _) = _
    rw [if_pos (hiff.mp hr), Dense.bytes, offset_eq]
    rfl
  · intro hr
    exact if_neg (hiff.not.mp hr)

theorem write_eq (self : Machine) (h : WellFormed t) :
    (Readable t → applyPrecondition self t =
        .ok (Function.update self (place t) (overwrite (self (place t)) (address t).toNat (image t)))) ∧
      (¬ Readable t → applyPrecondition self t = .error (.oobAccess (address t).toNat)) := by
  have hiff := readable_iff self h
  rw [applyPrecondition_eq, Machine.write, Dense.write]
  constructor
  · intro hr
    rw [if_pos (hiff.mp hr), offset_eq]
    rfl
  · intro hr
    rw [if_neg (hiff.not.mp hr)]
    rfl

/-- A test holds where its bytes are, up to the number that stands for a set status bit. -/
theorem satisfied_of_slice (h : WellFormed t)
    (hs : slice (self (place t)) (address t).toNat (image t).length = image t) : Satisfied self t := by
  cases t with
  | mem t =>
    change slice (self .memory) (t.address.setWidth 32).toNat (memBytes t).length = memBytes t at hs
    rw [length_memBytes h, BitVec.toNat_setWidth, Nat.mod_eq_of_lt (by have := t.address.isLt; omega)] at hs
    exact hs
  | register t =>
    change slice (self .bankRegs) (registerIndex t.reg).toNat (registerBytes t.value t.reg.byteSize).length =
      registerBytes t.value t.reg.byteSize at hs
    rw [length_registerBytes, registerBytes_eq _ (byteSize_bounds t.reg).2] at hs
    change Endian.decode .big (slice (self .bankRegs) _ _) = _
    rw [hs, Endian.decode_encode, Nat.mod_eq_of_lt h]
  | csr t =>
    change slice (self .csrs) (csrIndex t.reg).toNat 1 = [if t.value then 1 else 0] at hs
    rw [slice_one] at hs
    change (self .csrs (csrIndex t.reg).toNat != 0) = t.value
    rw [List.singleton_inj.mp hs]
    cases t.value <;> rfl

/-! ## One verdict -/

theorem all_beq_zip {xs ys : List U8} (h : xs.length = ys.length) :
    ((xs.zip ys).all fun p => p.1 == p.2) = decide (xs = ys) := by
  induction xs generalizing ys with
  | nil =>
    cases ys with
    | nil => rfl
    | cons y ys => exact absurd h (by simp)
  | cons x xs ih =>
    cases ys with
    | nil => exact absurd h (by simp)
    | cons y ys =>
      rw [List.zip_cons_cons, List.all_cons, ih (Nat.succ.inj h)]
      simp only [List.cons.injEq, Bool.decide_and]
      rfl

/-- Comparing byte by byte the other way is right just where bytes of both kinds occur. -/
theorem all_bne_zip {xs ys : List U8} (h : xs.length = ys.length) (hpos : 0 < xs.length) :
    ((xs.zip ys).all fun p => p.1 != p.2) = decide (xs = ys) ↔
      (∃ p ∈ xs.zip ys, p.1 = p.2) ∧ ∃ p ∈ xs.zip ys, p.1 ≠ p.2 := by
  have hsome : ∀ P : U8 × U8 → Bool, ((xs.zip ys).all P) = false ↔ ∃ p ∈ xs.zip ys, P p = false := by
    intro P
    rw [List.all_eq_false]
    simp only [Bool.not_eq_true]
  have hne : ((xs.zip ys).all fun p => p.1 != p.2) = false ↔ ∃ p ∈ xs.zip ys, p.1 = p.2 := by
    rw [hsome]
    simp only [bne_eq_false_iff_eq]
  have heq : decide (xs = ys) = false ↔ ∃ p ∈ xs.zip ys, p.1 ≠ p.2 := by
    rw [← all_beq_zip h, hsome]
    simp only [beq_eq_false_iff_ne]
  rw [← hne, ← heq]
  constructor
  · intro hboth
    by_cases hxy : xs = ys
    · -- a first byte that agrees makes the verdict false
      subst hxy
      obtain ⟨x, xs, rfl⟩ := List.exists_cons_of_length_pos hpos
      rw [List.zip_cons_cons, List.all_cons, bne_self_eq_false, Bool.false_and, decide_eq_true rfl] at hboth
      exact absurd hboth Bool.false_ne_true
    · rw [hboth, decide_eq_false hxy]
      exact ⟨rfl, rfl⟩
  · rintro ⟨h1, h2⟩
    rw [h1, h2]

variable {agree : U8 → U8 → Bool}

theorem testPostcondition_unreadable (h : WellFormed t) (hr : ¬ Readable t) :
    testPostcondition agree self t = .error (.oobAccess (address t).toNat) := by
  have hread := (read_eq self h).2 hr
  cases t with
  | mem t =>
    change self.read .memory (t.address.setWidth 32) (memBytes t).length = _ at hread
    rw [length_memBytes h] at hread
    rw [testPostcondition, hread]
    rfl
  | register t =>
    change self.read .bankRegs (registerIndex t.reg) (registerBytes t.value t.reg.byteSize).length = _ at hread
    rw [length_registerBytes] at hread
    rw [testPostcondition, hread]
    rfl
  | csr t => exact absurd trivial hr

theorem testPostcondition_mem {m : MemTest} (h : WellFormed (.mem m)) (hr : Readable (.mem m)) :
    testPostcondition agree self (.mem m) =
      .ok (((slice (self .memory) m.address.toNat m.size).zip (memBytes m)).all fun p => agree p.1 p.2) := by
  have hread : self.read .memory (m.address.setWidth 32) (memBytes m).length = .ok (slice (self .memory)
    (m.address.setWidth 32).toNat (memBytes m).length) := (read_eq _ h).1 hr
  rw [length_memBytes h, BitVec.toNat_setWidth, Nat.mod_eq_of_lt (by have := m.address.isLt; omega)] at hread
  rw [testPostcondition, hread]
  rfl

/-- The copies agree on registers and status bits. -/
theorem testPostcondition_of_not_isMem (h : WellFormed t) (hr : Readable t) (hm : ¬ IsMem t) :
    testPostcondition agree self t = .ok (decide (Satisfied self t)) := by
  have hread := (read_eq self h).1 hr
  cases t with
  | mem t => exact absurd ⟨t, rfl⟩ hm
  | register t =>
    change self.read .bankRegs (registerIndex t.reg) (registerBytes t.value t.reg.byteSize).length =
      .ok (slice (self .bankRegs) _ (registerBytes t.value t.reg.byteSize).length) at hread
    rw [length_registerBytes] at hread
    rw [testPostcondition, hread]
    change Except.ok (slice (self .bankRegs) (registerIndex t.reg).toNat t.reg.byteSize == _) = _
    rw [registerBytes_eq _ (byteSize_bounds t.reg).2]
    refine congrArg Except.ok ?_
    rw [Bool.eq_iff_iff, beq_iff_eq, decide_eq_true_iff]
    change _ ↔ Endian.decode .big (slice (self .bankRegs) (registerIndex t.reg).toNat t.reg.byteSize) = t.value.toNat
    constructor
    · intro hs
      rw [hs, Endian.decode_encode, Nat.mod_eq_of_lt h]
    · intro hs
      have hback := Endian.encode_decode .big (slice (self .bankRegs) (registerIndex t.reg).toNat t.reg.byteSize)
      rw [length_slice, hs] at hback
      exact hback.symm
  | csr t =>
    change self.read .csrs (csrIndex t.reg) 1 = .ok (slice (self .csrs) _ 1) at hread
    rw [testPostcondition, hread, slice_one]
    change Except.ok ((self .csrs (csrIndex t.reg).toNat != 0) == t.value) = _
    refine congrArg Except.ok ?_
    rw [Bool.eq_iff_iff, beq_iff_eq, decide_eq_true_iff]
    rfl

theorem byte_verdict (h : WellFormed t) (hr : Readable t) :
    testPostcondition (· == ·) self t = .ok (decide (Satisfied self t)) := by
  by_cases hm : IsMem t
  · obtain ⟨m, rfl⟩ := hm
    rw [testPostcondition_mem h hr, all_beq_zip (by rw [length_slice, length_memBytes h])]
    rfl
  · exact testPostcondition_of_not_isMem h hr hm

theorem word_verdict_iff (h : WellFormed t) (hr : Readable t) :
    testPostcondition (· != ·) self t = .ok (decide (Satisfied self t)) ↔ Split self t := by
  cases t with
  | mem m =>
    have hlen : (slice (self .memory) m.address.toNat m.size).length = (memBytes m).length := by
      rw [length_slice, length_memBytes h]
    have hpos : 0 < (slice (self .memory) m.address.toNat m.size).length := by
      rw [hlen]
      exact image_pos h
    rw [testPostcondition_mem h hr, Except.ok.injEq]
    exact all_bne_zip hlen hpos
  | register t | csr t => exact iff_of_true (testPostcondition_of_not_isMem h hr (by rintro ⟨m, hm⟩; cases hm)) trivial

/-- A memory test that holds is reported to fail. -/
theorem word_verdict_satisfied {m : MemTest} (h : WellFormed (.mem m)) (hr : Readable (.mem m))
    (hs : Satisfied self (.mem m)) : testPostcondition (· != ·) self (.mem m) = .ok false := by
  have hs' : slice (self .memory) m.address.toNat m.size = memBytes m := hs
  have hpos : 0 < (memBytes m).length := image_pos h
  rw [testPostcondition_mem h hr, hs']
  obtain ⟨x, xs, hx⟩ := List.exists_cons_of_length_pos hpos
  rw [hx, List.zip_cons_cons, List.all_cons, bne_self_eq_false, Bool.false_and]

/-! ## Lists of tests -/

variable {tests : List Test}

theorem mapM_ok_iff {α β ε : Type} {f : α → Except ε β} {g : α → β} {l : List α} :
    l.mapM f = .ok (l.map g) ↔ ∀ x ∈ l, f x = .ok (g x) := by
  induction l with
  | nil => exact iff_of_true rfl (List.forall_mem_nil _)
  | cons x l ih =>
    rw [List.mapM_cons, List.forall_mem_cons, ← ih, List.map_cons]
    cases f x with
    | error e =>
      refine iff_of_false (fun h => by cases h) ?_
      rintro ⟨h, -⟩
      cases h
    | ok y =>
      change (l.mapM f >>= fun ys => Except.ok (y :: ys)) = _ ↔ _
      cases l.mapM f with
      | error e =>
        refine iff_of_false (fun h => by cases h) ?_
        rintro ⟨-, h⟩
        cases h
      | ok ys =>
        change Except.ok (y :: ys) = .ok (g x :: l.map g) ↔ _
        simp only [Except.ok.injEq, List.cons.injEq]

section

variable (hw : ∀ t ∈ tests, WellFormed t)
include hw

/-- A check returns only if every test can be read. -/
theorem readable_of_returns {out : List Bool} (h : tests.mapM (testPostcondition agree self) = .ok out) :
    ∀ t ∈ tests, Readable t := by
  induction tests generalizing out with
  | nil => exact List.forall_mem_nil _
  | cons t tests ih =>
    obtain ⟨ht, hrest⟩ := List.forall_mem_cons.mp hw
    rw [List.mapM_cons] at h
    by_cases hr : Readable t
    · cases htest : testPostcondition agree self t with
      | error e =>
        rw [htest] at h
        cases h
      | ok b =>
        rw [htest] at h
        change (tests.mapM (testPostcondition agree self) >>= fun bs => Except.ok (b :: bs)) = _ at h
        cases hmap : tests.mapM (testPostcondition agree self) with
        | error e =>
          rw [hmap] at h
          cases h
        | ok bs => exact List.forall_mem_cons.mpr ⟨hr, ih hrest hmap⟩
    · rw [testPostcondition_unreadable ht hr] at h
      cases h

theorem byte_judges_iff : Judges CPUByteBus.testPostconditions self tests ↔ ∀ t ∈ tests, Readable t := by
  constructor
  · exact readable_of_returns hw
  · intro hr
    exact (mapM_ok_iff).mpr fun t ht => byte_verdict (hw t ht) (hr t ht)

theorem word_judges_iff : Judges CPUWordBus.testPostconditions self tests ↔ ∀ t ∈ tests, Readable t ∧ Split self t := by
  constructor
  · intro h t ht
    have hr := readable_of_returns hw h t ht
    exact ⟨hr, (word_verdict_iff (hw t ht) hr).mp (mapM_ok_iff.mp h t ht)⟩
  · intro h
    exact (mapM_ok_iff).mpr fun t ht => (word_verdict_iff (hw t ht) (h t ht).1).mpr (h t ht).2

/-- The processors give the same verdicts just where those of the second are right. -/
theorem agree_iff :
    (∃ out, CPUByteBus.testPostconditions self tests = .ok out ∧ CPUWordBus.testPostconditions self tests = .ok out) ↔
      ∀ t ∈ tests, Readable t ∧ Split self t := by
  rw [← word_judges_iff hw]
  constructor
  · rintro ⟨out, hbyte, hword⟩
    have hjudges : CPUByteBus.testPostconditions self tests = .ok _ :=
      (byte_judges_iff hw).mpr (readable_of_returns hw hbyte)
    rw [hbyte] at hjudges
    exact hword.trans hjudges
  · intro hword
    exact ⟨_, (byte_judges_iff hw).mpr (readable_of_returns hw hword), hword⟩

end

/-! ## Set-up -/

theorem slice_applyPrecondition (hu : WellFormed u) (hr : Readable u) (hapart : Apart t u)
    (h : applyPrecondition self u = .ok self') :
    slice (self' (place t)) (address t).toNat (image t).length =
      slice (self (place t)) (address t).toNat (image t).length := by
  rw [(write_eq _ hu).1 hr] at h
  cases h
  by_cases hp : place t = place u
  · rw [hp, Function.update_self]
    exact slice_overwrite_disjoint _ _ _ _ _ (hapart.resolve_left (· hp))
  · rw [Function.update_of_ne hp]

theorem slice_applied (hu : WellFormed t) (hr : Readable t) (h : applyPrecondition self t = .ok self') :
    slice (self' (place t)) (address t).toNat (image t).length = image t := by
  rw [(write_eq _ hu).1 hr] at h
  cases h
  rw [Function.update_self]
  exact slice_overwrite _ _ _

/-- Tests elsewhere leave the bytes of a test alone. -/
theorem slice_applyPreconditions (hw : ∀ u ∈ tests, WellFormed u) (hr : ∀ u ∈ tests, Readable u)
    (hapart : ∀ u ∈ tests, Apart t u) (h : applyPreconditions self tests = .ok self') :
    slice (self' (place t)) (address t).toNat (image t).length =
      slice (self (place t)) (address t).toNat (image t).length := by
  induction tests generalizing self with
  | nil =>
    cases h
    rfl
  | cons u tests ih =>
    obtain ⟨hwu, hwrest⟩ := List.forall_mem_cons.mp hw
    obtain ⟨hru, hrrest⟩ := List.forall_mem_cons.mp hr
    obtain ⟨hau, harest⟩ := List.forall_mem_cons.mp hapart
    have hfirst := (write_eq self hwu).1 hru
    rw [applyPreconditions, List.foldlM_cons, hfirst] at h
    rw [ih hwrest hrrest harest h]
    exact slice_applyPrecondition hwu hru hau hfirst

theorem applyPreconditions_ok_iff (self : Machine) (hw : ∀ t ∈ tests, WellFormed t) :
    (∃ self', applyPreconditions self tests = .ok self') ↔ ∀ t ∈ tests, Readable t := by
  induction tests generalizing self with
  | nil => exact iff_of_true ⟨self, rfl⟩ (List.forall_mem_nil _)
  | cons t tests ih =>
    obtain ⟨ht, hrest⟩ := List.forall_mem_cons.mp hw
    rw [applyPreconditions, List.foldlM_cons, List.forall_mem_cons]
    by_cases hr : Readable t
    · rw [(write_eq _ ht).1 hr, and_iff_right hr]
      exact ih _ hrest
    · rw [(write_eq _ ht).2 hr]
      refine iff_of_false ?_ (fun h => hr h.1)
      rintro ⟨self', h⟩
      cases h

theorem satisfied_of_applied (hw : ∀ t ∈ tests, WellFormed t) (hr : ∀ t ∈ tests, Readable t)
    (hapart : tests.Pairwise Apart) (h : applyPreconditions self tests = .ok self') :
    ∀ t ∈ tests, Satisfied self' t := by
  induction tests generalizing self with
  | nil => exact List.forall_mem_nil _
  | cons t tests ih =>
    obtain ⟨hwt, hwrest⟩ := List.forall_mem_cons.mp hw
    obtain ⟨hrt, hrrest⟩ := List.forall_mem_cons.mp hr
    obtain ⟨hat, harest⟩ := List.pairwise_cons.mp hapart
    have hfirst := (write_eq self hwt).1 hrt
    rw [applyPreconditions, List.foldlM_cons, hfirst] at h
    refine List.forall_mem_cons.mpr ⟨satisfied_of_slice hwt ?_, ih hwrest hrrest harest h⟩
    rw [slice_applyPreconditions hwrest hrrest hat h]
    exact slice_applied hwt hrt hfirst

theorem byte_prepares_iff (hw : ∀ t ∈ tests, WellFormed t) (hapart : tests.Pairwise Apart) :
    Prepares CPUByteBus.applyPreconditions CPUByteBus.testPostconditions self tests ↔ ∀ t ∈ tests, Readable t := by
  constructor
  · rintro ⟨self', happly, -⟩
    exact (applyPreconditions_ok_iff _ hw).mp ⟨self', happly⟩
  · intro hr
    obtain ⟨self', happly⟩ := (applyPreconditions_ok_iff self hw).mpr hr
    have hs := satisfied_of_applied hw hr hapart happly
    refine ⟨self', happly, (mapM_ok_iff).mpr fun t ht => ?_⟩
    rw [byte_verdict (hw t ht) (hr t ht), decide_eq_true (hs t ht)]

theorem word_prepares_iff (hw : ∀ t ∈ tests, WellFormed t) (hapart : tests.Pairwise Apart) :
    Prepares CPUWordBus.applyPreconditions CPUWordBus.testPostconditions self tests ↔
      ∀ t ∈ tests, Readable t ∧ ¬ IsMem t := by
  constructor
  · rintro ⟨self', happly, htest⟩ t ht
    have hr := (applyPreconditions_ok_iff self hw).mp ⟨self', happly⟩
    have hs := satisfied_of_applied hw hr hapart happly
    refine ⟨hr t ht, ?_⟩
    rintro ⟨m, rfl⟩
    have htrue := (mapM_ok_iff).mp htest _ ht
    rw [word_verdict_satisfied (hw _ ht) (hr _ ht) (hs _ ht)] at htrue
    cases htrue
  · intro h
    have hr : ∀ t ∈ tests, Readable t := fun t ht => (h t ht).1
    obtain ⟨self', happly⟩ := (applyPreconditions_ok_iff self hw).mpr hr
    have hs := satisfied_of_applied hw hr hapart happly
    refine ⟨self', happly, (mapM_ok_iff).mpr fun t ht => ?_⟩
    rw [testPostcondition_of_not_isMem (hw t ht) (hr t ht) (h t ht).2, decide_eq_true (hs t ht)]

/-- What the verdicts of the two processors say of the state, of each other and of what was just set up. -/
theorem verdicts_iff (self : Machine) (tests : List Test) (hw : ∀ t ∈ tests, WellFormed t) :
    (Judges CPUByteBus.testPostconditions self tests ↔ ∀ t ∈ tests, Readable t) ∧
      (Judges CPUWordBus.testPostconditions self tests ↔ ∀ t ∈ tests, Readable t ∧ Split self t) ∧
      ((∃ out, CPUByteBus.testPostconditions self tests = .ok out ∧
        CPUWordBus.testPostconditions self tests = .ok out) ↔ ∀ t ∈ tests, Readable t ∧ Split self t) ∧
      (tests.Pairwise Apart →
        (Prepares CPUByteBus.applyPreconditions CPUByteBus.testPostconditions self tests ↔ ∀ t ∈ tests, Readable t) ∧
        (Prepares CPUWordBus.applyPreconditions CPUWordBus.testPostconditions self tests ↔
          ∀ t ∈ tests, Readable t ∧ ¬ IsMem t)) :=
  ⟨byte_judges_iff hw, word_judges_iff hw, agree_iff hw,
    fun hapart => ⟨byte_prepares_iff hw hapart, word_prepares_iff hw hapart⟩⟩

/-- Memory 0x0010 is 5 and so are both bytes of A, and no status bit is set. -/
def fives : Machine := fun place i =>
  if place = .memory ∧ i = 0x10 ∨ place = .bankRegs ∧ i < 2 then 5 else 0

def fivesTests : List Test :=
  [.mem (.ofByte 0x10 5), .register ⟨.A, 0x0505⟩, .csr ⟨.C, false⟩]

theorem verdicts_iff_fives : (∀ t ∈ fivesTests, WellFormed t) ∧
    (Judges CPUWordBus.testPostconditions fives fivesTests ↔ ∀ t ∈ fivesTests, Readable t ∧ Split fives t) ∧
    (Prepares CPUWordBus.applyPreconditions CPUWordBus.testPostconditions fives fivesTests ↔
      ∀ t ∈ fivesTests, Readable t ∧ ¬ IsMem t) := by
  have hw : ∀ t ∈ fivesTests, WellFormed t := by simp [fivesTests, WellFormed, MemTest.ofByte, NamedRegisters.byteSize]
  have h := verdicts_iff fives fivesTests hw
  exact ⟨hw, h.2.1, (h.2.2.2 (by decide)).2⟩

/-- The second processor says that a satisfied test of memory fails. -/
theorem word_not_judges : (∀ t ∈ fivesTests, WellFormed t) ∧ (∀ t ∈ fivesTests, Satisfied fives t) ∧
    ¬ Judges CPUWordBus.testPostconditions fives fivesTests := by
  refine ⟨by simp [fivesTests, WellFormed, MemTest.ofByte, NamedRegisters.byteSize], by decide, ?_⟩
  intro h
  have hverdict := mapM_ok_iff.mp h (.mem (.ofByte 0x10 5)) (by decide)
  exact absurd hverdict (by decide)

end Pepp.Mc2
