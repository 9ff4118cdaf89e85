import Pepp.Lib.Runs
import Pepp.Sim.Targets

/-!
# Devices and their bytes

A device that takes an access does with it what it does with its bytes one by
one. Some bytes are constant: the half of a register that has no storage, and a
memory-mapped register without a direction. They read as they are, and writes
to them are lost.
-/

namespace Pepp.Bts

open Span

/-- Offsets that differ above the low half only have the same cells. -/
theorem pageAddr_congr {x y : U64} (h : x.toNat % 2 ^ 32 = y.toNat % 2 ^ 32) : pageAddr x = pageAddr y := by
  apply BitVec.eq_of_toNat_eq
  rw [pageAddr_eq, pageAddr_eq, h]

theorem pageOffset_congr {x y : U64} (h : x.toNat % 2 ^ 32 = y.toNat % 2 ^ 32) : pageOffset x = pageOffset y := by
  rw [pageOffset_eq, pageOffset_eq]
  simp only [SPARSE_PAGE_SIZE, DEFAULT_PAGE_SIZE]
  omega

namespace PagedPool

variable {self pool : PagedPool} {offset : U64} {fuel : Nat} {src : List U8}

theorem cell_congr {x y : U64} (h : x.toNat % 2 ^ 32 = y.toNat % 2 ^ 32) : self.cell x = self.cell y := by
  rw [cell, cell, pageAddr_congr h, pageOffset_congr h]

theorem writeLoop_congr {x y : U64} (h : x.toNat % 2 ^ 32 = y.toNat % 2 ^ 32) :
    writeLoop fuel x src pool = writeLoop fuel y src pool := by
  induction fuel generalizing x y src pool with
  | zero => cases src <;> rfl
  | succ fuel ih =>
    cases src with
    | nil => rfl
    | cons b src =>
      have hchunk : chunk x (src.length + 1) = chunk y (src.length + 1) := by rw [chunk, chunk, pageOffset_congr h]
      rw [writeLoop, writeLoop, hchunk, writeChunk, writeChunk, pageAddr_congr h, pageOffset_congr h]
      refine ih ?_
      simp only [BitVec.toNat_add, BitVec.toNat_ofNat]
      omega

/-- More fuel than bytes is not used. -/
theorem writeLoop_fuel (hfuel : src.length ≤ fuel) (hsrc : src.length < 2 ^ 32) :
    writeLoop (fuel + 1) offset src pool = writeLoop fuel offset src pool := by
  induction fuel generalizing offset src pool with
  | zero =>
    obtain rfl : src = [] := List.length_eq_zero_iff.mp (Nat.le_zero.mp hfuel)
    rfl
  | succ fuel ih =>
    cases src with
    | nil => rfl
    | cons b src =>
      rw [List.length_cons] at hfuel hsrc
      have hpos : 0 < chunk offset (src.length + 1) := chunk_pos offset (by omega)
      rw [writeLoop, writeLoop]
      exact ih (by rw [List.length_drop, List.length_cons]; omega) (by rw [List.length_drop, List.length_cons]; omega)

theorem setPage_setPage (addr : U64) (page page' : Nat → U8) :
    (self.setPage addr page).setPage addr page' = self.setPage addr page' := by
  simp only [setPage, List.map_map]
  congr 1
  apply List.map_congr_left
  intro entry _
  by_cases he : entry.1 = addr <;> simp [he]

/-- A page is written in two rounds as in one. -/
theorem writeChunk_append {xs ys : List U8} (hys : ys ≠ [])
    (h : pageOffset offset + (xs ++ ys).length ≤ SPARSE_PAGE_SIZE) :
    self.writeChunk offset (xs ++ ys) =
      (self.writeChunk offset xs).writeChunk (offset + BitVec.ofNat 64 xs.length) ys := by
  have hlen := List.length_pos_of_ne_nil hys
  rw [List.length_append] at h
  have hpage := self.pageFor_spec (pageAddr offset)
  have hplace : pageOffset offset + xs.length < SPARSE_PAGE_SIZE := by omega
  rw [writeChunk, writeChunk, writeChunk, pageAddr_add offset hplace, pageOffset_add offset hplace]
  generalize self.pageFor (pageAddr offset) = found at hpage ⊢
  obtain ⟨page, pool⟩ := found
  dsimp only at hpage ⊢
  rw [pageFor, find_setPage_self hpage.2.1]
  dsimp only
  rw [setPage_setPage, overwrite_next]

/-- The first byte of a write in a round of its own. -/
theorem writeLoop_cons {b : U8} (hfuel : src.length ≤ fuel) (hsrc : src.length + 1 < 2 ^ 32) :
    writeLoop (fuel + 1) offset (b :: src) pool =
      writeLoop fuel (offset + BitVec.ofNat 64 1) src (pool.writeChunk offset [b]) := by
  have hpos : 0 < chunk offset (src.length + 1) := chunk_pos offset (by omega)
  have hpage := chunk_in_page offset (src.length + 1)
  rw [writeLoop]
  by_cases hone : chunk offset (src.length + 1) = 1
  · rw [hone]
    rfl
  -- the round has more bytes, and the next offset is in its page
  have hplace : pageOffset offset + 1 < SPARSE_PAGE_SIZE := by omega
  obtain ⟨k, hk⟩ : ∃ k, chunk offset (src.length + 1) = k + 2 := ⟨_, (Nat.sub_add_cancel (by omega)).symm⟩
  have hle := chunk_le offset (src.length + 1)
  cases src with
  | nil =>
    rw [List.length_nil] at hle hone hpos
    omega
  | cons c src =>
    rw [List.length_cons] at *
    have hnext : chunk (offset + BitVec.ofNat 64 1) (src.length + 1) = k + 1 := by
      rw [chunk] at hk ⊢
      rw [pageOffset_add offset hplace]
      omega
    obtain ⟨fuel, rfl⟩ : ∃ fuel', fuel = fuel' + 1 := ⟨fuel - 1, by omega⟩
    have hsplit : (b :: c :: src).take (k + 2) = [b] ++ (c :: src).take (k + 1) := rfl
    have htake : ((c :: src).take (k + 1)).length = k + 1 := List.length_take_of_le (by rw [List.length_cons]; omega)
    rw [hk, hsplit, writeChunk_append (by simp) (by rw [List.length_append, htake, List.length_singleton]; omega), writeLoop,
      hnext, writeLoop_fuel (by simp; omega) (by simp; omega), BitVec.add_assoc, ← BitVec.ofNat_add, Nat.add_comm 1 (k + 1)]
    rfl

end PagedPool

end Pepp.Bts

/-! ## Memories -/

namespace Pepp

open Isa Span

theorem AddressSpan.sizeInclusive_le (span : AddressSpan) : span.sizeInclusive ≤ 2 ^ 32 := by
  have := span.upper.isLt
  unfold sizeInclusive size
  split
  · exact Nat.zero_le _
  · simp only [Bool.false_eq_true, if_false]
    omega

theorem toNat_add_ofNat {address : Address} {n : Nat} (h : address.toNat + n < 2 ^ 32) :
    (address + BitVec.ofNat 32 n).toNat = address.toNat + n := by
  rw [BitVec.toNat_add, BitVec.toNat_ofNat]
  omega

theorem add_ofNat_succ (address : Address) (n : Nat) :
    address + 1 + BitVec.ofNat 32 n = address + BitVec.ofNat 32 (n + 1) := by
  rw [BitVec.add_assoc, Nat.add_comm n 1, BitVec.ofNat_add]
  rfl

/-- `n` addresses in a row. -/
def addresses (address : Address) (n : Nat) : List Address := (List.range n).map fun i => address + BitVec.ofNat 32 i

theorem addresses_succ (address : Address) (n : Nat) : addresses address (n + 1) = address :: addresses (address + 1) n := by
  rw [addresses, List.range_succ_eq_map, List.map_cons, List.map_map, BitVec.add_zero]
  exact congrArg _ (List.map_congr_left fun i _ => (add_ofNat_succ address i).symm)

@[simp] theorem length_addresses (address : Address) (n : Nat) : (addresses address n).length = n := by
  rw [addresses, List.length_map, List.length_range]

@[simp] theorem addresses_one (address : Address) : addresses address 1 = [address] := by
  rw [addresses_succ]
  rfl

/-- Bytes are put one by one. -/
def putEach {σ : Type} (put : σ → Address → U8 → σ) : σ → Address → List U8 → σ
  | self, _, [] => self
  | self, address, b :: src => putEach put (put self address b) (address + 1) src

theorem add_sub_right (address lower : Address) (x : U32) : address + x - lower = address - lower + x := by
  rw [BitVec.sub_eq_add_neg, BitVec.sub_eq_add_neg, BitVec.add_assoc, BitVec.add_comm x, ← BitVec.add_assoc]

namespace RamDevice

variable {self : RamDevice} {address : Address}

/-- What a memory that takes a byte has at its address. -/
def peek (self : RamDevice) (address : Address) : U8 := self.byte ((address - self.span.lower).setWidth 64)

def put (self : RamDevice) (address : Address) (b : U8) : RamDevice :=
  match self with
  | dense ram => dense { ram with data := overwrite ram.data (ram.offset address) [b] }
  | sparse span pool => sparse span (pool.writeChunk ((address - span.lower).setWidth 64) [b])

theorem Guarded.takes {step : RamDevice → Address → List U8 → Except Fault (RamDevice × List U8)} (hg : Guarded step)
    {piece : List U8} {r : RamDevice × List U8} (h : step self address piece = .ok r) :
    self.Takes address piece.length := by
  by_contra hnot
  by_cases hin : self.span.inBounds address piece.length
  · obtain ⟨f, hf, -⟩ := hg.undefined self address piece hin hnot
    cases hf.symm.trans h
  · cases (hg.refused self address piece hin).symm.trans h

theorem read_eq {dest : List U8} (h : self.Takes address dest.length) :
    self.read address dest = .ok (self, (addresses address dest.length).map self.peek) := by
  rw [addresses, List.map_map]
  cases self with
  | dense ram =>
    have hle : ram.offset address + dest.length ≤ ram.span.sizeInclusive := h.2
    have hsize := ram.span.sizeInclusive_le
    rw [read, if_pos h.1, if_neg (Nat.not_lt.mpr hle)]
    congr 2
    apply List.map_congr_left
    intro i hi
    have hi := List.mem_range.mp hi
    have hoff : ((address + BitVec.ofNat 32 i - ram.span.lower).setWidth 64 : U64).toNat = ram.offset address + i := by
      rw [BitVec.toNat_setWidth_of_le (by decide), add_sub_right, Dense.offset]
      exact toNat_add_ofNat (by rw [Dense.offset] at hle; omega)
    exact congrArg ram.data hoff.symm
  | sparse span pool =>
    rw [read, if_pos h.1, Bts.PagedPool.read_eq _ h.2]
    dsimp only
    congr 2
    apply List.map_congr_left
    intro i _
    apply Bts.PagedPool.cell_congr
    change _ = ((address + BitVec.ofNat 32 i - span.lower).setWidth 64 : U64).toNat % 2 ^ 32
    rw [add_sub_right]
    simp only [BitVec.toNat_add, BitVec.toNat_setWidth, BitVec.toNat_ofNat]
    omega

theorem putEach_dense {ram : Dense} {src : List U8} (h : ram.offset address + src.length ≤ 2 ^ 32) :
    putEach put (dense ram) address src = dense { ram with data := overwrite ram.data (ram.offset address) src } := by
  induction src generalizing ram address with
  | nil => rw [putEach, overwrite_nil]
  | cons b src ih =>
    rw [List.length_cons] at h
    cases src with
    | nil => rfl
    | cons c src =>
      rw [List.length_cons] at h
      have hnext : ({ ram with data := overwrite ram.data (ram.offset address) [b] } : Dense).offset (address + 1) =
          ram.offset address + 1 := by
        rw [Dense.offset] at h
        change (address + 1 - ram.span.lower).toNat = (address - ram.span.lower).toNat + 1
        rw [add_sub_right]
        exact toNat_add_ofNat (n := 1) (by omega)
      rw [putEach, put, ih (by rw [hnext, List.length_cons]; omega), hnext,
        overwrite_cons ram.data (ram.offset address) b (c :: src)]

theorem putEach_sparse {span : AddressSpan} {pool : Bts.PagedPool} {src : List U8} (h : src.length < 2 ^ 32) :
    ∃ pool', pool.write ((address - span.lower).setWidth 64) src = some pool' ∧
      putEach put (sparse span pool) address src = sparse span pool' := by
  induction src generalizing pool address with
  | nil => exact ⟨pool, rfl, rfl⟩
  | cons b src ih =>
    rw [List.length_cons] at h
    obtain ⟨pool', hpool, heach⟩ := @ih (address + 1) (pool.writeChunk ((address - span.lower).setWidth 64) [b]) (by omega)
    refine ⟨pool', ?_, heach⟩
    rw [← hpool, Bts.PagedPool.write, List.length_cons, Bts.PagedPool.writeLoop_cons (Nat.le_refl _) h]
    apply Bts.PagedPool.writeLoop_congr
    have h1 : (1 : U32).toNat = 1 := rfl
    rw [add_sub_right]
    simp only [BitVec.toNat_add, BitVec.toNat_setWidth, BitVec.toNat_ofNat]
    omega

theorem write_eq {src : List U8} (h : self.Takes address src.length) :
    self.write address src = .ok (putEach put self address src, src) := by
  cases self with
  | dense ram =>
    have hle : ram.offset address + src.length ≤ ram.span.sizeInclusive := h.2
    rw [write, if_pos h.1, if_neg (Nat.not_lt.mpr hle), putEach_dense (hle.trans ram.span.sizeInclusive_le)]
  | sparse span pool =>
    obtain ⟨pool', hpool, heach⟩ := @putEach_sparse address span pool _ h.2
    rw [write, if_pos h.1, hpool, heach]

end RamDevice

/-! ## Registers -/

namespace PepRegisterBank

variable {self : PepRegisterBank} {at_ : Address} {b : U8}

/-- No register has the byte: its slot is behind the last register, or it is the first byte of `IS`. -/
def Lost (at_ : Address) : Prop := slotAt at_ = .INVALID ∨ slotAt at_ = .IS ∧ isHighByte at_

instance (at_ : Address) : Decidable (Lost at_) := inferInstanceAs (Decidable (_ ∨ _))

def put (self : PepRegisterBank) (at_ : Address) (b : U8) : PepRegisterBank :=
  self.write (merged at_ (self.read (slotAt at_)) b) (slotAt at_)

theorem loByte_merged (value : U16) : loByte (merged at_ value b) = if isHighByte at_ then loByte value else b := by
  unfold merged
  split
  · apply BitVec.eq_of_getLsbD_eq
    intro i hi
    have hmask := (by decide : ∀ (i : Nat) (hi : i < 8), (0xFF : U8)[i] = true) i hi
    simpa [loByte, hi] using fun _ => hmask
  · apply BitVec.eq_of_getLsbD_eq
    intro i hi
    simp [loByte, hi]

/-- What is collected for a register is stored at once or byte by byte. -/
theorem write_merged (value : U16) (slot : Register) :
    (self.write value slot).write (merged at_ ((self.write value slot).read slot) b) slot =
      self.write (merged at_ value b) slot := by
  cases slot with
  | IS =>
    have hlo : loByte ((loByte value).setWidth 16) = loByte value := by simp [loByte]
    simp only [write, read, loByte_merged, hlo]
  | _ => rfl

theorem writeFrom_eq {slot : Register} {value : U16} {src : List U8} :
    self.writeFrom at_ slot value src = putEach put (self.write value slot) at_ src := by
  induction src generalizing self at_ slot value with
  | nil => rfl
  | cons b src ih =>
    rw [writeFrom, putEach, put]
    split
    case isTrue hslot => rw [ih, hslot, write_merged]
    case isFalse => rw [ih]

theorem writeBytes_eq {src : List U8} : self.writeBytes at_ src = putEach put self at_ src := by
  cases src with
  | nil => rfl
  | cons b src =>
    rw [writeBytes, writeFrom_eq]
    rfl

theorem put_lost (h : Lost at_) : self.put at_ b = self := by
  rw [put]
  obtain hslot | ⟨hslot, hhigh⟩ := h
  · rw [hslot]
    rfl
  · have hlo : loByte (self.is.setWidth 16) = self.is := by simp [loByte]
    rw [hslot]
    simp only [write, read, loByte_merged, if_pos hhigh, hlo]

theorem readBytes_eq (n : Nat) : self.readBytes at_ n = (addresses at_ n).map fun at_ => self.byteAt at_.toNat := by
  rw [readBytes, addresses, List.map_map]
  rfl

theorem byteAt_lost (h : Lost at_) : self.byteAt at_.toNat = 0 := by
  rw [byteAt, show slotOf at_.toNat = slotAt at_ from rfl]
  obtain hslot | ⟨hslot, hhigh⟩ := h
  · rw [hslot]
    split <;> simp [read, hiByte, loByte]
  · rw [hslot, if_pos (by simpa [isHighByte] using hhigh), read, hiByte]
    apply BitVec.eq_of_getLsbD_eq
    intro i hi
    simp [hi]

/-- Where an access within the bank leaves it around the end of the address space, there are no registers. -/
theorem lt_of_kept {address : Address} {n : Nat} (hin : span.inBounds address n) (hn : n ≤ 12)
    (hat : at_ ∈ addresses address n) (hkept : ¬ Lost at_) : at_.toNat < 12 := by
  obtain ⟨i, hi, rfl⟩ := List.mem_map.mp hat
  have hi := List.mem_range.mp hi
  by_contra hge
  have hlast : (address + (BitVec.ofNat 32 n - 1)).toNat ≤ 11 := hin.2
  have h1 : (1 : U32).toNat = 1 := rfl
  have hup : 2 ^ 32 - 12 < (address + BitVec.ofNat 32 i).toNat := by
    simp only [BitVec.toNat_add, BitVec.toNat_sub, BitVec.toNat_ofNat] at hlast hge ⊢
    omega
  have hslot : ∀ v : U8, 5 < v.toNat → Register.ofU8 v = .INVALID := by
    intro v hv
    unfold Register.ofU8
    split <;> first | rfl | omega
  refine hkept (.inl (hslot _ ?_))
  have := (address + BitVec.ofNat 32 i).isLt
  rw [BitVec.toNat_ofNat]
  omega

end PepRegisterBank

/-! ## Devices -/

namespace Device

variable {self device device' : Device} {address : Address} {op : Operation} {b v : U8}

/-- The device has all bytes of an access, which passes its check. -/
def Takes : Device → Address → Nat → Prop
  | ram memory, address, n => memory.Takes address n
  | self, address, n => self.span.inBounds address n

/-- What a byte always reads as. -/
def constant : Device → Address → Option U8
  | fifo register, _ => if register.directionInput || register.directionOutput then none else some register.fill
  | registers _, at_ => if PepRegisterBank.Lost at_ then some 0 else none
  | _, _ => none

/-- A device of the same kind and settings, whatever it holds. -/
inductive Alike : Device → Device → Prop
  | dense (ram : Dense) (data : Nat → U8) : Alike (.ram (.dense ram)) (.ram (.dense { ram with data := data }))
  | sparse (span : AddressSpan) (pool pool' : Bts.PagedPool) : Alike (.ram (.sparse span pool)) (.ram (.sparse span pool'))
  | fifo (register : FifoRegister) (input output : Fifo) (inputIt : Nat) : Alike (.fifo register)
    (.fifo { register with input := input, output := output, inputIt := inputIt })
  | registers (bank bank' : PepRegisterBank) : Alike (.registers bank) (.registers bank')
  | csrs (nzvc nzvc' : U8) : Alike (.csrs nzvc) (.csrs nzvc')

theorem Alike.refl (self : Device) : Alike self self := by
  cases self with
  | ram memory =>
    cases memory with
    | dense ram => exact .dense ram ram.data
    | sparse span pool => exact .sparse span pool pool
  | fifo register => exact .fifo register register.input register.output register.inputIt
  | registers bank => exact .registers bank bank
  | csrs nzvc => exact .csrs nzvc nzvc

theorem Alike.trans (h : Alike self device) (h' : Alike device device') : Alike self device' := by
  cases h with
  | dense ram data => cases h' with | dense _ data' => exact .dense ram data'
  | sparse span pool => cases h' with | sparse _ _ pool' => exact .sparse span pool pool'
  | fifo register => cases h' with | fifo _ input output inputIt => exact .fifo register input output inputIt
  | registers bank => cases h' with | registers _ bank' => exact .registers bank bank'
  | csrs nzvc => cases h' with | csrs _ nzvc' => exact .csrs nzvc nzvc'

theorem Alike.span_eq (h : Alike self device) : device.span = self.span := by cases h <;> rfl

theorem Alike.takes_iff (h : Alike self device) {n : Nat} : device.Takes address n ↔ self.Takes address n := by
  cases h <;> exact Iff.rfl

theorem Alike.constant_eq (h : Alike self device) : device.constant address = self.constant address := by
  cases h <;> rfl

section Each

variable (step : Device → Address → List U8 → Except TargetError (Device × List U8)) (answer : U8 → U8 → U8)

/-- The operation on one byte, with the answer of those that are constant. -/
def stepByte (self : Device) (address : Address) (b : U8) : Except TargetError (Device × List U8) :=
  match self.constant address with
  | some v => .ok (self, [answer v b])
  | none => step self address [b]

def eachByte : Device → Address → List U8 → Except TargetError (Device × List U8)
  | self, _, [] => .ok (self, [])
  | self, address, b :: bytes => do
    let (device, out) ← stepByte step answer self address b
    let (device, rest) ← eachByte device (address + 1) bytes
    return (device, out ++ rest)

/-- A device that takes an access does with it what it does with the bytes. -/
structure Bytewise : Prop where
  alike : ∀ {self device address bytes out}, step self address bytes = .ok (device, out) → Alike self device
  constant : ∀ {self address v} (b : U8), self.constant address = some v → self.Takes address 1 →
    step self address [b] = .ok (self, [answer v b])
  each : ∀ {self address bytes r}, self.Takes address bytes.length → bytes ≠ [] →
    bytes.length ≤ self.span.sizeInclusive → eachByte step answer self address bytes = .ok r →
    step self address bytes = .ok r

variable {step answer}

theorem eachByte_cons {bytes : List U8} {r : Device × List U8} : eachByte step answer self address (b :: bytes) = .ok r ↔
    ∃ device out rest, stepByte step answer self address b = .ok (device, out) ∧
      eachByte step answer device (address + 1) bytes = .ok rest ∧ r = (rest.1, out ++ rest.2) :=
  Runs.append_ok.trans Prod.exists

/-- A register of one byte takes one byte at a time. -/
theorem each_singleton (hconstant : ∀ {v} (b : U8), self.constant address = some v → self.Takes address 1 →
      step self address [b] = .ok (self, [answer v b])) {bytes : List U8} {r : Device × List U8}
    (htakes : self.Takes address bytes.length) (hne : bytes ≠ []) (hlen : bytes.length ≤ 1)
    (h : eachByte step answer self address bytes = .ok r) : step self address bytes = .ok r := by
  obtain ⟨b, rfl⟩ := List.length_eq_one_iff.mp (Nat.le_antisymm hlen (List.length_pos_of_ne_nil hne))
  obtain ⟨device, out, rest, h₁, h₂, rfl⟩ := eachByte_cons.mp h
  obtain rfl := Except.ok.inj h₂
  rw [List.append_nil]
  rw [stepByte] at h₁
  cases hv : self.constant address with
  | none =>
    rw [hv] at h₁
    exact h₁
  | some v =>
    rw [hv] at h₁
    rw [hconstant b hv htakes]
    exact h₁

theorem eachByte_peek {peek : Address → U8} (hpeek : ∀ {address b device out},
      stepByte step answer self address b = .ok (device, out) → device = self ∧ out = [peek address])
    {bytes : List U8} {r : Device × List U8} (h : eachByte step answer self address bytes = .ok r) :
    r = (self, (addresses address bytes.length).map peek) := by
  induction bytes generalizing address r with
  | nil => exact (Except.ok.inj h).symm
  | cons b bytes ih =>
    obtain ⟨device, out, rest, h₁, h₂, rfl⟩ := eachByte_cons.mp h
    obtain ⟨rfl, rfl⟩ := hpeek h₁
    rw [ih h₂, List.length_cons, addresses_succ]
    rfl

theorem eachByte_put {σ : Type} {target : σ → Device} {put : σ → Address → U8 → σ} (hput : ∀ {s address b device out},
      stepByte step answer (target s) address b = .ok (device, out) → device = target (put s address b) ∧ out = [b])
    {s : σ} {src : List U8} {r : Device × List U8} (h : eachByte step answer (target s) address src = .ok r) :
    r = (target (putEach put s address src), src) := by
  induction src generalizing s address r with
  | nil => exact (Except.ok.inj h).symm
  | cons b src ih =>
    obtain ⟨device, out, rest, h₁, h₂, rfl⟩ := eachByte_cons.mp h
    obtain ⟨rfl, rfl⟩ := hput h₁
    rw [ih h₂]
    rfl

end Each

theorem alike_putEach {memory : RamDevice} (src : List U8) :
    Alike (.ram memory) (.ram (putEach RamDevice.put memory address src)) := by
  induction src generalizing memory address with
  | nil => exact .refl _
  | cons b src ih =>
    refine Alike.trans ?_ ih
    cases memory with
    | dense ram => exact .dense ram _
    | sparse span pool => exact .sparse span pool _

theorem alike_of_fifo_read {register register' : FifoRegister} {len : Nat} {emitted : Option MmioRecord}
    (h : register.read address len op = .ok (b, register', emitted)) : Alike (.fifo register) (.fifo register') := by
  unfold FifoRegister.read at h
  split at h
  · cases h
  split at h
  · dsimp only at h
    split at h
    · cases h
    · split at h
      · cases h
        split
        · exact .refl _
        · exact .fifo register register.input register.output (register.inputIt + 1)
      · cases h
        exact .refl _
  · split at h <;> cases h <;> exact .refl _

theorem alike_of_fifo_write {register register' : FifoRegister} {src : List U8} {emitted : Option MmioRecord}
    (h : register.write address src op = .ok (register', emitted)) : Alike (.fifo register) (.fifo register') := by
  unfold FifoRegister.write at h
  split at h
  · cases h
  split at h
  · cases h
    exact .fifo register register.input _ register.inputIt
  · cases h
    exact .refl _

/-- A register without a direction answers with its fill, and nothing is written to it. -/
theorem fifo_constant {register : FifoRegister} (hv : (fifo register).constant address = some v)
    (hin : register.inBounds address 1) (op : Operation) (b : U8) : register.read address 1 op = .ok (v, register, none) ∧
      register.write address [b] op = .ok (register, none) := by
  rw [constant] at hv
  split at hv
  · cases hv
  · rename_i hnone
    obtain ⟨hinput, houtput⟩ := Bool.or_eq_false_iff.mp (Bool.not_eq_true _ ▸ hnone)
    cases hv
    constructor
    · rw [FifoRegister.read, if_neg (not_not.mpr hin), hinput, houtput]
      rfl
    · rw [FifoRegister.write, if_neg (not_not.mpr (show register.inBounds address [b].length from hin)), houtput]
      exact if_neg fun h => Bool.false_ne_true h.2

theorem lost_of_constant {bank : PepRegisterBank} (hv : (registers bank).constant address = some v) :
    PepRegisterBank.Lost address ∧ v = 0 := by
  rw [constant] at hv
  split at hv
  · rename_i hlost
    exact ⟨hlost, (Option.some_inj.mp hv).symm⟩
  · cases hv

theorem sizeInclusive_point (address : Address) : (⟨address, address⟩ : AddressSpan).sizeInclusive = 1 := by
  have hvalid : (⟨address, address⟩ : AddressSpan).valid := BitVec.le_refl address
  rw [AddressSpan.sizeInclusive, AddressSpan.size, if_neg (not_not.mpr hvalid)]
  simp

theorem alike_of_read {out bytes : List U8} (h : self.read op address bytes = .ok (device, out)) : Alike self device := by
  unfold read at h
  cases self with
  | ram memory =>
    dsimp only at h
    cases hr : memory.read address bytes with
    | error f => simp [hr] at h
    | ok r =>
      rw [RamDevice.read_eq (RamDevice.guarded_read.takes hr)] at h
      cases h
      exact .refl _
  | fifo register =>
    dsimp only at h
    split at h
    · rename_i hr
      cases h
      exact alike_of_fifo_read hr
    · cases h
  | registers bank =>
    dsimp only at h
    split at h <;> cases h
    exact .refl _
  | csrs nzvc =>
    dsimp only at h
    split at h <;> cases h
    exact .refl _

theorem read_constant (b : U8) (hv : self.constant address = some v) (htakes : self.Takes address 1) :
    self.read op address [b] = .ok (self, [v]) := by
  unfold read
  cases self with
  | ram memory => cases hv
  | fifo register =>
    dsimp only
    rw [List.length_singleton, (fifo_constant hv htakes op b).1]
    rfl
  | registers bank =>
    obtain ⟨hlost, rfl⟩ := lost_of_constant hv
    have hin : PepRegisterBank.span.inBounds address [b].length := htakes
    dsimp only
    rw [if_pos hin, PepRegisterBank.readBytes_eq, List.length_singleton, addresses_one, List.map_singleton,
      PepRegisterBank.byteAt_lost hlost]
  | csrs nzvc => cases hv

theorem bytewise_read (op : Operation) : Bytewise (read op) fun v _ => v where
  alike := alike_of_read
  constant := read_constant
  each {self address bytes r} htakes hne hlen h := by
    cases self with
    | ram memory =>
      have hpeek : ∀ {address b device out}, stepByte (read op) (fun v _ => v) (.ram memory) address b = .ok (device, out) →
          device = .ram memory ∧ out = [memory.peek address] := by
        intro address b device out hb
        change read op (.ram memory) address [b] = _ at hb
        rw [read] at hb
        cases hr : memory.read address [b] with
        | error f => simp [hr] at hb
        | ok r =>
          rw [RamDevice.read_eq (RamDevice.guarded_read.takes hr)] at hb
          cases hb
          exact ⟨rfl, by simp⟩
      rw [eachByte_peek hpeek h, read, RamDevice.read_eq htakes]
    | fifo register => exact each_singleton read_constant htakes hne (hlen.trans (sizeInclusive_point _).le) h
    | registers bank =>
      have hpeek : ∀ {address b device out}, stepByte (read op) (fun v _ => v) (.registers bank) address b =
          .ok (device, out) → device = .registers bank ∧ out = [bank.byteAt address.toNat] := by
        intro address b device out hb
        rw [stepByte] at hb
        cases hv : (registers bank).constant address with
        | some v =>
          obtain ⟨hlost, rfl⟩ := lost_of_constant hv
          rw [hv] at hb
          cases hb
          exact ⟨rfl, by rw [PepRegisterBank.byteAt_lost hlost]⟩
        | none =>
          rw [hv, read] at hb
          dsimp only at hb
          split at hb <;> cases hb
          exact ⟨rfl, by rw [List.length_singleton, PepRegisterBank.readBytes_eq, addresses_one, List.map_singleton]⟩
      have hin : PepRegisterBank.span.inBounds address bytes.length := htakes
      rw [eachByte_peek hpeek h, read, if_pos hin, PepRegisterBank.readBytes_eq]
    | csrs nzvc => exact each_singleton read_constant htakes hne (hlen.trans (sizeInclusive_point _).le) h

theorem alike_of_write {out src : List U8} (h : self.write op address src = .ok (device, out)) : Alike self device := by
  unfold write at h
  cases self with
  | ram memory =>
    dsimp only at h
    cases hr : memory.write address src with
    | error f => simp [hr] at h
    | ok r =>
      rw [RamDevice.write_eq (RamDevice.guarded_write.takes hr)] at h
      cases h
      exact alike_putEach _
  | fifo register =>
    dsimp only at h
    split at h
    · rename_i hr
      cases h
      exact alike_of_fifo_write hr
    · cases h
  | registers bank =>
    dsimp only at h
    split at h <;> cases h
    exact .registers bank _
  | csrs nzvc =>
    dsimp only at h
    split at h <;> cases h
    exact .csrs nzvc _

theorem write_constant (b : U8) (hv : self.constant address = some v) (htakes : self.Takes address 1) :
    self.write op address [b] = .ok (self, [b]) := by
  unfold write
  cases self with
  | ram memory => cases hv
  | fifo register =>
    dsimp only
    rw [(fifo_constant hv htakes op b).2]
  | registers bank =>
    have hin : PepRegisterBank.span.inBounds address [b].length := htakes
    dsimp only
    rw [if_pos hin, PepRegisterBank.writeBytes_eq, putEach, putEach, PepRegisterBank.put_lost (lost_of_constant hv).1]
  | csrs nzvc => cases hv

theorem bytewise_write (op : Operation) : Bytewise (write op) fun _ b => b where
  alike := alike_of_write
  constant := write_constant
  each {self address src r} htakes hne hlen h := by
    cases self with
    | ram memory =>
      have hput : ∀ {s address b device out}, stepByte (write op) (fun _ b => b) (.ram s) address b = .ok (device, out) →
          device = .ram (s.put address b) ∧ out = [b] := by
        intro s address b device out hb
        change write op (.ram s) address [b] = _ at hb
        rw [write] at hb
        cases hr : s.write address [b] with
        | error f => simp [hr] at hb
        | ok r =>
          rw [RamDevice.write_eq (RamDevice.guarded_write.takes hr)] at hb
          cases hb
          exact ⟨rfl, rfl⟩
      rw [eachByte_put hput h, write, RamDevice.write_eq htakes]
    | fifo register => exact each_singleton write_constant htakes hne (hlen.trans (sizeInclusive_point _).le) h
    | registers bank =>
      have hput : ∀ {s address b device out}, stepByte (write op) (fun _ b => b) (.registers s) address b =
          .ok (device, out) → device = .registers (s.put address b) ∧ out = [b] := by
        intro s address b device out hb
        rw [stepByte] at hb
        cases hv : (registers s).constant address with
        | some v =>
          rw [hv] at hb
          cases hb
          exact ⟨by rw [PepRegisterBank.put_lost (lost_of_constant hv).1], rfl⟩
        | none =>
          rw [hv, write] at hb
          dsimp only at hb
          split at hb <;> cases hb
          exact ⟨by rw [PepRegisterBank.writeBytes_eq]; rfl, rfl⟩
      have hin : PepRegisterBank.span.inBounds address src.length := htakes
      rw [eachByte_put hput h, write, if_pos hin, PepRegisterBank.writeBytes_eq]
    | csrs nzvc => exact each_singleton write_constant htakes hne (hlen.trans (sizeInclusive_point _).le) h

end Device

end Pepp
