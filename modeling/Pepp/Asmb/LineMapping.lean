import Pepp.Bits.Leb128
import Pepp.Lib.Bytes

/-!
# Line mappings

An address with its lines in the source and in the listing, written as
differences to the record before. The first record of a list says in the sign
of its length that there is none before it, so that lists can be written one
behind the other.
-/

namespace Pepp.Tc

open Bits Span

/-- 0 indicates unset. -/
structure BinaryLineMapping where
  address : U32
  srcLine : U16
  listLine : U16
  deriving DecidableEq, Repr

def BinaryLineMapping.unset : BinaryLineMapping := ⟨0, 0, 0⟩

inductive Errc where
  | resultOutOfRange
  | valueTooLarge
  | illegalByteSequence
  /-- Bytes past those that were read are not initialized. -/
  | undefined
  deriving DecidableEq, Repr

/-- What the archives of the serialization library do: one writes over a buffer that grows, from its position on; the
other takes bytes off the front of its data and refuses to take more than there are. -/
structure Archives (Out In : Type) where
  out : Out
  position : Out → Nat
  reset : Out → Nat → Out
  write : Out → List U8 → Out
  byteAt : Out → Nat → U8
  position_out : position out = 0
  position_reset : ∀ archive pos, position (reset archive pos) = pos
  byteAt_reset : ∀ archive pos, byteAt (reset archive pos) = byteAt archive
  position_write : ∀ archive bytes, position (write archive bytes) = position archive + bytes.length
  byteAt_write : ∀ archive bytes, byteAt (write archive bytes) = overwrite (byteAt archive) (position archive) bytes
  open_ : List U8 → In
  read : In → Nat → Option (List U8 × In)
  remaining : In → List U8
  remaining_open : ∀ data, remaining (open_ data) = data
  read_some : ∀ archive n, n ≤ (remaining archive).length →
    ∃ archive', read archive n = some ((remaining archive).take n, archive') ∧
      remaining archive' = (remaining archive).drop n
  read_none : ∀ archive n, (remaining archive).length < n → read archive n = none

/-- A buffer with a position, and the bytes that are left. -/
def Archives.ofBytes : Archives ((Nat → U8) × Nat) (List U8) where
  out := (fun _ => 0, 0)
  position archive := archive.2
  reset archive pos := (archive.1, pos)
  write archive bytes := (overwrite archive.1 archive.2 bytes, archive.2 + bytes.length)
  byteAt archive := archive.1
  position_out := rfl
  position_reset _ _ := rfl
  byteAt_reset _ _ := rfl
  position_write _ _ := rfl
  byteAt_write _ _ := rfl
  open_ data := data
  read archive n := if archive.length < n then none else some (archive.take n, archive.drop n)
  remaining archive := archive
  remaining_open _ := rfl
  read_some archive n h := ⟨archive.drop n, if_neg (Nat.not_lt.mpr h), rfl⟩
  read_none _ _ h := if_pos h

variable {Out In : Type} (ar : Archives Out In)

namespace BinaryLineMapping

/-- The fields of a record as differences to another. -/
def deltas (self prev : BinaryLineMapping) : List U8 :=
  encodeSLEB128 (self.address - prev.address).toInt ++ encodeSLEB128 (self.srcLine - prev.srcLine).toInt ++
    encodeSLEB128 (self.listLine - prev.listLine).toInt

/-- `serialize` into an archive. The length is written first, and again when it is known. -/
def serializeOut (archive : Out) (self prev : BinaryLineMapping) (noDelta : Bool) : Out :=
  let prev := if noDelta then unset else prev
  let sizePos := ar.position archive
  let archive := ar.write archive [0]
  let addressDelta := encodeSLEB128 (self.address - prev.address).toInt
  let archive := ar.write archive addressDelta
  let srcLineDelta := encodeSLEB128 (self.srcLine - prev.srcLine).toInt
  let archive := ar.write archive srcLineDelta
  let listLineDelta := encodeSLEB128 (self.listLine - prev.listLine).toInt
  let archive := ar.write archive listLineDelta
  let totalSize : U8 := BitVec.ofNat 8 addressDelta.length + BitVec.ofNat 8 srcLineDelta.length +
    BitVec.ofNat 8 listLineDelta.length
  let endPos := ar.position archive
  let archive := ar.reset archive sizePos
  let archive := ar.write archive [totalSize ||| if noDelta then 0x80 else 0x00]
  ar.reset archive endPos

/-- The part of `serialize` behind the length, with the bytes of the entry in the buffer. -/
def decodeDeltas (buffer : List U8) (prev : BinaryLineMapping) : Option BinaryLineMapping := do
  let (address, entrySize) ← decodeSLEB128 buffer
  let buffer := buffer.drop entrySize
  let (srcLine, entrySize) ← decodeSLEB128 buffer
  let buffer := buffer.drop entrySize
  let (listLine, _) ← decodeSLEB128 buffer
  return ⟨(address + prev.address.setWidth 64).setWidth 32, (srcLine + prev.srcLine.setWidth 64).setWidth 16,
    (listLine + prev.listLine.setWidth 64).setWidth 16⟩

/-- `serialize` from an archive into an unset record: an error, if there is one, the record and the archive. -/
def serializeIn (archive : In) (prev : BinaryLineMapping) : Option Errc × BinaryLineMapping × In :=
  match ar.read archive 1 with
  | none => (some .resultOutOfRange, unset, archive)
  | some (size, archive) =>
    let totalSize := size.headD 0
    let length := (totalSize &&& 0x7F).toNat
    if 12 < length then (some .valueTooLarge, unset, archive)
    else if length = 0 then (some .illegalByteSequence, unset, archive)
    else
      let prev := if totalSize &&& 0x80 ≠ 0 then unset else prev
      match ar.read archive length with
      | none => (some .resultOutOfRange, unset, archive)
      | some (buffer, archive) =>
        match decodeDeltas buffer prev with
        | none => (some .undefined, unset, archive)
        | some self => (none, self, archive)

end BinaryLineMapping

/-- The records of `write_line_mapping`, the first one absolute. -/
def writeMappings (archive : Out) (prev : BinaryLineMapping) (first : Bool) : List BinaryLineMapping → Out
  | [] => archive
  | current :: mappings =>
    writeMappings (current.serializeOut ar archive prev first) current false mappings

/-- What is appended to the section. -/
def lineMappingBytes (mappings : List BinaryLineMapping) : List U8 :=
  let archive := writeMappings ar ar.out .unset true mappings
  slice (ar.byteAt archive) 0 (ar.position archive)

/-- The loop of `getLineMappings`, which takes a byte of its data every time; errors are ignored. -/
def readMappings : Nat → In → BinaryLineMapping → List BinaryLineMapping × In
  | 0, archive, _ => ([], archive)
  | fuel + 1, archive, prev =>
    if ar.remaining archive = [] then ([], archive)
    else
      let (_, current, archive) := BinaryLineMapping.serializeIn ar archive prev
      let (ret, archive) := readMappings fuel archive current
      (current :: ret, archive)

def getLineMappings (data : List U8) : List BinaryLineMapping × In :=
  readMappings ar data.length (ar.open_ data) .unset

/-! ## Writing -/

namespace BinaryLineMapping

/-- The bytes of one record. -/
def entry (self prev : BinaryLineMapping) (noDelta : Bool) : List U8 :=
  let prev := if noDelta then unset else prev
  (BitVec.ofNat 8 (self.deltas prev).length ||| if noDelta then 0x80 else 0x00) :: self.deltas prev

/-- A length that is written before what it counts and again behind it. -/
theorem overwrite_counted (f : Nat → U8) (p : Nat) (x y : U8) (d₁ d₂ d₃ : List U8) :
    overwrite (overwrite (overwrite (overwrite (overwrite f p [x]) (p + 1) d₁) (p + 1 + d₁.length) d₂)
      (p + 1 + d₁.length + d₂.length) d₃) p [y] = overwrite f p (y :: (d₁ ++ d₂ ++ d₃)) := by
  have hfirst : overwrite (overwrite f p [x]) (p + 1) d₁ = overwrite f p (x :: d₁) := overwrite_next f p [x] d₁
  have hsecond : overwrite (overwrite f p (x :: d₁)) (p + 1 + d₁.length) d₂ = overwrite f p (x :: (d₁ ++ d₂)) := by
    rw [← List.cons_append, ← overwrite_next, List.length_cons, Nat.add_assoc p, Nat.add_comm 1]
  have hthird : overwrite (overwrite f p (x :: (d₁ ++ d₂))) (p + 1 + d₁.length + d₂.length) d₃ =
      overwrite f p (x :: (d₁ ++ d₂ ++ d₃)) := by
    have hpos : p + 1 + d₁.length + d₂.length = p + (x :: (d₁ ++ d₂)).length := by
      rw [List.length_cons, List.length_append]
      omega
    rw [hpos]
    exact overwrite_next f p (x :: (d₁ ++ d₂)) d₃
  have hcount : ∀ z : U8, p + [z].length ≤ p + 1 := fun _ => Nat.le_refl _
  rw [hfirst, hsecond, hthird, overwrite_cons f p x, overwrite_cons f p y, overwrite_comm f (hcount x),
    overwrite_comm f (hcount y), overwrite_again _ _ (show [x].length = [y].length from rfl)]

/-- A record is appended to what the archive holds. -/
theorem serializeOut_entry (archive : Out) (self prev : BinaryLineMapping) (noDelta : Bool) :
    slice (ar.byteAt (self.serializeOut ar archive prev noDelta)) 0
      (ar.position (self.serializeOut ar archive prev noDelta)) =
    slice (ar.byteAt archive) 0 (ar.position archive) ++ self.entry prev noDelta := by
  have hend : ar.position (self.serializeOut ar archive prev noDelta) =
      ar.position archive + (self.entry prev noDelta).length := by
    simp only [serializeOut, ar.position_reset, ar.position_write, entry, deltas, List.length_cons, List.length_append,
      List.length_nil]
    omega
  have hbytes : ar.byteAt (self.serializeOut ar archive prev noDelta) =
      overwrite (ar.byteAt archive) (ar.position archive) (self.entry prev noDelta) := by
    simp only [serializeOut, ar.byteAt_reset, ar.byteAt_write, ar.position_reset, ar.position_write,
      List.length_singleton, overwrite_counted, entry, deltas, List.length_append, BitVec.ofNat_add]
  rw [hend, hbytes, slice_overwrite_end]

/-- The bytes of the records of one list. -/
def entries (prev : BinaryLineMapping) (first : Bool) : List BinaryLineMapping → List U8
  | [] => []
  | current :: mappings => current.entry prev first ++ entries current false mappings

theorem writeMappings_entries (mappings : List BinaryLineMapping) (archive : Out) (prev : BinaryLineMapping)
    (first : Bool) :
    slice (ar.byteAt (writeMappings ar archive prev first mappings)) 0
      (ar.position (writeMappings ar archive prev first mappings)) =
    slice (ar.byteAt archive) 0 (ar.position archive) ++ entries prev first mappings := by
  induction mappings generalizing archive prev first with
  | nil => rw [writeMappings, entries, List.append_nil]
  | cons current mappings ih => rw [writeMappings, ih, serializeOut_entry, List.append_assoc, entries]

theorem lineMappingBytes_entries (mappings : List BinaryLineMapping) :
    lineMappingBytes ar mappings = entries unset true mappings := by
  rw [lineMappingBytes, writeMappings_entries, ar.position_out, slice_zero, List.nil_append]

/-! ## Reading -/

/-- The length of an entry and the mark of an absolute one. -/
theorem count_masks : ∀ n < 128, ∀ noDelta : Bool,
    ((BitVec.ofNat 8 n ||| if noDelta then 0x80 else 0x00) &&& 0x7F).toNat = n ∧
    ((BitVec.ofNat 8 n ||| if noDelta then 0x80 else 0x00) &&& 0x80 ≠ 0 ↔ noDelta = true) := by
  decide +kernel

theorem decodeSLEB128_encode {v : Int} (h : (encodeSLEB128 v).length ≤ 9) (p : List U8) :
    decodeSLEB128 (encodeSLEB128 v ++ p) = some (BitVec.ofInt 64 v, (encodeSLEB128 v).length) := by
  rw [decodeSLEB128, decode_encodeSLEB128 v p (by decide) (by omega), pow_zero, mul_one,
    show (0 : U64) + BitVec.ofInt 64 v = BitVec.ofInt 64 v from BitVec.zero_add _]

/-- A difference that is read as a wider integer gives the field back. -/
theorem add_difference {w : Nat} (a b : BitVec w) (h : w ≤ 64) :
    (BitVec.ofInt 64 (a - b).toInt + b.setWidth 64).setWidth w = a := by
  have hnarrow : ((a - b).signExtend 64).setWidth w = a - b := by
    ext i hi
    rw [BitVec.getElem_setWidth, BitVec.getLsbD_signExtend, if_pos hi]
    simp [show i < 64 by omega, hi]
  rw [BitVec.setWidth_add _ _ h, BitVec.setWidth_setWidth_of_le _ h, BitVec.setWidth_eq]
  exact (congrArg (· + b) hnarrow).trans (BitVec.sub_add_cancel a b)

theorem length_word (d : U32) : (encodeSLEB128 d.toInt).length ≤ 5 := by
  have hlt : d.toInt < 2 ^ 31 := BitVec.toInt_lt
  have hle : -2 ^ 31 ≤ d.toInt := BitVec.le_toInt d
  exact length_encodeSLEB128 4 (by omega) (by omega)

theorem length_half (d : U16) : (encodeSLEB128 d.toInt).length ≤ 3 := by
  have hlt : d.toInt < 2 ^ 15 := BitVec.toInt_lt
  have hle : -2 ^ 15 ≤ d.toInt := BitVec.le_toInt d
  exact length_encodeSLEB128 2 (by omega) (by omega)

theorem length_deltas (self prev : BinaryLineMapping) :
    0 < (self.deltas prev).length ∧ (self.deltas prev).length ≤ 12 := by
  have haddress := length_word (self.address - prev.address)
  have hsrc := length_half (self.srcLine - prev.srcLine)
  have hlist := length_half (self.listLine - prev.listLine)
  have hsome : 0 < (encodeSLEB128 (self.address - prev.address).toInt).length := by
    rw [encodeSLEB128]
    split <;> simp
  rw [deltas, List.length_append, List.length_append]
  omega

theorem decodeDeltas_deltas (self prev : BinaryLineMapping) : decodeDeltas (self.deltas prev) prev = some self := by
  have haddress : (encodeSLEB128 (self.address - prev.address).toInt).length ≤ 9 := (length_word _).trans (by decide)
  have hsrc : (encodeSLEB128 (self.srcLine - prev.srcLine).toInt).length ≤ 9 := (length_half _).trans (by decide)
  have hlist : (encodeSLEB128 (self.listLine - prev.listLine).toInt).length ≤ 9 := (length_half _).trans (by decide)
  have hlast := decodeSLEB128_encode hlist []
  rw [List.append_nil] at hlast
  rw [decodeDeltas, deltas, List.append_assoc, decodeSLEB128_encode haddress]
  simp only [Option.bind_eq_bind, Option.bind_some, List.drop_left, decodeSLEB128_encode hsrc, hlast]
  rw [add_difference _ _ (by decide), add_difference _ _ (by decide), add_difference _ _ (by decide)]
  rfl

/-- An entry at the front of what remains is taken off, and its record is read. -/
theorem serializeIn_entry {archive : In} {self prev prev' : BinaryLineMapping} {noDelta : Bool} {rest : List U8}
    (h : ar.remaining archive = self.entry prev noDelta ++ rest) (hprev : noDelta = false → prev' = prev) :
    ∃ archive', serializeIn ar archive prev' = (none, self, archive') ∧ ar.remaining archive' = rest := by
  have hbase : (if noDelta = true then unset else prev') = if noDelta then unset else prev := by
    cases noDelta with
    | true => rfl
    | false => rw [hprev rfl]
  rw [entry] at h
  generalize hfrom : (if noDelta then unset else prev) = base at h hbase
  obtain ⟨hpos, hmax⟩ := self.length_deltas base
  obtain ⟨hcount, hmark⟩ := count_masks (self.deltas base).length (by omega) noDelta
  generalize htotal : (BitVec.ofNat 8 (self.deltas base).length ||| if noDelta then 0x80 else 0x00) = totalSize at *
  have hlen : (self.deltas base ++ rest).length = (self.deltas base).length + rest.length := List.length_append
  rw [List.cons_append] at h
  obtain ⟨second, hsize, hremaining⟩ := ar.read_some archive 1 (by rw [h, List.length_cons]; omega)
  rw [h] at hsize hremaining
  obtain ⟨third, hdeltas, hend⟩ := ar.read_some second (self.deltas base).length (by
    rw [hremaining, List.drop_one, List.tail_cons, hlen]
    omega)
  rw [hremaining, List.drop_one, List.tail_cons] at hdeltas hend
  rw [List.take_left] at hdeltas
  rw [List.drop_left] at hend
  refine ⟨third, ?_, hend⟩
  have hsmall : ¬ 12 < (self.deltas base).length := by omega
  have hnone : ¬ (self.deltas base).length = 0 := by omega
  rw [serializeIn, hsize]
  simp only [List.take_succ_cons, List.take_zero, List.headD_cons, hcount, hsmall, hnone, hmark, hbase, hdeltas,
    decodeDeltas_deltas, if_false]

end BinaryLineMapping

section Reading

open BinaryLineMapping

variable {archive : In} {prev prev' : BinaryLineMapping} {fuel : Nat}

theorem readMappings_entries (mappings : List BinaryLineMapping) {first : Bool} {rest : List U8}
    (h : ar.remaining archive = entries prev first mappings ++ rest) (hprev : first = false → prev' = prev)
    (hfuel : (ar.remaining archive).length ≤ fuel) :
    ∃ archive' fuel' last, ar.remaining archive' = rest ∧ rest.length ≤ fuel' ∧
      readMappings ar fuel archive prev' =
        (mappings ++ (readMappings ar fuel' archive' last).1, (readMappings ar fuel' archive' last).2) := by
  induction mappings generalizing archive prev prev' first fuel with
  | nil => exact ⟨archive, fuel, prev', h, by rwa [← show ar.remaining archive = rest from h], rfl⟩
  | cons current mappings ih =>
    rw [entries, List.append_assoc] at h
    obtain ⟨next, hread, hremaining⟩ := serializeIn_entry ar h hprev
    have hlen : (ar.remaining archive).length = (current.entry prev first).length + (ar.remaining next).length := by
      rw [h, hremaining, List.length_append]
    have hentry : 0 < (current.entry prev first).length := Nat.succ_pos _
    obtain ⟨fuel, rfl⟩ : ∃ k, fuel = k + 1 := ⟨fuel - 1, by omega⟩
    have hless : (ar.remaining next).length ≤ fuel := by omega
    obtain ⟨archive', fuel', last, hrest, hfuel', hmore⟩ := ih hremaining (fun _ => rfl) hless
    have hsome : ar.remaining archive ≠ [] := List.ne_nil_of_length_pos (by omega)
    refine ⟨archive', fuel', last, hrest, hfuel', ?_⟩
    rw [readMappings, if_neg hsome, hread]
    simp only [hmore, List.cons_append]

theorem readMappings_lists (lists : List (List BinaryLineMapping))
    (h : ar.remaining archive = lists.flatMap (lineMappingBytes ar))
    (hfuel : (ar.remaining archive).length ≤ fuel) :
    ∃ archive', readMappings ar fuel archive prev = (lists.flatten, archive') ∧ ar.remaining archive' = [] := by
  induction lists generalizing archive prev fuel with
  | nil =>
    have hend : ar.remaining archive = [] := h
    refine ⟨archive, ?_, hend⟩
    cases fuel with
    | zero => rfl
    | succ fuel => rw [readMappings, if_pos hend, List.flatten_nil]
  | cons mappings lists ih =>
    rw [List.flatMap_cons, lineMappingBytes_entries] at h
    obtain ⟨next, fuel', last, hremaining, hfuel', hread⟩ :=
      readMappings_entries ar mappings h (fun hfirst => absurd hfirst (by decide)) hfuel
    have hless : (ar.remaining next).length ≤ fuel' := by rwa [hremaining]
    obtain ⟨archive', hmore, hend⟩ := @ih next last fuel' hremaining hless
    refine ⟨archive', ?_, hend⟩
    rw [hread, hmore, List.flatten_cons]

end Reading

/-- Line mappings that are written are read back, and so are lists that are written one behind the other; nothing
remains. -/
theorem line_mappings_read_back (mappings : List BinaryLineMapping) (lists : List (List BinaryLineMapping)) :
    (∃ archive, getLineMappings ar (lineMappingBytes ar mappings) = (mappings, archive) ∧
      ar.remaining archive = []) ∧
    ∃ archive, getLineMappings ar (lists.flatMap (lineMappingBytes ar)) = (lists.flatten, archive) ∧
      ar.remaining archive = [] := by
  have hlists : ∀ lists : List (List BinaryLineMapping), ∃ archive,
      getLineMappings ar (lists.flatMap (lineMappingBytes ar)) = (lists.flatten, archive) ∧
        ar.remaining archive = [] := fun lists =>
    readMappings_lists ar lists (ar.remaining_open _) (by rw [ar.remaining_open])
  have hone := hlists [mappings]
  rw [List.flatMap_singleton, List.flatten_singleton] at hone
  exact ⟨hone, hlists lists⟩

/-- Lines in any order, over two lists. -/
theorem line_mappings_read_back_two :
    ∃ archive, getLineMappings .ofBytes ([[⟨0xFFFF, 65535, 0⟩, ⟨0, 0, 65535⟩], [⟨0x8000, 3, 4⟩]].flatMap
      (lineMappingBytes .ofBytes)) = ([⟨0xFFFF, 65535, 0⟩, ⟨0, 0, 65535⟩, ⟨0x8000, 3, 4⟩], archive) ∧
      Archives.ofBytes.remaining archive = [] :=
  (line_mappings_read_back .ofBytes [] _).2

end Pepp.Tc
