import Pepp.Asmb.ObjectCode
import Pepp.Asmb.Regions

/-!
# What a visit leaves

One visit either fails or takes the line's bytes off the front of the span,
writes them there and records the line; a section's visits do this for each
line in turn and touch nothing outside the section's part of the arena.
-/

namespace Pepp.Tc

open Isa Span Runs

theorem length_memcpyEndian (dest src : List U8) (destOrder srcOrder : Order) :
    (memcpyEndian dest destOrder src srcOrder).length = dest.length := by
  have hcopied : ∀ l : List U8, (if srcOrder = destOrder then l else l.reverse).length = l.length := by
    intro l
    split
    · rfl
    · exact List.length_reverse
  simp only [memcpyEndian, List.length_append, List.length_take, List.length_drop, hcopied]
  split <;> split <;> omega

theorem IRValue.length_serialize {ctx : SymbolContext} {dest bytes : List U8} {order : Order} {value : IRValue}
    (h : value.serialize ctx dest order = .ok bytes) : bytes.length = dest.length := by
  cases value with
  | literal value =>
    obtain rfl := Except.ok.inj h
    exact length_memcpyEndian ..
  | symbolic ptrSize symbol =>
    simp only [serialize, bind_ok, pure_ok] at h
    obtain ⟨src, -, rfl⟩ := h
    exact length_memcpyEndian ..

def Placed.size (p : Placed) : Nat := (p.address.map Address.size).getD 0

def totalSize (placed : List Placed) : Nat := (placed.map Placed.size).sum

@[simp] theorem totalSize_cons (p : Placed) (placed : List Placed) :
    totalSize (p :: placed) = p.size + totalSize placed := rfl

/-- The bytes of a line, over those of its destination. -/
def LinearIR.encode (ctx : SymbolContext) (dest : List U8) : LinearIR → Except Trap (List U8)
  | .monadic mnemonic => .ok [opcode mnemonic]
  | .dyadic mnemonic addrMode argument => do
    let operation ← opcodeWith mnemonic addrMode
    let operand ← argument.serialize ctx (dest.drop 1) .bigEndian
    return operation :: operand
  | .dotLiteral _ argument => argument.serialize ctx dest .bigEndian
  | .dotAlign _ _ => .ok (List.replicate dest.length 0)
  | .dotBlock _ => .ok (List.replicate dest.length 0)
  | .dotSymbol => .error (.logicError "Unknown IR line type")
  | .dotConditional => .error (.logicError "Unknown IR line type")
  | .integer => .error (.logicError "Unknown IR line type")
  | _ => .ok []

/-- The table has the entry a line of that type is placed with; that of an `.ALIGN` may be missing. -/
def Placed.Consistent (p : Placed) : Prop :=
  match p.line.ir with
  | .monadic _ => ∃ a, p.address = some ⟨a, 1⟩
  | .dyadic _ _ _ => ∃ a, p.address = some ⟨a, 3⟩
  | .dotLiteral _ _ => p.address.isSome
  | .dotBlock _ => p.address.isSome
  | .dotAlign _ _ => True
  | .integer => True
  | _ => p.address = none

/-- A line is looked up in the table where it is emitted from it. -/
def Placed.Listed (p : Placed) : Prop :=
  match p.line.ir with
  | .dotAlign _ _ => p.address.isSome
  | _ => True

theorem first_ok {span s : ByteSpan} {count : Nat} :
    span.first count = .ok s ↔ count ≤ span.size ∧ s = ⟨span.start, count⟩ := by
  rw [ByteSpan.first]
  split
  · simp [*, eq_comm]
  · simp [*]

theorem subspan_ok {span s : ByteSpan} {offset : Nat} :
    span.subspan offset = .ok s ↔ offset ≤ span.size ∧ s = ⟨span.start + offset, span.size - offset⟩ := by
  rw [ByteSpan.subspan]
  split
  · simp [*, eq_comm]
  · simp [*]

/-! ## Lines that can be emitted -/

/-- The value of a symbolic argument is found. -/
def IRValue.Resolves (ctx : SymbolContext) : IRValue → Prop
  | .literal _ => True
  | .symbolic _ symbol => ∃ value, resolve ctx.values ctx.depth symbol = .ok value

/-- The visitor knows the line, its addressing mode and its symbol. -/
def LinearIR.Emittable (ctx : SymbolContext) : LinearIR → Prop
  | .dyadic mnemonic addrMode argument =>
    (∃ operation, opcodeWith mnemonic addrMode = .ok operation) ∧ argument.Resolves ctx
  | .dotLiteral _ argument => argument.Resolves ctx
  | .dotSymbol => False
  | .dotConditional => False
  | .integer => False
  | _ => True

theorem IRValue.exists_serialize {ctx : SymbolContext} {value : IRValue} (dest : List U8) (order : Order) :
    (∃ bytes, value.serialize ctx dest order = .ok bytes) ↔ value.Resolves ctx := by
  cases value with
  | literal value => exact iff_of_true ⟨_, rfl⟩ trivial
  | symbolic ptrSize symbol =>
    simp only [serialize, bind_ok, pure_ok, Resolves]
    constructor
    · rintro ⟨_, src, hsrc, -⟩
      exact ⟨src, hsrc⟩
    · rintro ⟨src, hsrc⟩
      exact ⟨_, src, hsrc, rfl⟩

/-- Whether a line is encoded does not depend on what is in its destination. -/
theorem LinearIR.exists_encode {ctx : SymbolContext} {ir : LinearIR} (dest : List U8) :
    (∃ bytes, ir.encode ctx dest = .ok bytes) ↔ ir.Emittable ctx := by
  cases ir with
  | dyadic mnemonic mode argument =>
    simp only [encode, bind_ok, pure_ok, Emittable, ← argument.exists_serialize (dest.drop 1) .bigEndian]
    constructor
    · rintro ⟨_, operation, ho, operand, hb, -⟩
      exact ⟨⟨operation, ho⟩, operand, hb⟩
    · rintro ⟨⟨operation, ho⟩, operand, hb⟩
      exact ⟨_, operation, ho, operand, hb, rfl⟩
  | dotLiteral which argument => exact argument.exists_serialize dest .bigEndian
  | dotSymbol => simp [encode, Emittable]
  | dotConditional => simp [encode, Emittable]
  | integer => simp [encode, Emittable]
  | _ => exact iff_of_true ⟨_, rfl⟩ trivial

theorem Placed.length_encode {ctx : SymbolContext} {p : Placed} (hc : p.Consistent) {dest bytes : List U8}
    (hd : dest.length = p.size) (h : p.line.ir.encode ctx dest = .ok bytes) : bytes.length = p.size := by
  cases hir : p.line.ir with
  | monadic mnemonic =>
    simp only [Consistent, hir] at hc
    obtain ⟨a, ha⟩ := hc
    rw [hir] at h
    obtain rfl := Except.ok.inj h
    rw [size, ha]
    rfl
  | dyadic mnemonic mode argument =>
    simp only [Consistent, hir] at hc
    obtain ⟨a, ha⟩ := hc
    have hsize : p.size = 3 := by rw [size, ha]; rfl
    simp only [hir, LinearIR.encode, bind_ok, pure_ok] at h
    obtain ⟨operation, -, operand, hb, rfl⟩ := h
    rw [List.length_cons, IRValue.length_serialize hb, List.length_drop, hd, hsize]
  | dotLiteral which argument =>
    simp only [hir, LinearIR.encode] at h
    rw [IRValue.length_serialize h, hd]
  | dotAlign which argument | dotBlock argument =>
    rw [hir] at h
    obtain rfl := Except.ok.inj h
    rw [List.length_replicate, hd]
  | dotSymbol => rw [hir] at h; cases h
  | dotConditional => rw [hir] at h; cases h
  | integer => rw [hir] at h; cases h
  | _ =>
    simp only [Consistent, hir] at hc
    rw [hir] at h
    obtain rfl := Except.ok.inj h
    rw [size, hc]
    rfl

/-! ## One visit -/

namespace ObjectVisitor

variable {visitor : ObjectVisitor} {ctx : SymbolContext}

/-- The relocations a line asks for. -/
def relocations (visitor : ObjectVisitor) (ctx : SymbolContext) (p : Placed) : List (Name × StaticRelocation) :=
  match p.line.ir, p.address with
  | .dyadic _ _ argument, some address => visitor.relocate ctx argument address.address
  | .dotLiteral _ argument, some address => visitor.relocate ctx argument address.address
  | _, _ => []

/-- The entry of a line that starts there. -/
def entry (visitor : ObjectVisitor) (start : Nat) (p : Placed) : List LineCode :=
  (p.address.map fun address => (⟨visitor.sectionIdx, p, ⟨start, address.size⟩⟩ : LineCode)).toList

/-- What a visit leaves once the line is encoded. -/
def after (visitor : ObjectVisitor) (ctx : SymbolContext) (p : Placed) (bytes : List U8) (outBytes : ByteSpan)
    (emission : Emission) : ByteSpan × Emission :=
  (⟨outBytes.start + p.size, outBytes.size - p.size⟩,
    ⟨overwrite emission.objectCode outBytes.start bytes, emission.relocations ++ visitor.relocations ctx p,
      emission.irToObjectCode ++ visitor.entry outBytes.start p⟩)

theorem put_ok {p : Placed} {bytes : List U8} {relocations : List (Name × StaticRelocation)} {outBytes : ByteSpan}
    {emission : Emission} {r : ByteSpan × Emission} :
    visitor.put p bytes relocations outBytes emission = .ok r ↔ bytes.length ≤ outBytes.size ∧
      r = (⟨outBytes.start + bytes.length, outBytes.size - bytes.length⟩,
        ⟨overwrite emission.objectCode outBytes.start bytes, emission.relocations ++ relocations,
          emission.irToObjectCode ++ [⟨visitor.sectionIdx, p, ⟨outBytes.start, bytes.length⟩⟩]⟩) := by
  simp only [put, bind_ok, pure_ok, first_ok, subspan_ok]
  constructor
  · rintro ⟨_, ⟨h, rfl⟩, _, ⟨-, rfl⟩, rfl⟩
    exact ⟨h, rfl⟩
  · rintro ⟨h, rfl⟩
    exact ⟨_, ⟨h, rfl⟩, _, ⟨h, rfl⟩, rfl⟩

theorem put_after {p : Placed} {address : Address} (ha : p.address = some address) {bytes : List U8}
    (hl : bytes.length = p.size) {outBytes : ByteSpan} {emission : Emission} {r : ByteSpan × Emission} :
    visitor.put p bytes (visitor.relocations ctx p) outBytes emission = .ok r ↔
      p.size ≤ outBytes.size ∧ r = visitor.after ctx p bytes outBytes emission := by
  have hsize : address.size = p.size := by rw [Placed.size, ha, Option.map_some, Option.getD_some]
  have hentry : visitor.entry outBytes.start p = [⟨visitor.sectionIdx, p, ⟨outBytes.start, p.size⟩⟩] := by
    rw [entry, ha, Option.map_some, Option.toList_some, hsize]
  rw [put_ok, hl, after, hentry]

/-- A line that has no code leaves everything as it is. -/
theorem after_nothing {p : Placed} (ha : p.address = none) (outBytes : ByteSpan) (emission : Emission) :
    visitor.after ctx p [] outBytes emission = (outBytes, emission) := by
  have hsize : p.size = 0 := by rw [Placed.size, ha, Option.map_none, Option.getD_none]
  have hrelocations : visitor.relocations ctx p = [] := by
    rw [relocations, ha]
    split <;> first | rfl | contradiction
  rw [after, hsize, hrelocations, entry, ha]
  simp

/-- A visit succeeds where the line is listed, fits and is encoded. -/
def Visits (visitor : ObjectVisitor) (ctx : SymbolContext) (p : Placed) (outBytes : ByteSpan) (emission : Emission)
    (r : ByteSpan × Emission) : Prop :=
  p.Listed ∧ p.size ≤ outBytes.size ∧
    ∃ bytes, p.line.ir.encode ctx (slice emission.objectCode outBytes.start p.size) = .ok bytes ∧
      bytes.length = p.size ∧ r = visitor.after ctx p bytes outBytes emission

variable {p : Placed} {outBytes : ByteSpan} {emission : Emission} {r : ByteSpan × Emission}

theorem visits_nothing (ha : p.address = none) (hl : p.Listed)
    (he : p.line.ir.encode ctx (slice emission.objectCode outBytes.start p.size) = .ok []) :
    (Except.ok (outBytes, emission) : Except Trap _) = .ok r ↔ visitor.Visits ctx p outBytes emission r := by
  have hsize : p.size = 0 := by rw [Placed.size, ha, Option.map_none, Option.getD_none]
  rw [Visits, he]
  constructor
  · rintro ⟨⟩
    exact ⟨hl, by omega, [], rfl, hsize.symm, (after_nothing ha ..).symm⟩
  · rintro ⟨-, -, _, ⟨⟩, -, rfl⟩
    rw [after_nothing ha]

theorem visits_monadic {mnemonic : Mnemonic} (hir : p.line.ir = .monadic mnemonic) (hc : p.Consistent) :
    visitor.visit ctx p outBytes emission = .ok r ↔ visitor.Visits ctx p outBytes emission r := by
  simp only [Placed.Consistent, hir] at hc
  obtain ⟨a, ha⟩ := hc
  have hsize : p.size = 1 := by rw [Placed.size, ha]; rfl
  have hrelocations : visitor.relocations ctx p = [] := by rw [relocations, hir]
  simp only [visit, Visits, hir, LinearIR.encode, Placed.Listed, true_and, Except.ok.injEq]
  rw [← hrelocations, put_after ha (by rw [hsize]; rfl)]
  constructor
  · rintro ⟨h, rfl⟩
    exact ⟨h, _, rfl, by rw [hsize]; rfl, rfl⟩
  · rintro ⟨h, _, rfl, -, rfl⟩
    exact ⟨h, rfl⟩

/-- `.ALIGN` and `.BLOCK` fill their bytes with zeros. -/
theorem visits_zeros (hr : visitor.relocations ctx p = []) (hl : p.Listed ↔ p.address.isSome)
    (he : ∀ dest, p.line.ir.encode ctx dest = .ok (List.replicate dest.length 0)) :
    (addressOf p >>= fun address => visitor.put p (List.replicate address.size 0) [] outBytes emission) = .ok r ↔
      visitor.Visits ctx p outBytes emission r := by
  rw [Visits, hl]
  cases ha : p.address with
  | none => simp [addressOf, ha, bind, Except.bind]
  | some address =>
    have hsize : address.size = p.size := by rw [Placed.size, ha, Option.map_some, Option.getD_some]
    simp only [addressOf, ha, bind, Except.bind, Option.isSome_some, true_and, he, Except.ok.injEq, length_slice, hsize]
    rw [← hr, put_after ha List.length_replicate]
    constructor
    · rintro ⟨h, rfl⟩
      exact ⟨h, _, rfl, List.length_replicate, rfl⟩
    · rintro ⟨h, _, rfl, -, rfl⟩
      exact ⟨h, rfl⟩

theorem visits_literal {which : LiteralWhich} {argument : IRValue} (hir : p.line.ir = .dotLiteral which argument)
    (hc : p.Consistent) :
    visitor.visit ctx p outBytes emission = .ok r ↔ visitor.Visits ctx p outBytes emission r := by
  simp only [Placed.Consistent, hir] at hc
  obtain ⟨address, ha⟩ := Option.isSome_iff_exists.mp hc
  have hsize : address.size = p.size := by rw [Placed.size, ha, Option.map_some, Option.getD_some]
  have hrelocations : visitor.relocations ctx p = visitor.relocate ctx argument address.address := by
    rw [relocations, hir, ha]
  simp only [visit, Visits, hir, LinearIR.encode, Placed.Listed, true_and, addressOf, ha, bind_ok, first_ok,
    Except.ok.injEq]
  constructor
  · rintro ⟨_, rfl, _, ⟨h, rfl⟩, bytes, hb, hput⟩
    rw [hsize] at h hb
    have hlen : bytes.length = p.size := (IRValue.length_serialize hb).trans (length_slice ..)
    rw [← hrelocations, put_after ha hlen] at hput
    exact ⟨h, bytes, hb, hlen, hput.2⟩
  · rintro ⟨h, bytes, hb, hlen, rfl⟩
    refine ⟨_, rfl, _, ⟨hsize ▸ h, rfl⟩, bytes, hsize ▸ hb, ?_⟩
    rw [← hrelocations, put_after ha hlen]
    exact ⟨h, rfl⟩

theorem visits_dyadic {mnemonic : Mnemonic} {mode : AddressingMode} {argument : IRValue}
    (hir : p.line.ir = .dyadic mnemonic mode argument) (hc : p.Consistent) :
    visitor.visit ctx p outBytes emission = .ok r ↔ visitor.Visits ctx p outBytes emission r := by
  simp only [Placed.Consistent, hir] at hc
  obtain ⟨a, ha⟩ := hc
  have hsize : p.size = 3 := by rw [Placed.size, ha]; rfl
  have hrelocations : visitor.relocations ctx p = visitor.relocate ctx argument a := by rw [relocations, hir, ha]
  have hdest : (slice emission.objectCode outBytes.start 3).drop 1 = slice emission.objectCode (outBytes.start + 1) 2 := by
    rw [slice_succ, List.drop_one, List.tail_cons]
  simp only [visit, Visits, hir, LinearIR.encode, Placed.Listed, true_and, addressOf, ha, bind_ok, first_ok, subspan_ok,
    Except.ok.injEq, hsize, hdest, pure_ok]
  constructor
  · rintro ⟨_, rfl, operation, ho, _, ⟨_, ⟨h₁, rfl⟩, h₂, rfl⟩, operand, hb, hput⟩
    have hlen : (operation :: operand).length = p.size := by
      rw [hsize, List.length_cons, IRValue.length_serialize hb, length_slice]
    rw [← hrelocations, put_after ha hlen] at hput
    exact ⟨hsize ▸ hput.1, _, ⟨operation, ho, operand, hb, rfl⟩, hlen.trans hsize, hput.2⟩
  · rintro ⟨h, _, ⟨operation, ho, operand, hb, rfl⟩, hlen, rfl⟩
    refine ⟨_, rfl, operation, ho, _, ⟨_, ⟨by omega, rfl⟩, by simp only; omega, rfl⟩, operand, hb, ?_⟩
    rw [← hrelocations, put_after ha (hlen.trans hsize.symm)]
    exact ⟨hsize ▸ h, rfl⟩

theorem visit_ok (hc : p.Consistent) :
    visitor.visit ctx p outBytes emission = .ok r ↔ visitor.Visits ctx p outBytes emission r := by
  have hunknown : (∀ dest, p.line.ir.encode ctx dest = .error (.logicError "Unknown IR line type")) →
      ((Except.error (.logicError "Unknown IR line type") : Except Trap _) = .ok r ↔
        visitor.Visits ctx p outBytes emission r) := by
    intro he
    simp [Visits, he]
  cases hir : p.line.ir with
  | monadic mnemonic => exact visits_monadic hir hc
  | dyadic mnemonic mode argument => exact visits_dyadic hir hc
  | dotLiteral which argument => exact visits_literal hir hc
  | dotAlign which argument =>
    rw [visit, hir]
    exact visits_zeros (by rw [relocations, hir]) (by rw [Placed.Listed, hir]) (by rw [hir]; exact fun _ => rfl)
  | dotBlock argument =>
    rw [visit, hir]
    have ha : p.address.isSome := by simpa only [Placed.Consistent, hir] using hc
    refine visits_zeros (by rw [relocations, hir]) ?_ (by rw [hir]; exact fun _ => rfl)
    simp only [Placed.Listed, hir, ha]
  | dotSymbol | dotConditional | integer => rw [visit, hir]; exact hunknown (by rw [hir]; exact fun _ => rfl)
  | _ =>
    rw [visit, hir]
    refine visits_nothing ?_ ?_ (by rw [hir]; rfl)
    · simpa only [Placed.Consistent, hir] using hc
    · simp only [Placed.Listed, hir]

/-! ## The visits of a section -/

/-- The entries of lines in a row. -/
def entries (visitor : ObjectVisitor) : Nat → List Placed → List LineCode
  | _, [] => []
  | start, p :: rest => visitor.entry start p ++ entries visitor (start + p.size) rest

/-- What the visits of a section leave. -/
structure Visited (visitor : ObjectVisitor) (ctx : SymbolContext) (placed : List Placed) (outBytes : ByteSpan)
    (emission : Emission) (r : ByteSpan × Emission) : Prop where
  emitted : ∀ p ∈ placed, p.Listed ∧ p.line.ir.Emittable ctx
  fits : totalSize placed ≤ outBytes.size
  left : r.1 = ⟨outBytes.start + totalSize placed, outBytes.size - totalSize placed⟩
  relocations : r.2.relocations = emission.relocations ++ placed.flatMap (visitor.relocations ctx)
  irToObjectCode : r.2.irToObjectCode = emission.irToObjectCode ++ visitor.entries outBytes.start placed
  elsewhere : ∀ x, x < outBytes.start ∨ outBytes.start + totalSize placed ≤ x →
    r.2.objectCode x = emission.objectCode x

theorem visited_of_visitLines {placed : List Placed} (hc : ∀ p ∈ placed, p.Consistent)
    (h : visitor.visitLines ctx placed outBytes emission = .ok r) : Visited visitor ctx placed outBytes emission r := by
  induction placed generalizing outBytes emission with
  | nil =>
    obtain rfl := Except.ok.inj h
    exact ⟨fun _ hp => absurd hp List.not_mem_nil, Nat.zero_le _, rfl, (List.append_nil _).symm, (List.append_nil _).symm,
      fun _ _ => rfl⟩
  | cons p placed ih =>
    obtain ⟨hp, hrest⟩ := List.forall_mem_cons.mp hc
    simp only [visitLines, bind_ok] at h
    obtain ⟨r₁, hvisit, hlines⟩ := h
    obtain ⟨hlisted, hfits, bytes, hb, hlen, rfl⟩ := (visit_ok hp).mp hvisit
    obtain ⟨hemitted, hfits', hout, hrel, hmap, helse⟩ := ih hrest hlines
    simp only [after] at hfits' hout hrel hmap helse
    refine ⟨List.forall_mem_cons.mpr ⟨⟨hlisted, (LinearIR.exists_encode _).mp ⟨_, hb⟩⟩, hemitted⟩, ?_, ?_, ?_, ?_, ?_⟩
    · rw [totalSize_cons]
      omega
    · rw [hout, totalSize_cons, Nat.add_assoc, Nat.sub_sub]
    · rw [hrel, List.flatMap_cons, List.append_assoc]
    · rw [hmap, entries, List.append_assoc]
    · intro x hx
      rw [totalSize_cons] at hx
      rw [helse x (by omega)]
      rcases hx with hx | hx
      · exact overwrite_of_lt _ _ _ _ hx
      · exact overwrite_of_le _ _ _ _ (by omega)

/-- Lines that are listed, can be emitted and fit are visited without fail. -/
theorem exists_visitLines {placed : List Placed} (hc : ∀ p ∈ placed, p.Consistent)
    (he : ∀ p ∈ placed, p.Listed ∧ p.line.ir.Emittable ctx) (hfits : totalSize placed ≤ outBytes.size) :
    ∃ r, visitor.visitLines ctx placed outBytes emission = .ok r := by
  induction placed generalizing outBytes emission with
  | nil => exact ⟨_, rfl⟩
  | cons p placed ih =>
    obtain ⟨hp, hrest⟩ := List.forall_mem_cons.mp hc
    obtain ⟨⟨hlisted, hem⟩, herest⟩ := List.forall_mem_cons.mp he
    rw [totalSize_cons] at hfits
    obtain ⟨bytes, hb⟩ := (LinearIR.exists_encode (slice emission.objectCode outBytes.start p.size)).mpr hem
    have hlen := p.length_encode hp (length_slice ..) hb
    have hvisit : visitor.visit ctx p outBytes emission = _ :=
      (visit_ok hp).mpr ⟨hlisted, by omega, bytes, hb, hlen, rfl⟩
    simp only [visitLines, hvisit, bind, Except.bind]
    exact ih hrest herest (by simp only [after]; omega)

end ObjectVisitor

end Pepp.Tc
