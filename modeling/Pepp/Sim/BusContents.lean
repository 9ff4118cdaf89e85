import Mathlib.Tactic.IntervalCases
import Pepp.Sim.BusAccess

/-!
# Which accesses are split faithfully

Whatever a device holds, a quiet read of a byte returns it and changes nothing.
Varying what the devices hold therefore shows which cell each byte of a longer
access came from, and a longer access that agrees with its bytes whatever they
hold is unbroken.
-/

namespace Pepp

open Isa Span AddressTranslationMap

/-- A pool that holds given bytes, written in two rounds as the offsets are too many for one. -/
theorem Bts.PagedPool.exists_cells (f : U32 → U8) : ∃ pool : PagedPool, ∀ x : U32, pool.cell (x.setWidth 64) = f x := by
  obtain ⟨n, hn⟩ : ∃ n, n + 1 = 2 ^ 32 := ⟨2 ^ 32 - 1, rfl⟩
  let src := slice (fun i => f (BitVec.ofNat 32 i)) 0 n
  have hlen : src.length = n := length_slice _ _ _
  obtain ⟨pool, -, -, hpool⟩ := (create 0).write_spec 0 (by rw [hlen, ← hn]; exact Nat.lt_succ_self n : src.length < 2 ^ 32)
  have hlast : [f (BitVec.ofNat 32 n)].length < 2 ^ 32 := by
    rw [List.length_singleton]
    omega
  obtain ⟨pool', -, -, hpool'⟩ := pool.write_spec (BitVec.ofNat 64 n) hlast
  refine ⟨pool', fun x => ?_⟩
  have hx := x.isLt
  have hnear : lowDistance 0 (x.setWidth 64) = x.toNat := by
    rw [lowDistance, show (0 : U64) = 0#64 from rfl, BitVec.sub_zero, BitVec.toNat_setWidth_of_le (by decide)]
    exact Nat.mod_eq_of_lt hx
  have hfar : lowDistance (BitVec.ofNat 64 n) (x.setWidth 64) = (x.toNat + 1) % 2 ^ 32 := by
    simp only [lowDistance, BitVec.toNat_sub, BitVec.toNat_setWidth, BitVec.toNat_ofNat]
    omega
  rw [hpool', hpool, hnear, hfar]
  by_cases hx' : x.toNat = n
  · rw [hx', hn, Nat.mod_self, List.getElem?_cons_zero, Option.getD_some, ← hx', BitVec.ofNat_toNat, BitVec.setWidth_eq]
  · have hlt : x.toNat < src.length := by omega
    rw [List.getElem?_eq_none (by rw [List.length_singleton, Nat.mod_eq_of_lt (by omega)]; omega), Option.getD_none,
      List.getElem?_eq_getElem hlt, Option.getD_some, getElem_slice, Nat.zero_add, BitVec.ofNat_toNat, BitVec.setWidth_eq]

namespace Device

/-- A quiet read of a device that holds given bytes returns those it has, if the device takes it. -/
def Holds (self device : Device) (contents : Address → U8) : Prop :=
  ∀ {op : Operation} {address : Address} {bytes : List U8} {r : Device × List U8}, op.type = .Application → bytes ≠ [] →
    bytes.length ≤ self.span.sizeInclusive → (device.read op address bytes = .ok r ↔ self.Takes address bytes.length ∧
      r = (device, (addresses address bytes.length).map fun a => (self.constant a).getD (contents a)))

theorem holds_ram {memory memory' : RamDevice} {contents : Address → U8} (h : Alike (.ram memory) (.ram memory'))
    (hpeek : ∀ a, memory'.peek a = contents a) : Holds (.ram memory) (.ram memory') contents := by
  intro op address bytes r _ _ _
  have hvalues : (addresses address bytes.length).map memory'.peek =
      (addresses address bytes.length).map fun a => ((ram memory).constant a).getD (contents a) :=
    List.map_congr_left fun a _ => hpeek a
  rw [← hvalues, ← h.takes_iff, read]
  constructor
  · intro hr
    cases hread : memory'.read address bytes with
    | error f => simp [hread] at hr
    | ok found =>
      have htakes := RamDevice.guarded_read.takes hread
      rw [RamDevice.read_eq htakes] at hr
      cases hr
      exact ⟨htakes, rfl⟩
  · rintro ⟨htakes, rfl⟩
    rw [RamDevice.read_eq htakes]

theorem read_quiet_fifo {register : FifoRegister} {op : Operation} {address : Address} {v : U8}
    (hop : op.type = .Application) (hin : register.inBounds address 1) (hinput : register.input = ⟨1, fun _ => v⟩)
    (houtput : register.output = ⟨1, fun _ => v⟩) (hit : register.inputIt = 0) :
    register.read address 1 op = .ok (((fifo register).constant address).getD v, register, none) := by
  have hquiet : op.advances = false := by simp [Operation.advances, hop]
  have hvalue : register.valueOr register.fill = v := by
    rw [FifoRegister.valueOr, FifoRegister.atEnd, hinput, hit]
    rfl
  have hlatest : register.output.latestOr register.fill = v := by
    rw [houtput]
    rfl
  rw [FifoRegister.read, if_neg (not_not.mpr hin), constant, hquiet, hvalue, hlatest]
  cases register.directionInput
  · cases register.directionOutput <;> rfl
  · simp

def holdingBank (contents : Address → U8) : PepRegisterBank where
  a := bigEndian (contents 0) (contents 1)
  x := bigEndian (contents 2) (contents 3)
  sp := bigEndian (contents 4) (contents 5)
  pc := bigEndian (contents 6) (contents 7)
  is := contents 9
  os := bigEndian (contents 10) (contents 11)

theorem byteAt_contents {contents : Address → U8} {at_ : Address} (h : at_.toNat < 12) (hkept : ¬ PepRegisterBank.Lost at_) :
    (holdingBank contents).byteAt at_.toNat = contents at_ := by
  obtain ⟨k, hk, rfl⟩ : ∃ k < 12, at_ = BitVec.ofNat 32 k := ⟨at_.toNat, h, by simp⟩
  have hsingle : loByte ((contents 9).setWidth 16) = contents 9 := by simp [loByte]
  interval_cases k
  exacts [hiByte_bigEndian _ _, loByte_bigEndian _ _, hiByte_bigEndian _ _, loByte_bigEndian _ _, hiByte_bigEndian _ _,
    loByte_bigEndian _ _, hiByte_bigEndian _ _, loByte_bigEndian _ _, absurd (by decide) hkept, hsingle,
    hiByte_bigEndian _ _, loByte_bigEndian _ _]

theorem readByte_contents {bank : PepRegisterBank} {contents : Address → U8} {address at_ : Address} {n : Nat}
    (hin : PepRegisterBank.span.inBounds address n) (hn : n ≤ 12) (hat : at_ ∈ addresses address n) :
    (holdingBank contents).byteAt at_.toNat = ((registers bank).constant at_).getD (contents at_) := by
  rw [constant]
  by_cases hlost : PepRegisterBank.Lost at_
  · rw [if_pos hlost, PepRegisterBank.byteAt_lost hlost]
    rfl
  · rw [if_neg hlost, byteAt_contents (PepRegisterBank.lt_of_kept hin hn hat hlost) hlost]
    rfl

/-- A device can hold any bytes. -/
theorem exists_holding (self : Device) (contents : Address → U8) : ∃ device, Alike self device ∧ Holds self device contents := by
  cases self with
  | ram memory =>
    cases memory with
    | dense ram =>
      have h := Alike.dense ram fun k => contents (ram.span.lower + BitVec.ofNat 32 k)
      refine ⟨_, h, holds_ram h fun a => ?_⟩
      change contents (ram.span.lower + BitVec.ofNat 32 ((a - ram.span.lower).setWidth 64 : U64).toNat) = contents a
      rw [BitVec.toNat_setWidth_of_le (by decide), BitVec.ofNat_toNat, BitVec.setWidth_eq, BitVec.add_comm,
        BitVec.sub_add_cancel]
    | sparse span pool =>
      obtain ⟨pool', hpool⟩ := Bts.PagedPool.exists_cells fun x => contents (span.lower + x)
      have h := Alike.sparse span pool pool'
      refine ⟨_, h, holds_ram h fun a => ?_⟩
      change pool'.cell ((a - span.lower).setWidth 64) = contents a
      rw [hpool, BitVec.add_comm, BitVec.sub_add_cancel]
  | fifo register =>
    let holding : FifoRegister :=
      { register with
        input := ⟨1, fun _ => contents register.offset⟩
        output := ⟨1, fun _ => contents register.offset⟩
        inputIt := 0 }
    refine ⟨.fifo holding, .fifo register _ _ 0, ?_⟩
    intro op address bytes r hop hne hlen
    obtain ⟨b, rfl⟩ := List.length_eq_one_iff.mp
      (Nat.le_antisymm (hlen.trans (sizeInclusive_point _).le) (List.length_pos_of_ne_nil hne))
    rw [read, List.length_singleton, addresses_one, List.map_singleton]
    by_cases hin : register.inBounds address 1
    · have hat : address = register.offset := BitVec.le_antisymm (by simpa [FifoRegister.span] using hin.2) hin.1
      rw [@read_quiet_fifo holding op address (contents register.offset) hop hin rfl rfl rfl, hat]
      exact ⟨fun hr => ⟨hat ▸ hin, (Except.ok.inj hr).symm⟩, fun hr => by rw [hr.2]; rfl⟩
    · have hout : ¬ holding.inBounds address 1 := hin
      rw [FifoRegister.read, if_pos hout]
      exact ⟨fun hr => (by cases hr), fun hr => absurd hr.1 hin⟩
  | registers bank =>
    refine ⟨_, .registers bank (holdingBank contents), ?_⟩
    intro op address bytes r _ _ hlen
    rw [read]
    by_cases hin : PepRegisterBank.span.inBounds address bytes.length
    · rw [if_pos hin, PepRegisterBank.readBytes_eq]
      rw [List.map_congr_left fun a ha => readByte_contents hin hlen ha]
      exact ⟨fun hr => ⟨hin, (Except.ok.inj hr).symm⟩, fun hr => by rw [hr.2]⟩
    · rw [if_neg hin]
      exact ⟨fun hr => (by cases hr), fun hr => absurd hr.1 hin⟩
  | csrs nzvc =>
    refine ⟨_, .csrs nzvc (contents 0), ?_⟩
    intro op address bytes r hop hne hlen
    obtain ⟨b, rfl⟩ := List.length_eq_one_iff.mp
      (Nat.le_antisymm (hlen.trans (sizeInclusive_point _).le) (List.length_pos_of_ne_nil hne))
    rw [read]
    by_cases hin : PepCSRBank.span.inBounds address [b].length
    · have hat : address = 0 := BitVec.le_antisymm (by simpa using hin.2 : address ≤ PepCSRBank.span.upper) hin.1
      rw [if_pos hin, hat]
      exact ⟨fun hr => ⟨hat ▸ hin, (Except.ok.inj hr).symm⟩, fun hr => by rw [hr.2]; rfl⟩
    · rw [if_neg hin]
      exact ⟨fun hr => (by cases hr), fun hr => absurd hr.1 hin⟩

end Device

/-- Mappings of successive addresses are entered as they are. -/
theorem SimpleBus.initialized_ordered {span : AddressSpan} {mappings : List BusMapping}
    (h : (mappings.map BusMapping.node).Pairwise fun n n' =>
      ¬ n.from_.intersects n'.from_ ∧ ¬ n'.from_.contains n.from_ ∧ ¬ n'.from_.lt n.from_) :
    initialized span mappings = ⟨span, mappings.map BusMapping.node⟩ := by
  rw [initialized, SimpleBus.mk.injEq]
  refine ⟨rfl, ?_⟩
  induction mappings using List.reverseRecOn with
  | nil => rfl
  | append_singleton mappings m ih =>
    rw [List.map_append, List.pairwise_append] at h
    obtain ⟨hfront, -, hlast⟩ := h
    have hlast : ∀ n ∈ mappings.map BusMapping.node, _ := fun n hn => hlast n hn m.node (List.mem_singleton_self _)
    have hkept : (mappings.map BusMapping.node).filter (fun n => decide (¬ m.node.from_.contains n.from_)) =
        mappings.map BusMapping.node := List.filter_eq_self.mpr fun n hn => decide_eq_true (hlast n hn).2.1
    rw [List.foldl_append, ih hfront, List.foldl_cons, List.foldl_nil,
      insert_clean fun n hn hi => absurd hi (hlast n hn).1, hkept, List.map_append]
    refine List.mergeSort_of_pairwise (List.pairwise_append.mpr ⟨?_, List.pairwise_singleton _ _, ?_⟩)
    · exact hfront.imp fun h => decide_eq_true h.2.2
    · exact fun n hn n' hn' => List.mem_singleton.mp hn' ▸ decide_eq_true (hlast n hn).2.2

namespace Targets

/-- What is read from a cell of devices that hold given bytes. -/
def valueOf (contents : U8 → Address → U8) : Cell → U8
  | .kept id address => contents id address
  | .constant v => v

/-- Cells that read alike whatever the devices hold are the same. -/
theorem cell_of_values {c c' : Cell} (h : ∀ contents, valueOf contents c = valueOf contents c') : c = c' := by
  have hfresh : ∀ v : U8, v + 1 ≠ v := by decide
  cases c with
  | kept id address =>
    cases c' with
    | kept id' address' =>
      have hone := h fun i a => if (i, a) = (id, address) then 1 else 0
      simp only [valueOf, if_true] at hone
      split at hone
      · rename_i he
        obtain ⟨rfl, rfl⟩ := Prod.mk.inj he
        rfl
      · exact absurd hone (by decide)
    | constant v => exact absurd (h fun _ _ => v + 1) (hfresh v)
  | constant v =>
    cases c' with
    | kept id address => exact absurd (h fun _ _ => v + 1).symm (hfresh v)
    | constant v' => exact congrArg Cell.constant (h fun _ _ => 0)

theorem cells_of_values {cells cells' : List Cell} (h : ∀ contents, cells.map (valueOf contents) = cells'.map (valueOf contents)) :
    cells = cells' := by
  have hlen := congrArg List.length (h fun _ _ => 0)
  rw [List.length_map, List.length_map] at hlen
  refine List.ext_getElem hlen fun i hi hi' => cell_of_values fun contents => ?_
  have hvalue := congrArg (·[i]?) (h contents)
  simpa [hi, hi'] using hvalue

theorem places_singles (places : List (U8 × Address)) : (places.map Stretch.single).flatMap Stretch.places = places := by
  induction places with
  | nil => rfl
  | cons p places ih =>
    rw [List.map_cons, List.flatMap_cons, ih, Stretch.places, Stretch.single, addresses_one]
    rfl

theorem total_singles (places : List (U8 × Address)) : total (places.map Stretch.single) = places.length := by
  induction places with
  | nil => rfl
  | cons p places ih =>
    rw [List.length_cons, ← ih, Nat.add_comm]
    exact List.sum_cons

variable {buses : U8 → Option SimpleBus} {devices devices' : Devices} {depth len : Nat} {id : U8} {address : Address}
  {op : Operation} {contents : U8 → Address → U8}

/-- A quiet read of stretches gives what is in their cells, and all of them are taken. -/
theorem run_quiet (hop : op.type = .Application) (hholds : ∀ id, (devices id).Holds (devices' id) (contents id))
    {l : List Stretch} (hfits : ∀ s ∈ l, Fits buses (spanOf buses devices) s) {bytes : List U8}
    (hlen : total l = bytes.length) {r : Devices × List U8} : run (Device.read op) l devices' bytes = .ok r ↔
      (∀ s ∈ l, (devices s.id).Takes s.address s.len) ∧
        r = (devices', (l.flatMap Stretch.places).map fun p => valueOf contents (cellOf devices p)) := by
  induction l generalizing bytes r with
  | nil => exact ⟨fun h => ⟨nofun, (Except.ok.inj h).symm⟩, fun h => by rw [h.2]; rfl⟩
  | cons s l ih =>
    obtain ⟨hs, hfits⟩ := List.forall_mem_cons.mp hfits
    have htotal : s.len + total l = bytes.length := List.sum_cons.symm.trans hlen
    have htake : (bytes.take s.len).length = s.len := List.length_take_of_le (by omega)
    have hdrop : total l = (bytes.drop s.len).length := by
      rw [List.length_drop]
      omega
    have hread : ∀ {r}, (devices' s.id).read op s.address (bytes.take s.len) = .ok r ↔
        (devices s.id).Takes s.address s.len ∧
          r = (devices' s.id, s.places.map fun p => valueOf contents (cellOf devices p)) := by
      intro r
      have hone := @hholds s.id op s.address (bytes.take s.len) r hop
        (List.ne_nil_of_length_pos (by rw [htake]; exact hs.2.1)) (by rw [htake]; exact hs.size_le)
      rw [htake] at hone
      have hvalues : (addresses s.address s.len).map (fun a => ((devices s.id).constant a).getD (contents s.id a)) =
          s.places.map fun p => valueOf contents (cellOf devices p) := by
        rw [Stretch.places, List.map_map]
        refine List.map_congr_left fun a _ => ?_
        rw [Function.comp_apply, cellOf]
        cases (devices s.id).constant a <;> rfl
      rw [← hvalues]
      exact hone
    have hsame : Function.update devices' s.id (devices' s.id) = devices' := Function.update_eq_self _ _
    rw [run_cons, List.forall_mem_cons, List.flatMap_cons, List.map_append]
    constructor
    · rintro ⟨device, out, rest, h₁, h₂, rfl⟩
      obtain ⟨htakes, he⟩ := hread.mp h₁
      cases he
      rw [hsame] at h₂
      obtain ⟨hall, rfl⟩ := (ih hfits hdrop).mp h₂
      exact ⟨⟨htakes, hall⟩, rfl⟩
    · rintro ⟨⟨htakes, hall⟩, rfl⟩
      refine ⟨devices' s.id, _, (devices', _), hread.mpr ⟨htakes, rfl⟩, ?_, rfl⟩
      rw [hsame]
      exact (ih hfits hdrop).mpr ⟨hall, rfl⟩

/-- Bytes that can be read one by one read as what their cells hold. -/
theorem unbroken_of_splits {bus : SimpleBus} (hbus : buses id = some bus) (hmapped : Mapped buses depth devices id address len)
    (h : Splits buses depth devices id address len) : Unbroken buses depth devices id address len := by
  obtain ⟨places, hplaces⟩ := hmapped.exists_places
  have hmem : ∀ p ∈ places, Fits buses (spanOf buses devices) (.single p) ∧ (devices p.1).Takes p.2 1 := by
    intro p hp
    have hp : some p ∈ places.map some := List.mem_map_of_mem hp
    rw [← hplaces] at hp
    obtain ⟨a, -, ha⟩ := List.mem_map.mp hp
    exact takes_of_place ha
  have hcount : places.length = len := by
    have := congrArg List.length hplaces
    rwa [List.length_map, List.length_map, length_addresses, eq_comm] at this
  -- what the access reads, whatever the devices hold
  have hvalues : ∀ contents, ∃ l, stretches buses (spanOf buses devices) depth id address len = some l ∧
      (∀ s ∈ l, (devices s.id).Takes s.address s.len) ∧
        ((l.flatMap Stretch.places).map (cellOf devices)).map (valueOf contents) =
          (places.map (cellOf devices)).map (valueOf contents) := by
    intro contents
    choose devices' halike hholds using fun id => (devices id).exists_holding (contents id)
    have halike : Alike devices devices' := halike
    let op : Operation := ⟨.Application, true, 0⟩
    have hbytes : (List.replicate len (0 : U8)).length = len := List.length_replicate
    have hop : (⟨.Application, true, 0⟩ : Operation).type = .Application := rfl
    have hsingles := (run_quiet hop hholds (List.forall_mem_map.mpr fun p hp => (hmem p hp).1)
      ((total_singles places).trans (hcount.trans hbytes.symm))).mpr
        ⟨List.forall_mem_map.mpr fun p hp => (hmem p hp).2, rfl⟩
    rw [places_singles] at hsingles
    have hread := (h op devices' halike _ hbytes _).1
      ((accessEach_iff (Device.bytewise_read op) halike.spanOf_eq (by rw [hbytes]; exact hplaces)).mpr hsingles)
    obtain ⟨l, hl, hrun⟩ := (access_iff (Device.bytewise_read op) halike.spanOf_eq).mp hread
    rw [hbytes] at hl
    obtain ⟨htotal, hfits⟩ := whole_bus hbus hl
    obtain ⟨htakes, hvalues⟩ := (run_quiet hop hholds hfits (htotal.trans hbytes.symm)).mp hrun
    refine ⟨l, hl, htakes, ?_⟩
    rw [List.map_map, List.map_map]
    exact (Prod.mk.inj hvalues).2.symm
  obtain ⟨l, hl, htakes, -⟩ := hvalues fun _ _ => 0
  refine ⟨l, hl, htakes, (cells_iff hplaces).mpr (cells_of_values fun contents => ?_)⟩
  obtain ⟨l', hl', -, hcells⟩ := hvalues contents
  cases hl.symm.trans hl'
  exact hcells

/-- Reads and writes of a bus do what reads and writes of the single bytes do, whatever the devices behind it hold, if
and only if the access is unbroken. -/
theorem splits_iff {bus : SimpleBus} (hbus : buses id = some bus) (hmapped : Mapped buses depth devices id address len) :
    Splits buses depth devices id address len ↔ Unbroken buses depth devices id address len := by
  refine ⟨unbroken_of_splits hbus hmapped, fun hunbroken op devices' halike bytes hbytes r => ?_⟩
  subst hbytes
  exact ⟨access_of_each (Device.bytewise_read op) hbus hmapped hunbroken halike,
    access_of_each (Device.bytewise_write op) hbus hmapped hunbroken halike⟩

/-- A bus behind which are another bus with two RAMs, a sparse RAM and the registers of a processor. -/
def nested : U8 → Option SimpleBus
  | 0 => some (.initialized ⟨0, 19⟩ [⟨1, 0, ⟨0, 3⟩, 0⟩, ⟨4, 0, ⟨4, 7⟩, 0⟩, ⟨5, 0, ⟨8, 19⟩, 0⟩])
  | 1 => some (.initialized ⟨0, 3⟩ [⟨2, 0, ⟨0, 1⟩, 0⟩, ⟨3, 0, ⟨2, 3⟩, 0⟩])
  | _ => none

def nestedDevices : Devices
  | 4 => .ram (.sparse ⟨0, 3⟩ (.create 0))
  | 5 => .registers ⟨0, 0, 0, 0, 0, 0⟩
  | _ => .ram (.dense ⟨⟨0, 1⟩, fun _ => 0⟩)

theorem nested_eq : nested = fun
    | 0 => some ⟨⟨0, 19⟩, [⟨1, ⟨0, 3⟩, ⟨0, 3⟩, 0⟩, ⟨4, ⟨4, 7⟩, ⟨0, 3⟩, 0⟩, ⟨5, ⟨8, 19⟩, ⟨0, 11⟩, 0⟩]⟩
    | 1 => some ⟨⟨0, 3⟩, [⟨2, ⟨0, 1⟩, ⟨0, 1⟩, 0⟩, ⟨3, ⟨2, 3⟩, ⟨0, 1⟩, 0⟩]⟩
    | _ => none := by
  unfold nested
  rw [SimpleBus.initialized_ordered (by decide), SimpleBus.initialized_ordered (by decide)]
  rfl

theorem nested_mapped : Mapped nested 3 nestedDevices 0 0 20 := by
  refine ⟨by norm_num, List.all_eq_true.mp ?_⟩
  rw [nested_eq]
  decide +kernel

theorem nested_unbroken : Unbroken nested 3 nestedDevices 0 0 20 := by
  refine ⟨[⟨2, 0, 2⟩, ⟨3, 0, 2⟩, ⟨4, 0, 4⟩, ⟨5, 0, 12⟩], ?_, ?_, ?_⟩
  · rw [nested_eq]
    decide +kernel
  · simp only [List.forall_mem_cons]
    exact ⟨⟨by decide, by decide⟩, ⟨by decide, by decide⟩, ⟨by decide, by decide⟩,
      (by decide : PepRegisterBank.span.inBounds 0 12), nofun⟩
  · rw [nested_eq]
    decide +kernel

theorem splits_iff_nested : Splits nested 3 nestedDevices 0 0 20 := (splits_iff rfl nested_mapped).mpr nested_unbroken

/-- Two RAMs of two bytes, mapped one behind the other. -/
def adjacent : U8 → Option SimpleBus
  | 0 => some (.initialized ⟨0, 3⟩ [⟨1, 0, ⟨0, 1⟩, 0⟩, ⟨2, 0, ⟨2, 3⟩, 0⟩])
  | _ => none

def adjacentDevices : Devices := fun _ => .ram (.dense ⟨⟨0, 1⟩, fun _ => 0⟩)

theorem adjacent_eq : adjacent = fun
    | 0 => some ⟨⟨0, 3⟩, [⟨1, ⟨0, 1⟩, ⟨0, 1⟩, 0⟩, ⟨2, ⟨2, 3⟩, ⟨0, 1⟩, 0⟩]⟩
    | _ => none := by
  unfold adjacent
  rw [SimpleBus.initialized_ordered (by decide)]
  rfl

/-- A read over the end of one RAM into the next throws, where both bytes can be read one by one. -/
theorem adjacent_not_split : Mapped adjacent 2 adjacentDevices 0 1 2 ∧
    (∃ devices, readEach adjacent ⟨.Standard, true, 0⟩ 2 adjacentDevices 0 1 [0, 0] = .ok (devices, [0, 0])) ∧
      read adjacent ⟨.Standard, true, 0⟩ 2 adjacentDevices 0 1 [0, 0] = .error (.fault (.oobAccess 1)) ∧
        ¬ Splits adjacent 2 adjacentDevices 0 1 2 := by
  have hmapped : Mapped adjacent 2 adjacentDevices 0 1 2 := by
    refine ⟨by norm_num, List.all_eq_true.mp ?_⟩
    rw [adjacent_eq]
    decide +kernel
  have heach : ∃ devices, readEach adjacent ⟨.Standard, true, 0⟩ 2 adjacentDevices 0 1 [0, 0] = .ok (devices, [0, 0]) := by
    rw [adjacent_eq]
    exact ⟨_, rfl⟩
  have hread : read adjacent ⟨.Standard, true, 0⟩ 2 adjacentDevices 0 1 [0, 0] = .error (.fault (.oobAccess 1)) := by
    rw [adjacent_eq]
    rfl
  refine ⟨hmapped, heach, hread, fun h => ?_⟩
  obtain ⟨devices, hdevices⟩ := heach
  rw [(h _ _ (.refl _) _ rfl _).1 hdevices] at hread
  cases hread

end Targets

end Pepp
