import Mathlib.Data.List.Perm.Basic
import Mathlib.Data.Set.List
import Pepp.Tvm.Backend
import Pepp.Tvm.Cracking

/-!
# Decoding undoes encoding

Sorted by their mask, the values of a load come in the order in which the
machine hands the words of the packet to the registers of the mask.
-/

namespace Pepp.Tvm.EncodedOp

theorem insertPair_perm (key : U16 × U16) (pairs : List (U16 × U16)) : (insertPair key pairs).Perm (key :: pairs) := by
  induction pairs with
  | nil => exact List.Perm.refl _
  | cons pair pairs ih =>
    rw [insertPair]
    split
    · exact List.Perm.refl _
    · exact (ih.cons pair).trans (List.Perm.swap key pair pairs)

theorem insertPair_sorted (key : U16 × U16) {pairs : List (U16 × U16)} (h : pairs.Pairwise fun p q => p.1 ≤ q.1) :
    (insertPair key pairs).Pairwise fun p q => p.1 ≤ q.1 := by
  induction pairs with
  | nil => exact List.pairwise_singleton ..
  | cons pair pairs ih =>
    obtain ⟨hpair, hpairs⟩ := List.pairwise_cons.mp h
    rw [insertPair]
    split
    case isTrue hlt =>
      refine List.pairwise_cons.mpr ⟨?_, h⟩
      intro q hq
      obtain rfl | hq := List.mem_cons.mp hq
      · exact BitVec.le_of_lt hlt
      · exact BitVec.le_trans (BitVec.le_of_lt hlt) (hpair q hq)
    case isFalse hge =>
      refine List.pairwise_cons.mpr ⟨?_, ih hpairs⟩
      intro q hq
      obtain rfl | hq := List.mem_cons.mp ((insertPair_perm key pairs).mem_iff.mp hq)
      · exact BitVec.not_lt.mp hge
      · exact hpair q hq

theorem sortPairs_perm_sorted (pairs : List (U16 × U16)) :
    (sortPairs pairs).Perm pairs ∧ (sortPairs pairs).Pairwise fun p q => p.1 ≤ q.1 := by
  suffices h : ∀ sorted : List (U16 × U16), (sorted.Pairwise fun p q => p.1 ≤ q.1) →
      (pairs.foldl (fun sorted key => insertPair key sorted) sorted).Perm (pairs ++ sorted) ∧
        (pairs.foldl (fun sorted key => insertPair key sorted) sorted).Pairwise fun p q => p.1 ≤ q.1 by
    have := h [] List.Pairwise.nil
    rwa [List.append_nil] at this
  induction pairs with
  | nil => exact fun sorted h => ⟨List.Perm.refl _, h⟩
  | cons key pairs ih =>
    intro sorted h
    obtain ⟨hperm, hsorted⟩ := ih _ (insertPair_sorted key h)
    exact ⟨hperm.trans (((insertPair_perm key sorted).append_left pairs).trans List.perm_middle), hsorted⟩

/-- Pairs for `LMR`, from what each register is to hold. -/
def maskPairs (loads : List (RegMask × U16)) : List (U16 × U16) := loads.map fun load => (load.1.value, load.2)

theorem toNat_value (r : RegMask) : r.value.toNat = 2 ^ r.bit := by
  cases r <;> rfl

theorem bit_injective {r r' : RegMask} (h : r.bit = r'.bit) : r = r' := by
  have hall (r : RegMask) : RegMask.all[r.bit]? = some r := by cases r <;> rfl
  exact Option.some.inj ((hall r).symm.trans (h ▸ hall r'))

theorem value_le {r r' : RegMask} : r.value ≤ r'.value ↔ r.bit ≤ r'.bit := by
  rw [BitVec.le_def, toNat_value, toNat_value]
  exact Nat.pow_le_pow_iff_right (by decide)

theorem value_injective : Function.Injective fun load : RegMask × U16 => (load.1.value, load.2) := by
  intro p q h
  obtain ⟨hvalue, hword⟩ := Prod.mk.inj h
  exact Prod.ext (bit_injective (Nat.le_antisymm (value_le.mp (hvalue ▸ BitVec.le_refl _))
    (value_le.mp (hvalue ▸ BitVec.le_refl _)))) hword

theorem getLsbD_value (r r' : RegMask) : r.value.getLsbD r'.bit = decide (r = r') := by
  rw [BitVec.getLsbD, toNat_value, Nat.testBit_two_pow]
  exact decide_eq_decide.mpr ⟨bit_injective, congrArg _⟩

theorem getLsbD_combined (loads : List (RegMask × U16)) (r : RegMask) :
    (combined (maskPairs loads)).getLsbD r.bit = true ↔ r ∈ loads.map Prod.fst := by
  suffices h : ∀ mask : U16, ((maskPairs loads).foldl (fun mask pair => mask ||| pair.1) mask).getLsbD r.bit = true ↔
      mask.getLsbD r.bit = true ∨ r ∈ loads.map Prod.fst by
    rw [combined, h]
    simp
  induction loads with
  | nil => simp [maskPairs]
  | cons load loads ih =>
    intro mask
    change ((maskPairs loads).foldl _ (mask ||| load.1.value)).getLsbD _ = true ↔ _
    rw [ih, BitVec.getLsbD_or, getLsbD_value, List.map_cons, List.mem_cons, Bool.or_eq_true,
      decide_eq_true_eq, or_assoc,
      @eq_comm _ load.1]

/-- Sorting pairs sorts the loads they stand for. -/
theorem exists_sorted (loads : List (RegMask × U16)) :
    ∃ sorted : List (RegMask × U16), sorted.Perm loads ∧ sortPairs (maskPairs loads) = maskPairs sorted ∧
      sorted.Pairwise fun p q => p.1.bit ≤ q.1.bit := by
  obtain ⟨hperm, hsorted⟩ := sortPairs_perm_sorted (maskPairs loads)
  obtain ⟨sorted, hmap⟩ : ∃ sorted, maskPairs sorted = sortPairs (maskPairs loads) := by
    have hrange : sortPairs (maskPairs loads) ∈
        Set.range (List.map fun load : RegMask × U16 => (load.1.value, load.2)) := by
      rw [Set.range_list_map]
      intro pair hpair
      obtain ⟨load, _, hload⟩ := List.mem_map.mp (hperm.mem_iff.mp hpair)
      exact ⟨load, hload⟩
    exact hrange
  rw [← hmap] at hperm hsorted
  refine ⟨sorted, (List.map_perm_map_iff value_injective).mp hperm, hmap.symm, ?_⟩
  exact (List.pairwise_map.mp hsorted).imp fun h => value_le.mp h

/-- The words of a packet, as the machine reads them back from its bytes. -/
theorem words_leWords (words : List U16) :
    ((List.range ((leWords words).length / 2)).map fun i =>
      bigEndian ((leWords words).getD (2 * i + 1) 0) ((leWords words).getD (2 * i) 0)) = words := by
  rw [length_leWords, Nat.mul_div_cancel_left _ Nat.two_pos]
  apply List.ext_getElem
  · simp
  · intro i h₁ h₂
    have hdrop := drop_leWords (List.getElem?_eq_getElem h₂)
    have hget (j : Nat) (hj : j < 2) : (leWords words).getD (2 * i + j) 0 = (leBytes words[i]).getD j 0 := by
      rw [← hdrop, List.getD_eq_getElem?_getD, List.getD_eq_getElem?_getD, List.getElem?_take_of_lt hj,
        List.getElem?_drop]
    rw [List.getElem_map, List.getElem_range, hget 1 (by decide), ← Nat.add_zero (2 * i), hget 0 (by decide)]
    exact bigEndian_bytes _

/-- Loads of registers of which none is named twice happen in the order of their bits. -/
theorem onLmr_sorted {loads : List (RegMask × U16)} (hnodup : (loads.map Prod.fst).Nodup) :
    ∃ sorted : List (RegMask × U16), sorted.Perm loads ∧ (sorted.Pairwise fun p q => p.1.bit < q.1.bit) ∧
      ∀ state, Backend.onLmr (combined (sortPairs (maskPairs loads)))
          (leWords ((sortPairs (maskPairs loads)).map Prod.snd)) state =
        sorted.foldl (fun state load => Backend.loadMasked load.1 load.2 state) state := by
  obtain ⟨sorted, hperm, hsort, hle⟩ := exists_sorted loads
  have hnodup' : (sorted.map Prod.fst).Nodup := (hperm.map Prod.fst).nodup_iff.mpr hnodup
  have hlt : sorted.Pairwise fun p q => p.1.bit < q.1.bit :=
    (hle.and (List.pairwise_map.mp hnodup')).imp fun h => Nat.lt_of_le_of_ne h.1 fun hbit => h.2 (bit_injective hbit)
  refine ⟨sorted, hperm, hlt, fun state => ?_⟩
  have hregs : (RegMask.all.filter fun r => (combined (maskPairs sorted)).getLsbD r.bit) = sorted.map Prod.fst := by
    refine @List.Perm.eq_of_pairwise _ (fun r r' => r.bit < r'.bit) _ _ (fun r r' _ _ h h' => ?_) ?_
      (List.pairwise_map.mpr hlt) ?_
    · exact absurd h (Nat.lt_asymm h')
    · exact (show RegMask.all.Pairwise fun r r' => r.bit < r'.bit by decide).filter _
    · refine (List.perm_ext_iff_of_nodup ?_ hnodup').mpr fun r => ?_
      · exact (show RegMask.all.Nodup by decide).filter _
      · rw [List.mem_filter, getLsbD_combined]
        exact and_iff_right (by cases r <;> decide)
  have hwords : (maskPairs sorted).map Prod.snd = sorted.map Prod.snd := by
    rw [maskPairs, List.map_map]
    rfl
  rw [hsort, Backend.onLmr, hregs, hwords]
  dsimp only
  rw [words_leWords, List.zip_map']
  exact congrArg _ (List.map_id sorted)

end EncodedOp

/-! ## Decoding undoes encoding

For every form of every instruction. -/

open Bts Span EncodedOp

variable {mgr : BufferManager} {s : MachineState}

namespace EncodedOp.Form

theorem mods_of_payload {form : Form} {k : Nat} {data : Immediate} (h : form.payload = some (k, data)) :
    ∃ pre : List U16, pre.length + 1 = k ∧ form.mods = pre ++ data.mods := by
  cases form with
  | aSyn form =>
    cases form <;> cases h
    exact ⟨[], rfl, rfl⟩
  | iSyn form =>
    cases form <;> cases h
    exact ⟨[], rfl, rfl⟩
  | cmpMem form =>
    cases form <;> cases h
    exact ⟨[_, _, _], rfl, rfl⟩
  | setMem x form =>
    cases form <;> cases h
    exact ⟨[_, _, _, _], rfl, rfl⟩
  | setReg kind form =>
    cases form <;> cases h
    exact ⟨[_, _, _], rfl, rfl⟩
  | stepMem form =>
    cases form <;> cases h
    exact ⟨[_, _, _, _, _], rfl, rfl⟩
  | cmpReg form =>
    cases form <;> cases h
    exact ⟨[_, _], rfl, rfl⟩
  | _ => cases h

/-- The payload of an immediate form is where the instruction says. -/
theorem payload_loaded {form : Form} {loc : SegmentPair} (h : Loaded mgr loc form.encode)
    (hlen : form.mods.length ≤ 255) {k : Nat} {data : Immediate} (hdata : form.payload = some (k, data)) :
    bytesAt mgr (loc.skip (2 * (k + 1))) data.size.toNat = some data.octets := by
  obtain ⟨pre, rfl, hmods⟩ := mods_of_payload hdata
  rw [hmods, List.length_append] at hlen
  rw [encode, hmods] at h
  exact h.octets (by omega)

end EncodedOp.Form

namespace Decoder

/-- What cracking the packet of a form may come to, from the machine that fetched it. -/
def Comes (mgr : BufferManager) (loc : SegmentPair) (iop : U16) (form : Form) (s : MachineState) : Prop :=
  ∃ r, crack mgr loc.hi iop form.op s = (some r.1, r.2) ∧
    match form.meaning mgr s loc s.regs.IP with
    | some op => Cracked s op (form.program mgr s.regs) r
    | none => Refused s r

variable {loc : SegmentPair} {iop : U16}

variable {form : Form}

theorem comes_of_cracked {x : DecodeM DecodedOp} {op : DecodedOp} {regs : Registers} (h : Cracked s op regs (x s))
    (hx : crack mgr loc.hi iop form.op = some <$> x) (hregs : form.program mgr s.regs = regs)
    (hop : form.meaning mgr s loc s.regs.IP = some op) : Comes mgr loc iop form s := by
  refine ⟨x s, by rw [hx, States.map_apply], ?_⟩
  rw [hop, hregs]
  exact h

theorem comes_of_refused {x : DecodeM DecodedOp} (h : Refused s (x s)) (hx : crack mgr loc.hi iop form.op = some <$> x)
    (hop : form.meaning mgr s loc s.regs.IP = none) : Comes mgr loc iop form s := by
  refine ⟨x s, by rw [hx, States.map_apply], ?_⟩
  rw [hop]
  exact h

theorem crack_form (h : Fetched mgr loc iop form.mods s) (hloaded : Loaded mgr loc form.encode)
    (hlen : form.mods.length ≤ 255) : Comes mgr loc iop form s := by
  cases form with
  | halt form => exact comes_of_cracked (decodeHalt_cracked h) rfl rfl rfl
  | ret => exact ⟨(_, _), rfl, rfl, rfl, rfl, rfl, rfl⟩
  | invRet => exact ⟨(_, _), rfl, rfl, rfl, rfl, rfl, rfl⟩
  | call form => exact comes_of_cracked (decodeCall_cracked h) rfl rfl rfl
  | invCall form => exact comes_of_cracked (decodeInvCall_cracked h) rfl rfl rfl
  | setMem x form =>
    cases x with
    | false => exact comes_of_cracked (decodeSetmem_cracked .Assign h) rfl rfl rfl
    | true => exact comes_of_cracked (decodeSetmem_cracked .Xor h) rfl rfl rfl
  | setReg kind form =>
    cases kind with
    | Assign => exact comes_of_cracked (decodeDeltareg_cracked .Assign h) rfl rfl rfl
    | Xor => exact comes_of_cracked (decodeDeltareg_cracked .Xor h) rfl rfl rfl
    | Add => exact comes_of_cracked (decodeDeltareg_cracked .Add h) rfl rfl rfl
  | stepMem form => exact comes_of_cracked (decodeStepmem_cracked h) rfl rfl rfl
  | clrMem form => exact comes_of_cracked (decodeClrmem_cracked h) rfl rfl rfl
  | cmpMem form => exact comes_of_cracked (decodeCmpmem_cracked h) rfl rfl rfl
  | cmpReg form => exact comes_of_cracked (decodeCmpreg_cracked h) rfl rfl rfl
  | clrReg form => exact comes_of_cracked (decodeClrreg_cracked h) rfl rfl rfl
  | ldp form => exact comes_of_cracked (decodeLdp_cracked h) rfl rfl rfl
  | accdp ds => exact comes_of_cracked (decodeAccdp_cracked h) rfl rfl rfl
  | incdp dpIncr ds => exact comes_of_cracked (decodeIncdp_cracked h) rfl rfl rfl
  | lmr clrmod pairs | ldr mask value => exact comes_of_cracked (decodeLmr_cracked h hloaded) rfl rfl rfl
  | br op form =>
    obtain ⟨op, hop⟩ := op
    refine comes_of_cracked (decodeBr_cracked hop h) ?_ rfl rfl
    cases op <;> first | rfl | exact absurd hop (by decide)
  | aSyn form =>
    have himmediate (timestamp : Immediate) (hform : form = .of1 timestamp) :=
      @Form.payload_loaded _ _ _ hloaded hlen 1 timestamp (by rw [hform]; rfl)
    cases hdata : form.timestamp mgr s.regs with
    | none => exact comes_of_refused (decodeASyn_refused h hdata) rfl (congrArg (Option.map _) hdata)
    | some bytes =>
      exact comes_of_cracked (decodeASyn_cracked h himmediate hdata) rfl rfl (congrArg (Option.map _) hdata)
  | iSyn form =>
    have himmediate (timestamp : Immediate) (hform : form = .of1 timestamp) :=
      @Form.payload_loaded _ _ _ hloaded hlen 1 timestamp (by rw [hform]; rfl)
    cases hdata : form.timestamp mgr s.regs with
    | none => exact comes_of_refused (decodeISyn_refused h hdata) rfl (congrArg (Option.map _) hdata)
    | some bytes =>
      exact comes_of_cracked (decodeISyn_cracked h himmediate hdata) rfl rfl (congrArg (Option.map _) hdata)
  | setMemDX form =>
    cases hdata : bytesAt mgr s.regs.DP (SETMEMDX_ADDRESS_BYTES + s.regs.DS.toNat) with
    | none => exact comes_of_refused (decodeSetmemdx_refused h hdata) rfl (congrArg (Option.map _) hdata)
    | some bytes =>
      refine comes_of_cracked (decodeSetmemdx_cracked h hdata) rfl ?_ ?_
      · simp only [Form.program, hdata, Option.map_some, Option.getD_some]
      · simp only [Form.meaning, Form.program, hdata, Option.map_some]
  | mmio readWrite access dev =>
    cases hdata : bytesAt mgr s.regs.DP (MMIO_PROLOGUE_BYTES + 1) with
    | none => exact comes_of_refused (decodeMmio_refused h hdata) rfl (congrArg (Option.map _) hdata)
    | some bytes =>
      refine comes_of_cracked (decodeMmio_cracked h hdata) rfl ?_ (congrArg (Option.map _) hdata)
      simp only [Form.program, hdata, Option.map_some, Option.getD_some]

/-- Fetching leaves alone what a packet is about. -/
theorem meaning_fetched (form : Form) (clrmod : Bool) (mods : List U16) (next : SegmentPair) :
    form.meaning mgr (fetched s form.op clrmod mods) loc next = form.meaning mgr s.cleared loc next ∧
      operands (form.program mgr (fetched s form.op clrmod mods).regs) =
        operands (form.program mgr s.cleared.regs) := by
  cases form with
  | cmpMem form => cases form <;> exact ⟨rfl, rfl⟩
  | setMem x form => cases form <;> exact ⟨rfl, rfl⟩
  | setReg kind form => cases form <;> exact ⟨rfl, rfl⟩
  | stepMem form => cases form <;> exact ⟨rfl, rfl⟩
  | setMemDX form => cases form <;> exact ⟨rfl, rfl⟩
  | clrMem form => cases form <;> exact ⟨rfl, rfl⟩
  | cmpReg form => cases form <;> exact ⟨rfl, rfl⟩
  | clrReg form => cases form <;> exact ⟨rfl, rfl⟩
  | ldp form => cases form <;> exact ⟨rfl, rfl⟩
  | _ => exact ⟨rfl, rfl⟩

end Decoder

/-- What decoding makes of a packet at `IP`. Only operands that lie in data which is not there are refused. -/
structure RoundTrips (mgr : BufferManager) (s : MachineState) (form : Form) : Prop where
  ip : (Decoder.decode mgr s).2.regs.IP = s.regs.IP.skip form.encode.length
  decoded : ∀ op, form.meaning mgr s.cleared s.regs.IP (s.regs.IP.skip form.encode.length) = some op →
    (Decoder.decode mgr s).1 = some op ∧
      operands (Decoder.decode mgr s).2.regs = operands (form.program mgr s.cleared.regs) ∧
      (Decoder.decode mgr s).2.csrs.L = s.csrs.L ∧ (Decoder.decode mgr s).2.csrs.CLRMOD = form.clrmod
  refused : form.meaning mgr s.cleared s.regs.IP (s.regs.IP.skip form.encode.length) = none →
    (Decoder.decode mgr s).2.csrs.L = false ∧ (Decoder.decode mgr s).2.csrs.F = true ∧
      (Decoder.decode mgr s).2.regs.STOP_CAUSE = .InvalidDBuffer
  payload : ∀ k data, form.payload = some (k, data) →
    bytesAt mgr (s.regs.IP.skip (2 * (k + 1))) data.size.toNat = some data.octets
  loads : ∀ clrmod loads, form = .lmr clrmod (maskPairs loads) → (loads.map Prod.fst).Nodup →
    ∃ mask data, (Decoder.decode mgr s).1 = some (.lmr mask data) ∧
      ∃ sorted : List (RegMask × U16), sorted.Perm loads ∧ (sorted.Pairwise fun p q => p.1.bit < q.1.bit) ∧
        ∀ state, Backend.onLmr mask data state =
          sorted.foldl (fun state load => Backend.loadMasked load.1 load.2 state) state

theorem Decoder.decode_form {form : Form} (h : Loaded mgr s.regs.IP form.encode)
    (heven : s.regs.IP.lo.getLsbD 0 = false) (hlen : form.mods.length ≤ 255) :
    ∃ r, decode mgr s = (some r.1, r.2) ∧
      match form.meaning mgr s.cleared s.regs.IP (s.regs.IP.skip form.encode.length) with
      | some op => Cracked (fetched s form.op form.clrmod form.mods) op (form.program mgr s.cleared.regs) r
      | none => Refused (fetched s form.op form.clrmod form.mods) r := by
  have hfetched := fetched_of_loaded h hlen
  obtain ⟨r, hr, hcomes⟩ := crack_form hfetched h hlen
  refine ⟨r, (decode_eq h heven hlen).trans hr, ?_⟩
  rw [hfetched.ip, ← length_encodeOp form.op form.clrmod form.mods] at hcomes
  obtain ⟨hmeaning, hprogram⟩ := @meaning_fetched mgr s s.regs.IP form form.clrmod form.mods
    (s.regs.IP.skip form.encode.length)
  change match form.meaning mgr (fetched s form.op form.clrmod form.mods) s.regs.IP
    (s.regs.IP.skip form.encode.length) with | some op => _ | none => _ at hcomes
  rw [hmeaning] at hcomes
  split at hcomes
  · exact ⟨hcomes.op, hcomes.ip, hcomes.operands.trans hprogram, hcomes.live, hcomes.clrmod⟩
  · exact hcomes

theorem Decoder.cleared_live (s : MachineState) : s.cleared.csrs.L = s.csrs.L := by
  rw [MachineState.cleared]
  split <;> rfl

/-- Decoding a packet steps `IP` past it and brings back the instruction it was encoded from. -/
theorem EncodedOp.Form.roundTrips (form : Form) (h : Loaded mgr s.regs.IP form.encode)
    (heven : s.regs.IP.lo.getLsbD 0 = false) (hlen : form.mods.length ≤ 255) : RoundTrips mgr s form := by
  have hfetched := Decoder.fetched_of_loaded h hlen
  have hip := hfetched.ip
  rw [← length_encodeOp form.op form.clrmod form.mods] at hip
  obtain ⟨r, hr, hcomes⟩ := Decoder.decode_form h heven hlen
  have hlmr (clrmod : Bool) (pairs : List (U16 × U16)) (hform : form = .lmr clrmod pairs) :
      r.1 = .lmr (combined (sortPairs pairs)) (leWords ((sortPairs pairs).map Prod.snd)) := by
    subst hform
    exact hcomes.op
  refine ⟨?_, fun op hop => ?_, fun hnone => ?_, fun k data => payload_loaded h hlen,
    fun clrmod loads hform hnodup => ?_⟩
  · rw [hr]
    split at hcomes
    · exact hcomes.ip.trans hip
    · exact hcomes.ip.trans hip
  · rw [hop] at hcomes
    rw [hr]
    exact ⟨congrArg some hcomes.op, hcomes.operands, hcomes.live.trans (Decoder.cleared_live s), hcomes.clrmod⟩
  · rw [hnone] at hcomes
    rw [hr]
    exact ⟨hcomes.live, hcomes.failed, hcomes.cause⟩
  · obtain ⟨sorted, hperm, hsorted, hloads⟩ := onLmr_sorted hnodup
    exact ⟨_, _, by rw [hr, hlmr clrmod _ hform], sorted, hperm, hsorted, hloads⟩

/-- A stencil's offset and payload are 256 bytes into their buffer, the packet is at its start. -/
theorem EncodedOp.Form.roundTrips_setMemDX :
    let form : Form := .setMemDX (.of2 3 7)
    let mgr : BufferManager :=
      ⟨2, fun _ => ⟨true, 0, ⟨0, overwrite (overwrite (fun _ => 0) 256 [1, 0, 2, 0, 9]) 0 form.encode⟩⟩, []⟩
    let s : MachineState :=
      ⟨Flags.default, { Registers.default with IP := ⟨1, 0⟩, DP := ⟨1, 256⟩, DS := 1 }, fun _ => 0⟩
    RoundTrips mgr s form ∧ form.meaning mgr s.cleared s.regs.IP (s.regs.IP.skip 6) =
      some (.deltaMem ⟨.Xor, Operation.ofU16 3, 7, 0x10002, ⟨1, 260⟩, 1, .LittleEndian⟩) :=
  ⟨roundTrips _ rfl rfl (Nat.le_add_left 2 253), rfl⟩

/-- Without the data there is no such instruction, and what comes out names no device. -/
theorem EncodedOp.Form.not_roundTrips_without_data :
    let form : Form := .setMemDX (.of2 3 7)
    let mgr : BufferManager := ⟨2, fun _ => ⟨true, 0, ⟨0, overwrite (fun _ => 0) 0 form.encode⟩⟩, []⟩
    let s : MachineState := ⟨Flags.default, { Registers.default with IP := ⟨1, 0⟩ }, fun _ => 0⟩
    Loaded mgr s.regs.IP form.encode ∧ s.csrs.L = true ∧
      (Decoder.decode mgr s).1 =
        some (.deltaMem ⟨.Xor, Operation.ofU16 0, 0, 0, Inhabited.default, 0, .LittleEndian⟩) ∧
      (Decoder.decode mgr s).2.csrs.L = false :=
  ⟨rfl, rfl, rfl, rfl⟩

end Pepp.Tvm
