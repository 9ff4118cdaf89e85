import Mathlib.Data.List.Dedup
import Pepp.Integers
import Pepp.Lib.Algorithms

/-!
# Path identifiers

A path is a step over a device behind another path. The steps over a device are
sorted by the path in front of them and found by a binary search, which stops at
the first step that is not in front of the one searched for, whether it is that
one or not.
-/

namespace Pepp.Trace

open Algorithms (StdSort partitionPoint_spec)

/-- A step by the path in front of it. -/
structure PathHandle where
  previousStep : U16
  stepIndex : U16
  deriving DecidableEq, Repr

structure Step where
  previousStep : U16
  currentStep : U16
  device : U16
  deriving DecidableEq, Repr

structure Paths where
  steps : List Step
  deviceToPaths : List (List PathHandle)
  deriving DecidableEq, Repr

namespace Paths

def EMPTY : U16 := 0

def empty : Paths := ⟨[⟨EMPTY, EMPTY, 0⟩], [[⟨EMPTY, 0⟩]]⟩

/-- `H::operator<` -/
def ahead (a b : PathHandle) : Bool := decide (a.previousStep.toNat < b.previousStep.toNat)

/-- What is found is not compared with what was searched for. -/
def find (self : Paths) (parent device : U16) : Option U16 :=
  match self.deviceToPaths[device.toNat]? with
  | none => some EMPTY
  | some paths =>
    match paths[Algorithms.lowerBound (fun h => h.previousStep.toNat) parent.toNat paths]? with
    | some it => self.steps[it.stepIndex.toNat]?.map Step.currentStep
    | none => some EMPTY

/-- The steps over a device. -/
def onDevice (self : Paths) (device : U16) : List PathHandle := self.deviceToPaths[device.toNat]?.getD []

/-- The size is the new identifier. -/
def current (self : Paths) : U16 := .ofNat 16 self.steps.length

/-- A new step behind the parent, with its handle among those of the device. -/
def insert (std : StdSort) (self : Paths) (parent device : U16) : Paths where
  steps := self.steps ++ [⟨parent, self.current, device⟩]
  deviceToPaths :=
    (self.deviceToPaths ++ List.replicate (device.toNat + 1 - self.deviceToPaths.length) []).set device.toNat
      (std.sort ahead (self.onDevice device ++ [PathHandle.mk parent self.current]))

/-- The identifier of a path; no result stands for an access out of range. -/
def add (std : StdSort) (self : Paths) (parent device : U16) : Option (U16 × Paths) :=
  match self.find parent device with
  | none => none
  | some tmp => if tmp ≠ EMPTY then some (tmp, self) else some (self.current, self.insert std parent device)

/-- The identifiers that a sequence of calls gives. -/
def addAll (std : StdSort) : Paths → List (U16 × U16) → Option (List U16 × Paths)
  | self, [] => some ([], self)
  | self, (parent, device) :: calls =>
    match self.add std parent device with
    | none => none
    | some (id, self') => (addAll std self' calls).map fun found => (id :: found.1, found.2)

/-- The devices of a path, the last one first, as its steps are followed to the root. -/
def chase (self : Paths) : Nat → U16 → Option (List U16)
  | 0, _ => none
  | turns + 1, id =>
    if id = EMPTY then some []
    else
      match self.steps[id.toNat]? with
      | none => none
      | some step => (self.chase turns step.previousStep).map fun devices => step.device :: devices

/-! ## Searching -/

/-- The first of the handles whose path is not in front of the parent. -/
structure FirstFrom (l : List PathHandle) (parent : U16) (h : PathHandle) : Prop where
  mem : h ∈ l
  le : parent.toNat ≤ h.previousStep.toNat
  first : ∀ h' ∈ l, parent.toNat ≤ h'.previousStep.toNat → h.previousStep.toNat ≤ h'.previousStep.toNat

theorem lowerBound_cases {l : List PathHandle} (hl : l.Pairwise fun a b => a.previousStep.toNat < b.previousStep.toNat)
    (parent : U16) :
    (∃ h, l[Algorithms.lowerBound (fun h => h.previousStep.toNat) parent.toNat l]? = some h ∧ FirstFrom l parent h) ∨
      (l[Algorithms.lowerBound (fun h => h.previousStep.toNat) parent.toNat l]? = none ∧
        ∀ h ∈ l, h.previousStep.toNat < parent.toNat) := by
  have hspec : ∀ i (hi : i < l.length), i < Algorithms.lowerBound (fun h => h.previousStep.toNat) parent.toNat l ↔
      l[i].previousStep.toNat < parent.toNat := by
    intro i hi
    refine (partitionPoint_spec (hl.imp fun hab hb => ?_) i hi).trans decide_eq_true_iff
    exact decide_eq_true (hab.trans (of_decide_eq_true hb))
  obtain hlt | hle := Nat.lt_or_ge (Algorithms.lowerBound (fun h => h.previousStep.toNat) parent.toNat l) l.length
  · refine .inl ⟨_, List.getElem?_eq_getElem hlt, List.getElem_mem hlt, ?_, ?_⟩
    · exact Nat.not_lt.mp ((hspec _ hlt).not.mp (Nat.lt_irrefl _))
    · intro h' hh' hle
      obtain ⟨j, hj, rfl⟩ := List.getElem_of_mem hh'
      have hnot := (hspec j hj).not.mpr (Nat.not_lt.mpr hle)
      obtain heq | hlt' := Nat.eq_or_lt_of_le (Nat.not_lt.mp hnot)
      · exact le_of_eq (by simp only [heq])
      · exact (List.pairwise_iff_getElem.mp hl _ _ hlt hj hlt').le
  · refine .inr ⟨List.getElem?_eq_none hle, fun h hh => ?_⟩
    obtain ⟨j, hj, rfl⟩ := List.getElem_of_mem hh
    exact (hspec j hj).mp (hj.trans_le hle)

/-! ## What is kept -/

/-- What holds after some calls with the identifiers that they gave, whatever the order of the calls. -/
structure Kept (log : List ((U16 × U16) × U16)) (paths : Paths) : Prop where
  sorted : ∀ device, (paths.onDevice device).Pairwise fun a b => a.previousStep.toNat < b.previousStep.toNat
  root : paths.onDevice 0 = [⟨EMPTY, 0⟩] ∧ paths.steps[0]? = some ⟨EMPTY, EMPTY, 0⟩
  /-- A handle leads to its step, which was made by a call. -/
  stored : ∀ device, device ≠ 0 → ∀ h ∈ paths.onDevice device, h.stepIndex ≠ EMPTY ∧
    paths.steps[h.stepIndex.toNat]? = some ⟨h.previousStep, h.stepIndex, device⟩ ∧
      ((h.previousStep, device), h.stepIndex) ∈ log
  /-- A call gave the identifier of a handle that is not in front of its parent. -/
  given : ∀ parent device id, ((parent, device), id) ∈ log →
    ∃ h ∈ paths.onDevice device, h.stepIndex = id ∧ parent.toNat ≤ h.previousStep.toNat
  indexed : ∀ step ∈ paths.steps.tail, ⟨step.previousStep, step.currentStep⟩ ∈ paths.onDevice step.device
  fresh : (paths.steps.tail.map fun step => (step.previousStep, step.device)).Nodup
  logged : ∀ step ∈ paths.steps.tail, (step.previousStep, step.device) ∈ log.map Prod.fst

theorem kept_empty : Kept [] empty := by
  have hover : ∀ device : U16, empty.onDevice device = if device = 0 then [⟨EMPTY, 0⟩] else [] := by
    intro device
    split
    · next h =>
      subst h
      rfl
    · next h =>
      have hpos : 1 ≤ device.toNat := Nat.one_le_iff_ne_zero.mpr fun h0 => h (BitVec.eq_of_toNat_eq h0)
      rw [onDevice, empty, List.getElem?_eq_none hpos]
      rfl
  refine ⟨?_, ⟨rfl, rfl⟩, ?_, fun _ _ _ hmem => absurd hmem List.not_mem_nil,
    fun _ hmem => absurd hmem List.not_mem_nil, List.nodup_nil, fun _ hmem => absurd hmem List.not_mem_nil⟩
  · intro device
    rw [hover]
    split
    · exact List.pairwise_singleton _ _
    · exact List.Pairwise.nil
  · intro device hdevice h hh
    rw [hover, if_neg hdevice] at hh
    exact absurd hh List.not_mem_nil

theorem find_cases {log : List ((U16 × U16) × U16)} {self : Paths} (h : Kept log self) (parent device : U16) :
    (∃ handle, FirstFrom (self.onDevice device) parent handle ∧ self.find parent device = some handle.stepIndex) ∨
      (∀ handle ∈ self.onDevice device, handle.previousStep.toNat < parent.toNat) ∧
        self.find parent device = some EMPTY := by
  have hsorted := h.sorted device
  have hstep : ∀ handle ∈ self.onDevice device, (self.steps[handle.stepIndex.toNat]?).map Step.currentStep =
      some handle.stepIndex := by
    intro handle hmem
    by_cases hdevice : device = 0
    · subst hdevice
      rw [h.root.1, List.mem_singleton] at hmem
      subst hmem
      exact congrArg (Option.map Step.currentStep) h.root.2
    · rw [(h.stored device hdevice handle hmem).2.1]
      rfl
  rw [find]
  cases hover : self.deviceToPaths[device.toNat]? with
  | none =>
    refine .inr ⟨fun handle hmem => ?_, rfl⟩
    rw [onDevice, hover] at hmem
    exact absurd hmem List.not_mem_nil
  | some paths =>
    have heq : self.onDevice device = paths := by
      rw [onDevice, hover]
      rfl
    rw [heq] at hsorted hstep ⊢
    dsimp only
    obtain ⟨handle, hget, hfirst⟩ | ⟨hget, hall⟩ := lowerBound_cases hsorted parent
    · rw [hget]
      exact .inl ⟨handle, hfirst, hstep handle hfirst.mem⟩
    · rw [hget]
      exact .inr ⟨hall, rfl⟩

/-! ## Adding -/

variable {std : StdSort} {log : List ((U16 × U16) × U16)} {self : Paths} {parent device : U16}

/-- The handles of the other devices stay. -/
theorem onDevice_insert (device' : U16) : (self.insert std parent device).onDevice device' =
    if device' = device then std.sort ahead (self.onDevice device ++ [PathHandle.mk parent self.current])
    else self.onDevice device' := by
  have hlength : device.toNat <
      (self.deviceToPaths ++ List.replicate (device.toNat + 1 - self.deviceToPaths.length) []).length := by
    rw [List.length_append, List.length_replicate]
    omega
  rw [onDevice, insert]
  split
  · next h =>
    rw [h, List.getElem?_set_self hlength]
    rfl
  · next h =>
    have hne : device.toNat ≠ device'.toNat := fun heq => h (BitVec.eq_of_toNat_eq heq.symm)
    rw [List.getElem?_set_ne hne, List.getElem?_append, onDevice]
    split
    · rfl
    · next hge =>
      rw [List.getElem?_replicate, List.getElem?_eq_none (Nat.not_lt.mp hge)]
      split <;> rfl

theorem mem_sort (l : List PathHandle) (h : PathHandle) : h ∈ std.sort ahead l ↔ h ∈ l := (std.perm ahead l).mem_iff

theorem sorted_sort {l : List PathHandle} (hl : l.Pairwise fun a b => a.previousStep.toNat ≠ b.previousStep.toNat) :
    (std.sort ahead l).Pairwise fun a b => a.previousStep.toNat < b.previousStep.toNat := by
  have hle := std.sorted (fun h : PathHandle => h.previousStep.toNat) ahead l fun a b => decide_eq_true_iff
  have hne : (std.sort ahead l).Pairwise fun a b => a.previousStep.toNat ≠ b.previousStep.toNat :=
    ((std.perm ahead l).pairwise_iff fun hab => hab.symm).mpr hl
  exact hle.imp₂ (fun _ _ hle hne => Nat.lt_of_le_of_ne hle hne) hne

section

variable (h : Kept log self) (hall : ∀ handle ∈ self.onDevice device, handle.previousStep.toNat < parent.toNat)
include h hall

/-- A pair behind all those of its device has no step. -/
theorem Kept.not_mem_steps : (parent, device) ∉ self.steps.tail.map fun step => (step.previousStep, step.device) := by
  intro hmem
  obtain ⟨step, hstep, heq⟩ := List.mem_map.mp hmem
  obtain ⟨rfl, rfl⟩ := Prod.mk.inj heq
  exact Nat.lt_irrefl _ (hall _ (h.indexed step hstep))

theorem Kept.nodup_steps :
    ((self.steps.tail.map fun step => (step.previousStep, step.device)) ++ [(parent, device)]).Nodup := by
  refine List.nodup_append.mpr ⟨h.fresh, List.nodup_singleton _, ?_⟩
  rintro pair hpair pair' hpair' rfl
  rw [List.mem_singleton.mp hpair'] at hpair
  exact h.not_mem_steps hall hpair

/-- Every step was made by the call of another pair. -/
theorem Kept.steps_le : self.steps.length ≤ (log.map Prod.fst ++ [(parent, device)]).dedup.length := by
  have hsubset : (self.steps.tail.map fun step => (step.previousStep, step.device)) ++ [(parent, device)] ⊆
      (log.map Prod.fst ++ [(parent, device)]).dedup := by
    intro pair hpair
    refine List.mem_dedup.mpr ?_
    obtain hpair | hpair := List.mem_append.mp hpair
    · obtain ⟨step, hstep, rfl⟩ := List.mem_map.mp hpair
      exact List.mem_append_left _ (h.logged step hstep)
    · exact List.mem_append_right _ hpair
  have hle := ((h.nodup_steps hall).subperm hsubset).length_le
  rw [List.length_append, List.length_map, List.length_tail, List.length_singleton] at hle
  omega

end

/-- A call gives what is found, or a new step behind the parent. -/
theorem Kept.add_cases (h : Kept log self) (hdevice : device ≠ 0) :
    (∃ handle, FirstFrom (self.onDevice device) parent handle ∧
      self.add std parent device = some (handle.stepIndex, self)) ∨
    (∀ handle ∈ self.onDevice device, handle.previousStep.toNat < parent.toNat) ∧
      self.add std parent device = some (self.current, self.insert std parent device) := by
  obtain ⟨handle, hfirst, hfind⟩ | ⟨hall, hfind⟩ := find_cases h parent device
  · refine .inl ⟨handle, hfirst, ?_⟩
    rw [add, hfind]
    exact if_pos (h.stored device hdevice handle hfirst.mem).1
  · refine .inr ⟨hall, ?_⟩
    rw [add, hfind]
    exact if_neg (not_not.mpr rfl)

/-- What is found has a call of its own. -/
theorem Kept.found (h : Kept log self) {handle : PathHandle} (hfirst : FirstFrom (self.onDevice device) parent handle) :
    Kept (log ++ [((parent, device), handle.stepIndex)]) self := by
  refine ⟨h.sorted, h.root, ?_, ?_, h.indexed, h.fresh, ?_⟩
  · intro device' hdevice' handle' hmem
    obtain ⟨hne, hstep, hlog⟩ := h.stored device' hdevice' handle' hmem
    exact ⟨hne, hstep, List.mem_append_left _ hlog⟩
  · intro parent' device' id hmem
    obtain hmem | hnew := List.mem_append.mp hmem
    · exact h.given parent' device' id hmem
    · cases List.mem_singleton.mp hnew
      exact ⟨handle, hfirst.mem, rfl, hfirst.le⟩
  · intro step hstep
    rw [List.map_append]
    exact List.mem_append_left _ (h.logged step hstep)

/-- A new step behind all those over its device. -/
theorem Kept.inserted (h : Kept log self) (hdevice : device ≠ 0)
    (hall : ∀ handle ∈ self.onDevice device, handle.previousStep.toNat < parent.toNat)
    (hsmall : self.steps.length < 65536) :
    Kept (log ++ [((parent, device), self.current)]) (self.insert std parent device) := by
  have hsteps : self.steps ≠ [] := by
    intro hnil
    have hstart := h.root.2
    rw [hnil] at hstart
    cases hstart
  have hcurrent : self.current.toNat = self.steps.length := by
    rw [current, BitVec.toNat_ofNat, Nat.mod_eq_of_lt hsmall]
  have hmem : ∀ handle, handle ∈ (self.insert std parent device).onDevice device ↔
      handle ∈ self.onDevice device ∨ handle = ⟨parent, self.current⟩ := by
    intro handle
    rw [onDevice_insert, if_pos rfl, mem_sort, List.mem_append, List.mem_singleton]
  have hother : ∀ device', device' ≠ device →
      (self.insert std parent device).onDevice device' = self.onDevice device' :=
    fun device' hne => (onDevice_insert device').trans (if_neg hne)
  have htail : (self.insert std parent device).steps.tail = self.steps.tail ++ [⟨parent, self.current, device⟩] := by
    rw [insert, List.tail_append_of_ne_nil hsteps]
  refine ⟨?_, ?_, ?_, ?_, ?_, ?_, ?_⟩
  · intro device'
    rw [onDevice_insert]
    split
    · refine sorted_sort (List.pairwise_append.mpr ⟨?_, List.pairwise_singleton _ _, ?_⟩)
      · exact (h.sorted device).imp fun hlt => Nat.ne_of_lt hlt
      · intro a ha b hb
        rw [List.mem_singleton.mp hb]
        exact Nat.ne_of_lt (hall a ha)
    · exact h.sorted device'
  · rw [hother 0 hdevice.symm]
    refine ⟨h.root.1, ?_⟩
    rw [insert, List.getElem?_append_left (List.length_pos_of_ne_nil hsteps)]
    exact h.root.2
  · intro device' hdevice' handle hhandle
    have hold : ∀ handle ∈ self.onDevice device', handle.stepIndex ≠ EMPTY ∧
        (self.insert std parent device).steps[handle.stepIndex.toNat]? =
          some ⟨handle.previousStep, handle.stepIndex, device'⟩ ∧
        ((handle.previousStep, device'), handle.stepIndex) ∈ log ++ [((parent, device), self.current)] := by
      intro handle hhandle
      obtain ⟨hne, hstep, hlog⟩ := h.stored device' hdevice' handle hhandle
      obtain ⟨hlt, -⟩ := List.getElem?_eq_some_iff.mp hstep
      refine ⟨hne, ?_, List.mem_append_left _ hlog⟩
      rw [insert, List.getElem?_append_left hlt]
      exact hstep
    by_cases hsame : device' = device
    · subst hsame
      obtain hhandle | rfl := (hmem handle).mp hhandle
      · exact hold handle hhandle
      · refine ⟨?_, ?_, List.mem_append_right _ List.mem_cons_self⟩
        · intro hempty
          have hzero := congrArg BitVec.toNat hempty
          rw [hcurrent] at hzero
          exact hsteps (List.length_eq_zero_iff.mp hzero)
        · rw [insert, hcurrent, List.getElem?_concat_length]
    · rw [hother device' hsame] at hhandle
      exact hold handle hhandle
  · intro parent' device' id hlog
    obtain hlog | hnew := List.mem_append.mp hlog
    · obtain ⟨handle, hhandle, hid, hle⟩ := h.given parent' device' id hlog
      by_cases hsame : device' = device
      · subst hsame
        exact ⟨handle, (hmem handle).mpr (.inl hhandle), hid, hle⟩
      · exact ⟨handle, (hother device' hsame).symm ▸ hhandle, hid, hle⟩
    · cases List.mem_singleton.mp hnew
      exact ⟨⟨parent, self.current⟩, (hmem _).mpr (.inr rfl), rfl, le_rfl⟩
  · intro step hstep
    rw [htail] at hstep
    obtain hstep | hnew := List.mem_append.mp hstep
    · have hhandle := h.indexed step hstep
      by_cases hsame : step.device = device
      · rw [hsame] at hhandle ⊢
        exact (hmem _).mpr (.inl hhandle)
      · rw [hother _ hsame]
        exact hhandle
    · cases List.mem_singleton.mp hnew
      exact (hmem _).mpr (.inr rfl)
  · rw [htail, List.map_append]
    exact h.nodup_steps hall
  · intro step hstep
    rw [htail] at hstep
    rw [List.map_append]
    obtain hstep | hnew := List.mem_append.mp hstep
    · exact List.mem_append_left _ (h.logged step hstep)
    · cases List.mem_singleton.mp hnew
      exact List.mem_append_right _ List.mem_cons_self

/-! ## Runs -/

/-- A pair was added before, or it is behind all those of its device. -/
def Ascending (before : List (U16 × U16)) (parent device : U16) : Prop :=
  (parent, device) ∈ before ∨ ∀ other, (other, device) ∈ before → other.toNat < parent.toNat

/-- Every call is ascending in the calls before it. -/
def Ordered : List (U16 × U16) → List (U16 × U16) → Prop
  | _, [] => True
  | before, call :: calls => Ascending before call.1 call.2 ∧ Ordered (before ++ [call]) calls

/-- The handles are those of the pairs that were added. -/
def Exact (log : List ((U16 × U16) × U16)) (paths : Paths) : Prop :=
  ∀ parent device id, ((parent, device), id) ∈ log → ⟨parent, id⟩ ∈ paths.onDevice device

/-- Calls give the same identifier exactly if they are of the same pair. -/
def Distinct (log : List ((U16 × U16) × U16)) : Prop := ∀ a ∈ log, ∀ b ∈ log, a.2 = b.2 ↔ a.1 = b.1

theorem Distinct.of_append {tail : List ((U16 × U16) × U16)} (h : Distinct (log ++ tail)) : Distinct log :=
  fun a ha b hb => h a (List.mem_append_left _ ha) b (List.mem_append_left _ hb)

theorem Kept.eq_of_prev (h : Kept log self) {a b : PathHandle} (ha : a ∈ self.onDevice device)
    (hb : b ∈ self.onDevice device) (heq : a.previousStep = b.previousStep) : a = b := by
  obtain ⟨i, hi, rfl⟩ := List.getElem_of_mem ha
  obtain ⟨j, hj, rfl⟩ := List.getElem_of_mem hb
  have hpair := List.pairwise_iff_getElem.mp (h.sorted device)
  obtain hlt | rfl | hgt := Nat.lt_trichotomy i j
  · exact absurd (hpair i j hi hj hlt) (by rw [heq]; exact Nat.lt_irrefl _)
  · rfl
  · exact absurd (hpair j i hj hi hgt) (by rw [heq]; exact Nat.lt_irrefl _)

/-- One call: what is kept, and which pairs it can tell apart. -/
theorem Kept.add_step (h : Kept log self) (hdevice : device ≠ 0)
    (hfew : (log.map Prod.fst ++ [(parent, device)]).dedup.length < 65536) :
    ∃ id self', self.add std parent device = some (id, self') ∧ Kept (log ++ [((parent, device), id)]) self' ∧
      (Distinct (log ++ [((parent, device), id)]) → Ascending (log.map Prod.fst) parent device) ∧
      (Ascending (log.map Prod.fst) parent device → Exact log self →
        Exact (log ++ [((parent, device), id)]) self') := by
  obtain ⟨handle, hfirst, hadd⟩ | ⟨hall, hadd⟩ := @Kept.add_cases std log self parent device h hdevice
  · have hlog := (h.stored device hdevice handle hfirst.mem).2.2
    refine ⟨_, _, hadd, h.found hfirst, ?_, ?_⟩
    · intro hdistinct
      have hsame := (hdistinct _ (List.mem_append_right _ List.mem_cons_self) _ (List.mem_append_left _ hlog)).mp rfl
      exact .inl (List.mem_map.mpr ⟨_, hlog, hsame.symm⟩)
    · intro hascending hexact parent' device' id hmem
      obtain hmem | hnew := List.mem_append.mp hmem
      · exact hexact parent' device' id hmem
      · cases List.mem_singleton.mp hnew
        obtain hadded | hbehind := hascending
        · obtain ⟨⟨pair, id⟩, hmem', rfl⟩ := List.mem_map.mp hadded
          have hhandle := hexact _ _ _ hmem'
          have hle := hfirst.first _ hhandle le_rfl
          have heq : handle.previousStep = parent := BitVec.eq_of_toNat_eq (Nat.le_antisymm hle hfirst.le)
          rw [← heq]
          exact hfirst.mem
        · exact absurd (hbehind _ (List.mem_map.mpr ⟨_, hlog, rfl⟩)) (Nat.not_lt.mpr hfirst.le)
  · have hsmall : self.steps.length < 65536 := (h.steps_le hall).trans_lt hfew
    refine ⟨_, _, hadd, h.inserted hdevice hall hsmall, ?_, ?_⟩
    · intro _
      refine .inr fun other hother => ?_
      obtain ⟨⟨pair, id⟩, hmem, rfl⟩ := List.mem_map.mp hother
      obtain ⟨handle, hhandle, -, hle⟩ := h.given _ _ _ hmem
      exact hle.trans_lt (hall handle hhandle)
    · intro _ hexact parent' device' id hmem
      rw [onDevice_insert]
      obtain hold | hnew := List.mem_append.mp hmem
      · split
        · next hsame =>
          subst hsame
          exact (mem_sort _ _).mpr (List.mem_append_left _ (hexact _ _ _ hold))
        · exact hexact _ _ _ hold
      · cases List.mem_singleton.mp hnew
        rw [if_pos rfl]
        exact (mem_sort _ _).mpr (List.mem_append_right _ List.mem_cons_self)

theorem Kept.run (calls : List (U16 × U16)) (h : Kept log self) (hdevices : ∀ call ∈ calls, call.2 ≠ 0)
    (hfew : (log.map Prod.fst ++ calls).dedup.length < 65536) :
    ∃ ids self', addAll std self calls = some (ids, self') ∧ ids.length = calls.length ∧
      Kept (log ++ calls.zip ids) self' ∧
      (Distinct (log ++ calls.zip ids) → Ordered (log.map Prod.fst) calls) ∧
      (Ordered (log.map Prod.fst) calls → Exact log self → Exact (log ++ calls.zip ids) self') := by
  induction calls generalizing log self with
  | nil => exact ⟨[], self, rfl, rfl, by rwa [List.zip_nil_left, List.append_nil], fun _ => trivial,
      fun _ hexact => by rwa [List.zip_nil_left, List.append_nil]⟩
  | cons call calls ih =>
    obtain ⟨parent, device⟩ := call
    have hfirst : (log.map Prod.fst ++ [(parent, device)]).dedup.length < 65536 := by
      refine Nat.lt_of_le_of_lt ?_ hfew
      refine ((List.nodup_dedup _).subperm ?_).length_le
      intro pair hpair
      rw [List.mem_dedup] at hpair ⊢
      rw [List.append_cons]
      exact List.mem_append_left _ hpair
    obtain ⟨id, self', hadd, hkept, hdistinct, hexact⟩ :=
      @Kept.add_step std log self parent device h (hdevices _ List.mem_cons_self) hfirst
    have hmap : (log ++ [((parent, device), id)]).map Prod.fst = log.map Prod.fst ++ [(parent, device)] := by
      rw [List.map_append]
      rfl
    have hfew' : ((log ++ [((parent, device), id)]).map Prod.fst ++ calls).dedup.length < 65536 := by
      rw [hmap, List.append_assoc]
      exact hfew
    obtain ⟨ids, self'', hrun, hlength, hkept', hdistinct', hexact'⟩ :=
      ih hkept (fun call hcall => hdevices call (List.mem_cons_of_mem _ hcall)) hfew'
    rw [List.append_assoc, List.singleton_append] at hkept' hdistinct' hexact'
    rw [hmap] at hdistinct' hexact'
    refine ⟨id :: ids, self'', ?_, congrArg Nat.succ hlength, hkept', ?_, ?_⟩
    · rw [addAll, hadd]
      dsimp only
      rw [hrun]
      rfl
    · intro hall
      refine ⟨hdistinct ?_, hdistinct' hall⟩
      rw [List.zip_cons_cons, List.append_cons] at hall
      exact hall.of_append
    · rintro ⟨hascending, hordered⟩ hexact₀
      exact hexact' hordered (hexact hascending hexact₀)

/-! ## Paths of an exact run -/

/-- The parent of a call is the root or an identifier that an earlier call gave. -/
def Rooted (calls : List (U16 × U16)) (ids : List U16) : Prop :=
  ∀ i (hi : i < calls.length), calls[i].1 = EMPTY ∨ ∃ j < i, ids[j]? = some calls[i].1

/-- The devices of the path that an identifier was given for, the last one first. -/
inductive Built (log : List ((U16 × U16) × U16)) : U16 → List U16 → Prop where
  | root : Built log EMPTY []
  | step {parent device id : U16} {devices : List U16} (h : ((parent, device), id) ∈ log)
    (hparent : Built log parent devices) : Built log id (device :: devices)

/-- What calls and a query tell about paths is right. -/
structure Faithful (log : List ((U16 × U16) × U16)) (paths : Paths) (parent device : U16) : Prop where
  distinct : Distinct log
  found : ∀ id, ((parent, device), id) ∈ log → paths.find parent device = some id
  missing : (∀ id, ((parent, device), id) ∉ log) → paths.find parent device = some EMPTY
  built : ∀ pair id, (pair, id) ∈ log → ∃ devices, Built log id devices
  chased : ∀ id devices, Built log id devices → paths.chase (devices.length + 1) id = some devices

theorem Exact.distinct (h : Kept log self) (hexact : Exact log self) (hdevices : ∀ entry ∈ log, entry.1.2 ≠ 0) :
    Distinct log := by
  rintro ⟨⟨parent, device⟩, id⟩ ha ⟨⟨parent', device'⟩, id'⟩ hb
  have hhandle := hexact _ _ _ ha
  have hhandle' := hexact _ _ _ hb
  constructor
  · intro hid
    have hstep := (h.stored device (hdevices _ ha) _ hhandle).2.1
    have hstep' := (h.stored device' (hdevices _ hb) _ hhandle').2.1
    dsimp only at hid hstep hstep'
    rw [hid, hstep'] at hstep
    obtain ⟨hparent, -, hdevice⟩ := Step.mk.inj (Option.some_inj.mp hstep)
    rw [hparent, hdevice]
  · intro hpair
    obtain ⟨rfl, rfl⟩ := Prod.mk.inj hpair
    exact (PathHandle.mk.inj (h.eq_of_prev hhandle hhandle' rfl)).2

theorem Exact.find (h : Kept log self) (hexact : Exact log self) {id : U16} (hmem : ((parent, device), id) ∈ log) :
    self.find parent device = some id := by
  have hhandle := hexact _ _ _ hmem
  obtain ⟨handle, hfirst, hfind⟩ | ⟨hall, -⟩ := find_cases h parent device
  · have hle := hfirst.first _ hhandle le_rfl
    have heq := BitVec.eq_of_toNat_eq (Nat.le_antisymm hle hfirst.le)
    rw [hfind, h.eq_of_prev hfirst.mem hhandle heq]
  · exact absurd (hall _ hhandle) (Nat.lt_irrefl _)

/-- An identifier of a run is that of a path. -/
theorem exists_built {calls : List (U16 × U16)} {ids : List U16} (hlength : ids.length = calls.length)
    (hrooted : Rooted calls ids) (i : Nat) (hi : i < ids.length) : ∃ devices, Built (calls.zip ids) ids[i] devices := by
  induction i using Nat.strongRecOn with
  | ind i ih =>
    have hi' : i < calls.length := hlength ▸ hi
    have hmem : ((calls[i].1, calls[i].2), ids[i]) ∈ calls.zip ids := by
      have hzip : i < (calls.zip ids).length := by
        rw [List.length_zip]
        omega
      rw [← List.getElem_zip (h := hzip)]
      exact List.getElem_mem hzip
    obtain hroot | ⟨j, hj, hget⟩ := hrooted i hi'
    · rw [hroot] at hmem
      exact ⟨_, .step hmem .root⟩
    · obtain ⟨hj', hparent⟩ := List.getElem?_eq_some_iff.mp hget
      obtain ⟨devices, hbuilt⟩ := ih j hj hj'
      rw [hparent] at hbuilt
      exact ⟨_, .step hmem hbuilt⟩

theorem Exact.chase (h : Kept log self) (hexact : Exact log self) (hdevices : ∀ entry ∈ log, entry.1.2 ≠ 0) {id : U16}
    {devices : List U16} (hbuilt : Built log id devices) : self.chase (devices.length + 1) id = some devices := by
  induction hbuilt with
  | root => rfl
  | step hmem _ ih =>
    obtain ⟨hne, hstep, -⟩ := h.stored _ (hdevices _ hmem) _ (hexact _ _ _ hmem)
    rw [List.length_cons, Paths.chase, if_neg hne, hstep]
    dsimp only
    rw [ih]
    rfl

/-- Paths are told apart and found exactly if every new pair is behind all those of its device, and the pair that is
searched for as well. -/
theorem faithful_iff (std : StdSort) (calls : List (U16 × U16)) (parent device : U16)
    (hdevices : ∀ call ∈ calls, call.2 ≠ 0) (hfew : calls.dedup.length < 65536) :
    ∃ ids paths, addAll std empty calls = some (ids, paths) ∧ (Rooted calls ids →
      (Faithful (calls.zip ids) paths parent device ↔ Ordered [] calls ∧ Ascending calls parent device)) := by
  obtain ⟨ids, paths, hrun, hlength, hkept, hordered, hexact⟩ :=
    @Kept.run std [] empty calls kept_empty hdevices hfew
  rw [List.nil_append] at hkept hordered hexact
  have hlogged : ∀ pair, pair ∈ calls ↔ ∃ id, (pair, id) ∈ calls.zip ids := by
    intro pair
    constructor
    · intro hmem
      rw [← List.map_fst_zip hlength.ge] at hmem
      obtain ⟨⟨pair', id⟩, hentry, rfl⟩ := List.mem_map.mp hmem
      exact ⟨id, hentry⟩
    · rintro ⟨id, hmem⟩
      exact (List.of_mem_zip hmem).1
  have hdevices' : ∀ entry ∈ calls.zip ids, entry.1.2 ≠ 0 :=
    fun entry hmem => hdevices _ (List.of_mem_zip hmem).1
  refine ⟨ids, paths, hrun, fun hrooted => ⟨fun hfaithful => ⟨hordered hfaithful.distinct, ?_⟩, ?_⟩⟩
  · by_cases hadded : (parent, device) ∈ calls
    · exact .inl hadded
    · refine .inr fun other hother => ?_
      obtain ⟨id, hmem⟩ := (hlogged _).mp hother
      have hmissing := hfaithful.missing fun id hmem => hadded ((hlogged _).mpr ⟨id, hmem⟩)
      obtain ⟨handle, hfirst, hfind⟩ | ⟨hall, -⟩ := find_cases hkept parent device
      · rw [hfind] at hmissing
        exact absurd (Option.some_inj.mp hmissing) (hkept.stored device (hdevices _ hother) handle hfirst.mem).1
      · obtain ⟨handle, hhandle, -, hle⟩ := hkept.given _ _ _ hmem
        exact hle.trans_lt (hall handle hhandle)
  · rintro ⟨hall, hascending⟩
    have hexact := hexact hall fun _ _ _ hmem => absurd hmem List.not_mem_nil
    refine ⟨hexact.distinct hkept hdevices', fun id hmem => hexact.find hkept hmem, ?_, ?_,
      fun id devices hbuilt => hexact.chase hkept hdevices' hbuilt⟩
    · intro hmissing
      obtain hadded | hbehind := hascending
      · obtain ⟨id, hmem⟩ := (hlogged _).mp hadded
        exact absurd hmem (hmissing id)
      · obtain ⟨handle, hfirst, hfind⟩ | ⟨-, hfind⟩ := find_cases hkept parent device
        · by_cases hroot : device = 0
          · subst hroot
            have hhandle := hfirst.mem
            rw [hkept.root.1, List.mem_singleton] at hhandle
            rw [hfind, hhandle]
            rfl
          · have hmem := (hkept.stored device hroot handle hfirst.mem).2.2
            exact absurd (hbehind _ ((hlogged _).mpr ⟨_, hmem⟩)) (Nat.not_lt.mpr hfirst.le)
        · exact hfind
    · intro pair id hmem
      obtain ⟨i, hi, heq⟩ := List.getElem_of_mem (List.of_mem_zip hmem).2
      subst heq
      exact exists_built hlength hrooted i hi

/-- A path over three devices, as it is built from the root. -/
def chain : List (U16 × U16) := [(0, 10), (1, 20), (2, 30)]

theorem faithful_chain :
    ∃ paths, addAll .insertion empty chain = some ([1, 2, 3], paths) ∧ Faithful (List.zip chain [1, 2, 3]) paths 1 20 := by
  have hall : List.all chain (fun call => decide (call.2 ≠ 0)) = true := rfl
  obtain ⟨ids, paths, hadd, hfaithful⟩ := faithful_iff .insertion chain 1 20
    (fun call hcall => of_decide_eq_true (List.all_eq_true.mp hall call hcall))
    ((List.dedup_sublist _).length_le.trans_lt (by decide))
  have hids : (addAll .insertion empty chain).map Prod.fst = some [1, 2, 3] := rfl
  obtain rfl : ids = [1, 2, 3] := by
    rw [hadd] at hids
    exact Option.some_inj.mp hids
  refine ⟨paths, hadd, (hfaithful ?_).mpr ⟨?_, ?_⟩⟩
  · rintro (_ | _ | _ | i) hi
    · exact .inl rfl
    · exact .inr ⟨0, by decide, rfl⟩
    · exact .inr ⟨1, by decide, rfl⟩
    · exact absurd hi (by simp [chain])
  · have hnew : ∀ (before : List (U16 × U16)) (parent device : U16), (∀ call ∈ before, call.2 ≠ device) →
        Ascending before parent device := fun before parent device h => .inr fun other hother => absurd rfl (h _ hother)
    exact ⟨hnew _ _ _ (by simp), hnew _ _ _ (by simp), hnew _ _ _ (by simp), trivial⟩
  · exact .inl (by decide)

/-- The path over device 20 from the root is taken for the one behind another device. -/
theorem merged_paths : (addAll .insertion empty [(0, 10), (1, 20), (0, 20)]).map Prod.fst = some [1, 2, 2] := rfl

end Paths

end Pepp.Trace
