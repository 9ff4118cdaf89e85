import Mathlib.Data.List.TakeWhile
import Pepp.Asmb.Addresses
import Pepp.Lib.Bytes

/-!
# Regions of a layout

Where every alignment is defined the sections are placed without fail, and the
computed order amounts to this: forward from the base when there is no `.ORG`;
otherwise the section with the first one, the sections before it backward from
its low address, the sections behind it forward from its high address.
-/

namespace Pepp.Tc

open Span Runs

/-- Every line has a size or none at every address. -/
def LinearIR.Defined : LinearIR → Prop
  | .dotAlign which argument => ∃ n, alignment which argument = .ok n ∧ 0 < n
  | _ => True

def LinearIR.sizeAt (baseAddress : Nat) (ir : LinearIR) : Option Nat :=
  match ir.objectSize baseAddress with
  | .ok size => size
  | .error _ => none

theorem LinearIR.objectSize_eq {ir : LinearIR} (h : ir.Defined) (base : Nat) :
    ir.objectSize base = .ok (ir.sizeAt base) := by
  have hok : ∃ s, ir.objectSize base = .ok s := by
    cases ir with
    | dotAlign which argument =>
      obtain ⟨n, hn, hpos⟩ := h
      exact ⟨_, by simp only [objectSize, hn, bind, Except.bind, if_neg hpos.ne']; rfl⟩
    | dotLiteral which argument => cases which <;> exact ⟨_, rfl⟩
    | _ => exact ⟨_, rfl⟩
  obtain ⟨s, hs⟩ := hok
  simp only [sizeAt, hs]

theorem LinearIR.defined_of_objectSize {ir : LinearIR} {base : Nat} {s : Option Nat}
    (h : ir.objectSize base = .ok s) : ir.Defined := by
  cases ir with
  | dotAlign which argument =>
    simp only [objectSize, bind_ok] at h
    obtain ⟨n, hn, h⟩ := h
    refine ⟨n, hn, Nat.pos_of_ne_zero fun h0 => ?_⟩
    rw [if_pos h0] at h
    cases h
  | _ => trivial

variable (kind : AddressKind) (lineToSymbol : LinearIR → SymbolType)

def walk (direction : Direction) : Nat → List Line → List Placed × Nat
  | base, [] => ([], base)
  | base, line :: lines =>
    let (placed, next) := line.place kind lineToSymbol direction base (line.ir.sizeAt base)
    let (rest, last) := walk direction next lines
    (placed :: rest, last)

variable {kind lineToSymbol} {direction : Direction}

variable {lines : List Line} (base : Nat) {k : Nat} {i : Nat}

theorem forLines_eq (h : ∀ line ∈ lines, line.ir.Defined) (base : Nat) :
    forLines kind lineToSymbol direction base lines = .ok (walk kind lineToSymbol direction base lines) := by
  induction lines generalizing base with
  | nil => rfl
  | cons line lines ih =>
    obtain ⟨hd, hrest⟩ := List.forall_mem_cons.mp h
    simp only [forLines, LinearIR.objectSize_eq hd, bind, Except.bind, ih hrest]
    rfl

theorem defined_of_forLines {base : Nat} {r : List Placed × Nat}
    (h : forLines kind lineToSymbol direction base lines = .ok r) : ∀ line ∈ lines, line.ir.Defined := by
  induction lines generalizing base r with
  | nil => exact fun _ hl => absurd hl List.not_mem_nil
  | cons line lines ih =>
    simp only [forLines, bind_ok] at h
    obtain ⟨s, hs, r', hr', -⟩ := h
    exact List.forall_mem_cons.mpr ⟨LinearIR.defined_of_objectSize hs, ih hr'⟩

theorem walk_append (xs ys : List Line) (base : Nat) :
    walk kind lineToSymbol direction base (xs ++ ys) =
      ((walk kind lineToSymbol direction base xs).1 ++
          (walk kind lineToSymbol direction (walk kind lineToSymbol direction base xs).2 ys).1,
        (walk kind lineToSymbol direction (walk kind lineToSymbol direction base xs).2 ys).2) := by
  induction xs generalizing base with
  | nil => rfl
  | cons x xs ih => simp only [List.cons_append, walk, ih]

variable (kind lineToSymbol)

def forwardExtent (base : Nat) (lines : List Line) : Extent :=
  let (placed, high) := walk kind lineToSymbol .forward base lines
  ⟨base, high, byteCount placed, placed⟩

def backwardExtent (base : Nat) (lines : List Line) : Extent :=
  let (placed, low) := walk kind lineToSymbol .backward base lines.reverse
  ⟨low, base, byteCount placed, placed.reverse⟩

def orgExtent (lines : List Line) : Extent :=
  let orgArg := orgArgument (fromOrg lines)
  let (down, low) := walk kind lineToSymbol .backward ((orgArg + kind.modulus - 1) % kind.modulus)
    (beforeOrg lines).reverse
  let (up, high) := walk kind lineToSymbol .forward orgArg (fromOrg lines)
  ⟨low, high, byteCount (down.reverse ++ up), down.reverse ++ up⟩

def forwardSections : Nat → List (List Line) → List Extent
  | _, [] => []
  | base, lines :: rest =>
    let extent := forwardExtent kind lineToSymbol base lines
    extent :: forwardSections extent.highAddress rest

/-- The sections are listed from right to left. -/
def backwardSections : Nat → List (List Line) → List Extent
  | _, [] => []
  | base, lines :: rest =>
    let extent := backwardExtent kind lineToSymbol base lines
    extent :: backwardSections extent.lowAddress rest

def regions (prog : List Section) (initial : Nat) : List Extent :=
  match firstOrgSection prog with
  | none => forwardSections kind lineToSymbol initial (prog.map Prod.snd)
  | some k =>
    let org := orgExtent kind lineToSymbol ((prog[k]?.map Prod.snd).getD [])
    (backwardSections kind lineToSymbol org.lowAddress ((prog.take k).map Prod.snd).reverse).reverse ++
      org :: forwardSections kind lineToSymbol org.highAddress ((prog.drop (k + 1)).map Prod.snd)

/-- The lines around the first `.ORG`, in the order they are visited. -/
def orgVisits (lines : List Line) : List Placed :=
  let orgArg := orgArgument (fromOrg lines)
  (walk kind lineToSymbol .backward ((orgArg + kind.modulus - 1) % kind.modulus) (beforeOrg lines).reverse).1 ++
    (walk kind lineToSymbol .forward orgArg (fromOrg lines)).1

/-- All lines, in the order they are visited. -/
def visits (prog : List Section) (initial : Nat) : List Placed :=
  match firstOrgSection prog with
  | none => (regions kind lineToSymbol prog initial).flatMap Extent.placed
  | some k =>
    let lines := (prog[k]?.map Prod.snd).getD []
    let org := orgExtent kind lineToSymbol lines
    orgVisits kind lineToSymbol lines ++
      ((backwardSections kind lineToSymbol org.lowAddress ((prog.take k).map Prod.snd).reverse).flatMap fun e =>
        e.placed.reverse) ++
      (forwardSections kind lineToSymbol org.highAddress ((prog.drop (k + 1)).map Prod.snd)).flatMap Extent.placed

variable {kind lineToSymbol}

variable (rest : List (List Line))

@[simp] theorem length_forwardSections : (forwardSections kind lineToSymbol base rest).length = rest.length := by
  induction rest generalizing base with
  | nil => rfl
  | cons lines rest ih => simp [forwardSections, ih]

@[simp] theorem length_backwardSections : (backwardSections kind lineToSymbol base rest).length = rest.length := by
  induction rest generalizing base with
  | nil => rfl
  | cons lines rest ih => simp [backwardSections, ih]

variable {prog : List Section} {initial : Nat} {work : Work}

variable (kind lineToSymbol prog initial) in
theorem length_regions : (regions kind lineToSymbol prog initial).length = prog.length := by
  rw [regions]
  cases hfirst : firstOrgSection prog with
  | none => simp only [length_forwardSections, List.length_map]
  | some k =>
    have hk : k < prog.length := (List.findIdx?_eq_some_iff_getElem.mp hfirst).1
    simp only [List.length_append, List.length_reverse, length_backwardSections, List.length_map, List.length_take,
      List.length_cons, length_forwardSections, List.length_drop]
    omega

theorem regions_some (hfirst : firstOrgSection prog = some k) (hk : k < prog.length) :
    let org := orgExtent kind lineToSymbol prog[k].2
    regions kind lineToSymbol prog initial =
      (backwardSections kind lineToSymbol org.lowAddress ((prog.take k).map Prod.snd).reverse).reverse ++
        org :: forwardSections kind lineToSymbol org.highAddress ((prog.drop (k + 1)).map Prod.snd) := by
  have hlines : (prog[k]?.map Prod.snd).getD [] = prog[k].2 := by simp [hk]
  rw [regions, hfirst]
  simp only [hlines]

theorem assignForward_eq (h : ∀ line ∈ lines, line.ir.Defined) (base index : Nat) :
    assignForward kind lineToSymbol base index lines work =
      .ok (work.finish index (forwardExtent kind lineToSymbol base lines)
        (forwardExtent kind lineToSymbol base lines).placed) := by
  simp only [assignForward, forLines_eq h, bind, Except.bind]
  rfl

theorem assignBackward_eq (h : ∀ line ∈ lines, line.ir.Defined) (base index : Nat) :
    assignBackward kind lineToSymbol base index lines work =
      .ok (work.finish index (backwardExtent kind lineToSymbol base lines)
        (backwardExtent kind lineToSymbol base lines).placed.reverse) := by
  have hr : ∀ line ∈ lines.reverse, line.ir.Defined := fun line hl => h line (List.mem_reverse.mp hl)
  simp only [assignBackward, forLines_eq hr, bind, Except.bind, backwardExtent, List.reverse_reverse]
  rfl

variable (kind lineToSymbol work) in
theorem assignFirstOrg_eq (h : ∀ line ∈ lines, line.ir.Defined) (index : Nat) :
    assignFirstOrg kind lineToSymbol index lines work =
      .ok (work.finish index (orgExtent kind lineToSymbol lines) (orgVisits kind lineToSymbol lines)) := by
  have hdown : ∀ line ∈ (beforeOrg lines).reverse, line.ir.Defined := fun line hl =>
    h line ((List.takeWhile_sublist _).subset (List.mem_reverse.mp hl))
  have hup : ∀ line ∈ fromOrg lines, line.ir.Defined := fun line hl => h line ((List.dropWhile_sublist _).subset hl)
  simp only [assignFirstOrg, forLines_eq hdown, forLines_eq hup, bind, Except.bind, orgExtent]
  rfl

/-- Numbers in a row from `i` on, none of them before the section to its left. -/
def Ascending : Nat → List SectionAddrInfo → Prop
  | _, [] => True
  | i, info :: rest => info.index = i ∧ (info.previous = i ∨ info.previous = i - 1) ∧ Ascending (i + 1) rest

def sectionLines (prog : List Section) (i : Nat) : List Line := (prog[i]?.map Prod.snd).getD []

theorem assignSection_forward {info : SectionAddrInfo} (hi : 0 < i) (hn : firstOrgSection prog ≠ some i)
    (hindex : info.index = i) (hprev : info.previous = i ∨ info.previous = i - 1) :
    assignSection kind lineToSymbol prog initial work info =
      assignForward kind lineToSymbol (work.extents (i - 1)).highAddress i (sectionLines prog i) work := by
  obtain ⟨index, previous⟩ := info
  simp only at hindex hprev
  subst hindex
  rw [assignSection, if_neg hn]
  rcases hprev with rfl | rfl
  · simp only [if_true, if_neg hi.ne']
    rfl
  · rw [if_neg (by simp only; omega), if_pos (by simp only; omega)]
    rfl

/-- Sections in a row are placed forward, each from where the one before it ends. -/
theorem foldlM_forward {infos : List SectionAddrInfo} (hasc : Ascending i infos) (hi : 0 < i)
    (hlen : i + infos.length = prog.length) (hn : ∀ j, i ≤ j → firstOrgSection prog ≠ some j)
    (hdef : ∀ sec ∈ prog, ∀ line ∈ sec.2, line.ir.Defined) (work : Work) :
    let es := forwardSections kind lineToSymbol (work.extents (i - 1)).highAddress ((prog.drop i).map Prod.snd)
    infos.foldlM (assignSection kind lineToSymbol prog initial) work =
      .ok ⟨overwrite work.extents i es, (es.flatMap Extent.placed).foldl assignSymbol work.symbols⟩ := by
  induction infos generalizing i work with
  | nil =>
    rw [List.drop_eq_nil_of_le (by simp only [List.length_nil] at hlen; omega)]
    simp [forwardSections]
    rfl
  | cons info infos ih =>
    obtain ⟨hindex, hprev, hrest⟩ := hasc
    rw [List.length_cons] at hlen
    have hlt : i < prog.length := by omega
    have hlines : sectionLines prog i = prog[i].2 := by simp [sectionLines, hlt]
    have hd : ∀ line ∈ prog[i].2, line.ir.Defined := hdef _ (List.getElem_mem hlt)
    rw [List.drop_eq_getElem_cons hlt, List.foldlM_cons, assignSection_forward hi (hn i le_rfl) hindex hprev, hlines,
      assignForward_eq hd]
    change infos.foldlM _ _ = _
    rw [ih hrest (by omega) (by omega) (fun j hj => hn j (by omega))]
    simp only [Work.finish, Nat.add_sub_cancel, Function.update_self, List.map_cons, forwardSections, List.flatMap_cons,
      List.foldl_append]
    rw [overwrite_cons, overwrite_singleton]

theorem assignSection_backward (hn : firstOrgSection prog ≠ some i) :
    assignSection kind lineToSymbol prog initial work ⟨i, i + 1⟩ =
      assignBackward kind lineToSymbol (work.extents (i + 1)).lowAddress i (sectionLines prog i) work := by
  rw [assignSection, if_neg hn, if_neg (by simp only; omega), if_neg (by simp only; omega)]
  rfl

/-- The sections to the left are placed backward, each from where the one behind it begins. -/
theorem foldlM_backward (hk : k ≤ prog.length) (hn : ∀ j, j < k → firstOrgSection prog ≠ some j)
    (hdef : ∀ sec ∈ prog, ∀ line ∈ sec.2, line.ir.Defined) (work : Work) :
    let es := backwardSections kind lineToSymbol (work.extents k).lowAddress ((prog.take k).map Prod.snd).reverse
    ((List.range k).reverse.map fun jt => (⟨jt, jt + 1⟩ : SectionAddrInfo)).foldlM
        (assignSection kind lineToSymbol prog initial) work =
      .ok ⟨overwrite work.extents 0 es.reverse,
        (es.flatMap fun e => e.placed.reverse).foldl assignSymbol work.symbols⟩ := by
  induction k generalizing work with
  | zero => simp [backwardSections]; rfl
  | succ k ih =>
    have hlt : k < prog.length := by omega
    have hlines : sectionLines prog k = prog[k].2 := by simp [sectionLines, hlt]
    have hd : ∀ line ∈ prog[k].2, line.ir.Defined := hdef _ (List.getElem_mem hlt)
    have htake : ((prog.take (k + 1)).map Prod.snd).reverse = prog[k].2 :: ((prog.take k).map Prod.snd).reverse := by
      rw [List.take_succ_eq_append_getElem hlt, List.map_append, List.reverse_append]
      rfl
    rw [List.range_succ, List.reverse_append, List.reverse_singleton, List.singleton_append, List.map_cons,
      List.foldlM_cons, assignSection_backward (hn k (by omega)), hlines, assignBackward_eq hd]
    change (((List.range k).reverse.map _).foldlM _ _) = _
    rw [ih (by omega) fun j hj => hn j (by omega)]
    simp only [Work.finish, Function.update_self, htake, backwardSections, List.flatMap_cons, List.foldl_append,
      List.reverse_cons, overwrite_append]
    simp only [List.length_reverse, length_backwardSections, List.length_map, List.length_take, Nat.zero_add,
      overwrite_singleton, Nat.min_eq_left hlt.le]

theorem ascending_orderFrom (first it : Nat) (rest : List Section) :
    Ascending it (orderFrom (some first) it rest) ∧ (orderFrom (some first) it rest).length = rest.length := by
  induction rest generalizing it with
  | nil => exact ⟨trivial, rfl⟩
  | cons sec rest ih =>
    obtain ⟨hasc, hlen⟩ := ih (it + 1)
    refine ⟨?_, by rw [orderFrom, List.length_cons, hlen, List.length_cons]⟩
    rw [orderFrom]
    split
    · exact ⟨rfl, .inl rfl, hasc⟩
    · exact ⟨rfl, .inr rfl, hasc⟩

theorem ascending_range (n i : Nat) :
    Ascending i ((List.range' i n).map fun it => (⟨it, it - 1⟩ : SectionAddrInfo)) := by
  induction n generalizing i with
  | zero => trivial
  | succ n ih => exact ⟨rfl, .inr rfl, ih (i + 1)⟩

theorem orderFrom_first {rest : List Section} {j : Nat} (it : Nat)
    (h : rest.findIdx? (fun sec => decide (0 < sec.1.orgCount)) = some j) :
    orderFrom none it rest = ⟨it + j, it + j⟩ :: ((List.range (it + j)).reverse.map fun jt => ⟨jt, jt + 1⟩) ++
      orderFrom (some (it + j)) (it + j + 1) (rest.drop (j + 1)) := by
  induction rest generalizing it j with
  | nil => cases h
  | cons sec rest ih =>
    rw [List.findIdx?_cons] at h
    by_cases ho : 0 < sec.1.orgCount
    · rw [if_pos (decide_eq_true ho)] at h
      obtain rfl : 0 = j := Option.some.inj h
      rw [orderFrom, if_pos ho]
      rfl
    · rw [if_neg (by simpa using ho), Option.map_eq_some_iff] at h
      obtain ⟨j', hj', rfl⟩ := h
      rw [orderFrom, if_neg ho, ih (it + 1) hj', List.drop_succ_cons, show it + 1 + j' = it + (j' + 1) by omega]

theorem length_sortedWork (hne : prog ≠ []) : (sortedWork prog).length = prog.length := by
  have hpos : 0 < prog.length := List.length_pos_iff.mpr hne
  cases hfirst : firstOrgSection prog with
  | none =>
    simp only [sortedWork, hfirst, Option.isNone_none, if_true, List.length_cons, List.length_map, List.length_range']
    omega
  | some k =>
    have hk : k < prog.length := (List.findIdx?_eq_some_iff_getElem.mp hfirst).1
    simp only [sortedWork, hfirst, Option.isNone_some, Bool.false_eq_true, if_false, orderFrom_first 0 hfirst,
      List.length_cons, List.length_append, List.length_map, List.length_reverse, List.length_range, List.length_drop,
      (ascending_orderFrom _ _ _).2]
    omega

theorem phase2_none (hne : prog ≠ []) (hfirst : firstOrgSection prog = none)
    (hdef : ∀ sec ∈ prog, ∀ line ∈ sec.2, line.ir.Defined) (work : Work) :
    (sortedWork prog).foldlM (assignSection kind lineToSymbol prog initial) work =
      .ok ⟨overwrite work.extents 0 (regions kind lineToSymbol prog initial),
        ((regions kind lineToSymbol prog initial).flatMap Extent.placed).foldl assignSymbol work.symbols⟩ := by
  obtain ⟨sec, rest, rfl⟩ := List.exists_cons_of_ne_nil hne
  have hlen : 1 + ((List.range' 1 rest.length).map fun it => (⟨it, it - 1⟩ : SectionAddrInfo)).length =
      (sec :: rest).length := by
    simp only [List.length_map, List.length_range', List.length_cons]
    omega
  have hd : ∀ line ∈ sec.2, line.ir.Defined := hdef sec List.mem_cons_self
  have hstep : assignSection kind lineToSymbol (sec :: rest) initial work ⟨0, 0⟩ =
      assignForward kind lineToSymbol initial 0 sec.2 work := by
    rw [assignSection, if_neg (by rw [hfirst]; exact fun h => nomatch h)]
    rfl
  rw [sortedWork, hfirst]
  change ((⟨0, 0⟩ : SectionAddrInfo) :: ((List.range' 1 rest.length).map fun it => ⟨it, it - 1⟩)).foldlM _ _ = _
  rw [List.foldlM_cons, hstep, assignForward_eq hd]
  change List.foldlM _ _ _ = _
  rw [foldlM_forward (ascending_range _ 1) Nat.one_pos hlen (fun j _ => by rw [hfirst]; exact fun h => nomatch h) hdef]
  simp only [Work.finish, regions, hfirst, Function.update_self, List.map_cons, forwardSections, List.flatMap_cons,
    List.foldl_append, List.drop_succ_cons, List.drop_zero]
  rw [overwrite_cons, overwrite_singleton]

theorem phase2_some (hfirst : firstOrgSection prog = some k) (hdef : ∀ sec ∈ prog, ∀ line ∈ sec.2, line.ir.Defined)
    (work : Work) :
    (sortedWork prog).foldlM (assignSection kind lineToSymbol prog initial) work =
      .ok ⟨overwrite work.extents 0 (regions kind lineToSymbol prog initial),
        (visits kind lineToSymbol prog initial).foldl assignSymbol work.symbols⟩ := by
  have hk : k < prog.length := (List.findIdx?_eq_some_iff_getElem.mp hfirst).1
  have hlines : (prog[k]?.map Prod.snd).getD [] = prog[k].2 := by simp [hk]
  have hd : ∀ line ∈ prog[k].2, line.ir.Defined := hdef _ (List.getElem_mem hk)
  obtain ⟨hasc, hlen⟩ := ascending_orderFrom k (k + 1) (prog.drop (k + 1))
  have horg := assignFirstOrg_eq kind lineToSymbol work hd k
  have hstep : assignSection kind lineToSymbol prog initial work ⟨k, k⟩ =
      assignFirstOrg kind lineToSymbol k prog[k].2 work := by
    simp only [assignSection, hfirst, if_true, hlines]
  have hother : ∀ j, j ≠ k → firstOrgSection prog ≠ some j := fun j hj h =>
    hj (Option.some.inj (h.symm.trans hfirst))
  rw [List.length_drop] at hlen
  let org := orgExtent kind lineToSymbol prog[k].2
  let back := backwardSections kind lineToSymbol org.lowAddress ((prog.take k).map Prod.snd).reverse
  let ahead := forwardSections kind lineToSymbol org.highAddress ((prog.drop (k + 1)).map Prod.snd)
  have hregions : regions kind lineToSymbol prog initial = back.reverse ++ org :: ahead := regions_some hfirst hk
  have hback : back.reverse.length = k := by
    simp only [back, List.length_reverse, length_backwardSections, List.length_map, List.length_take,
      Nat.min_eq_left hk.le]
  rw [sortedWork, hfirst]
  change (orderFrom none 0 prog).foldlM _ _ = _
  rw [orderFrom_first 0 hfirst, Nat.zero_add, List.cons_append, List.foldlM_cons, hstep, horg]
  change List.foldlM _ _ _ = _
  rw [List.foldlM_append, foldlM_backward hk.le (fun j hj => hother j hj.ne) hdef]
  change List.foldlM _ _ _ = _
  rw [foldlM_forward hasc (Nat.succ_pos k) (by omega) (fun j hj => hother j (by omega)) hdef]
  simp only [Work.finish, visits, hfirst, hlines, List.foldl_append, Nat.add_sub_cancel, Function.update_self]
  have hhigh : overwrite (Function.update work.extents k org) 0 back.reverse k = org := by
    rw [overwrite_of_le _ _ _ _ (by omega), Function.update_self]
  change Except.ok (⟨overwrite (overwrite (Function.update work.extents k org) 0 back.reverse) (k + 1)
    (forwardSections kind lineToSymbol (overwrite (Function.update work.extents k org) 0 back.reverse k).highAddress
      ((prog.drop (k + 1)).map Prod.snd)), List.foldl assignSymbol _ (List.flatMap Extent.placed
    (forwardSections kind lineToSymbol (overwrite (Function.update work.extents k org) 0 back.reverse k).highAddress
      ((prog.drop (k + 1)).map Prod.snd)))⟩ : Work) = _
  rw [hhigh, hregions, overwrite_append, hback, Nat.zero_add, overwrite_cons, overwrite_singleton,
    overwrite_comm _ (by omega)]

variable (kind lineToSymbol prog initial) in
/-- Each line is visited once. -/
theorem visits_perm : (visits kind lineToSymbol prog initial).Perm
    ((regions kind lineToSymbol prog initial).flatMap Extent.placed) := by
  cases hfirst : firstOrgSection prog with
  | none => rw [visits, hfirst]
  | some k =>
    have horg : ∀ lines, (orgVisits kind lineToSymbol lines).Perm (orgExtent kind lineToSymbol lines).placed :=
      fun lines => (List.reverse_perm _).symm.append_right _
    have hrev : ∀ back : List Extent,
        (back.flatMap fun e => e.placed.reverse).Perm (back.reverse.flatMap Extent.placed) := fun back =>
      (List.Perm.flatMap_left _ fun e _ => List.reverse_perm _).trans
        (List.Perm.flatMap_right _ (List.reverse_perm _).symm)
    simp only [visits, regions, hfirst, List.flatMap_append, List.flatMap_cons]
    rw [← List.append_assoc]
    exact (((horg _).append (hrev _)).trans List.perm_append_comm).append_right _

variable (initial) in
/-- A program with sections and defined alignments is laid out region by region. -/
theorem assignAddresses_eq (hne : prog ≠ []) (hdef : ∀ sec ∈ prog, ∀ line ∈ sec.2, line.ir.Defined) :
    assignAddresses kind lineToSymbol prog initial = .ok ⟨regions kind lineToSymbol prog initial,
      (visits kind lineToSymbol prog initial).foldl assignSymbol fun _ => .empty 0⟩ := by
  have hlen := length_sortedWork hne
  have hphase : (sortedWork prog).foldlM (assignSection kind lineToSymbol prog initial)
      ⟨fun _ => .unset, fun _ => .empty 0⟩ = .ok ⟨overwrite (fun _ => .unset) 0 (regions kind lineToSymbol prog initial),
        (visits kind lineToSymbol prog initial).foldl assignSymbol fun _ => .empty 0⟩ := by
    cases hfirst : firstOrgSection prog with
    | none =>
      rw [phase2_none hne hfirst hdef, visits, hfirst]
    | some k => exact phase2_some hfirst hdef _
  have hslice : (List.range prog.length).map (overwrite (fun _ => .unset) 0 (regions kind lineToSymbol prog initial)) =
      regions kind lineToSymbol prog initial := by
    have hr := length_regions kind lineToSymbol prog initial
    conv_rhs => rw [← slice_overwrite (fun _ => .unset) 0 (regions kind lineToSymbol prog initial), hr]
    simp only [slice, Nat.zero_add]
  simp only [assignAddresses, hlen, ne_eq, not_true_eq_false, if_false, hphase, bind, Except.bind, hslice]
  rfl

variable (initial) in
theorem assignAddresses_ok (hne : prog ≠ []) (hdef : ∀ sec ∈ prog, ∀ line ∈ sec.2, line.ir.Defined) :
    ∃ visited : List Placed, visited.Perm ((regions kind lineToSymbol prog initial).flatMap Extent.placed) ∧
      assignAddresses kind lineToSymbol prog initial =
        .ok ⟨regions kind lineToSymbol prog initial, visited.foldl assignSymbol fun _ => .empty 0⟩ :=
  ⟨_, visits_perm kind lineToSymbol prog initial, assignAddresses_eq initial hne hdef⟩

theorem Ascending.exists_index {infos : List SectionAddrInfo} {i j : Nat} (h : Ascending i infos) (hi : i ≤ j)
    (hj : j < i + infos.length) : ∃ info ∈ infos, info.index = j := by
  induction infos generalizing i with
  | nil => simp only [List.length_nil] at hj; omega
  | cons info infos ih =>
    obtain ⟨hindex, -, hrest⟩ := h
    rw [List.length_cons] at hj
    by_cases he : i = j
    · exact ⟨info, List.mem_cons_self, hindex.trans he⟩
    · obtain ⟨info', hm, hinfo⟩ := ih hrest (by omega) (by omega)
      exact ⟨info', List.mem_cons_of_mem _ hm, hinfo⟩

/-- Every section is visited. -/
theorem exists_sortedWork (hi : i < prog.length) : ∃ info ∈ sortedWork prog, info.index = i := by
  cases hfirst : firstOrgSection prog with
  | none =>
    simp only [sortedWork, hfirst, Option.isNone_none, if_true]
    by_cases h0 : i = 0
    · exact ⟨_, List.mem_cons_self, h0.symm⟩
    · obtain ⟨info, hm, hinfo⟩ := (ascending_range (prog.length - 1) 1).exists_index (j := i) (by omega)
        (by rw [List.length_map, List.length_range']; omega)
      exact ⟨info, List.mem_cons_of_mem _ hm, hinfo⟩
  | some k =>
    obtain ⟨hasc, hlen⟩ := ascending_orderFrom k (k + 1) (prog.drop (k + 1))
    simp only [sortedWork, hfirst, Option.isNone_some, Bool.false_eq_true, if_false, orderFrom_first 0 hfirst,
      Nat.zero_add]
    rcases Nat.lt_trichotomy i k with hlt | rfl | hgt
    · refine ⟨⟨i, i + 1⟩, List.mem_append_left _ (List.mem_cons_of_mem _ ?_), rfl⟩
      exact List.mem_map.mpr ⟨i, List.mem_reverse.mpr (List.mem_range.mpr hlt), rfl⟩
    · exact ⟨_, List.mem_append_left _ List.mem_cons_self, rfl⟩
    · rw [List.length_drop] at hlen
      obtain ⟨info, hm, hinfo⟩ := hasc.exists_index (j := i) (by omega) (by omega)
      exact ⟨info, List.mem_append_right _ hm, hinfo⟩

theorem defined_of_assignSection {info : SectionAddrInfo} {work' : Work}
    (h : assignSection kind lineToSymbol prog initial work info = .ok work') :
    ∀ line ∈ sectionLines prog info.index, line.ir.Defined := by
  have hforward : ∀ base, assignForward kind lineToSymbol base info.index (sectionLines prog info.index) work = .ok work' →
      ∀ line ∈ sectionLines prog info.index, line.ir.Defined := by
    intro base hf
    simp only [assignForward, bind_ok] at hf
    obtain ⟨r, hr, -⟩ := hf
    exact defined_of_forLines hr
  rw [assignSection] at h
  split at h
  · simp only [assignFirstOrg, bind_ok] at h
    obtain ⟨down, hdown, up, hup, -⟩ := h
    intro line hl
    change line ∈ sectionLines prog info.index at hl
    rw [← List.takeWhile_append_dropWhile (p := fun line => !line.ir.isOrg) (l := sectionLines prog info.index)] at hl
    rcases List.mem_append.mp hl with hl | hl
    · exact defined_of_forLines hdown line (List.mem_reverse.mpr hl)
    · exact defined_of_forLines hup line hl
  · split at h
    · exact hforward _ h
    · split at h
      · exact hforward _ h
      · simp only [assignBackward, bind_ok] at h
        obtain ⟨r, hr, -⟩ := h
        exact fun line hl => defined_of_forLines hr line (List.mem_reverse.mpr hl)

theorem defined_of_assignAddresses {layout : Layout} (h : assignAddresses kind lineToSymbol prog initial = .ok layout) :
    prog ≠ [] ∧ ∀ sec ∈ prog, ∀ line ∈ sec.2, line.ir.Defined := by
  refine ⟨fun hnil => ?_, fun sec hsec => ?_⟩
  · subst hnil
    cases h
  · obtain ⟨i, hi, rfl⟩ := List.getElem_of_mem hsec
    obtain ⟨info, hinfo, rfl⟩ := exists_sortedWork hi
    simp only [assignAddresses] at h
    split at h
    · cases h
    · obtain ⟨done, hdone, -⟩ := bind_ok.mp h
      obtain ⟨work, work', hstep⟩ := exists_step hdone info hinfo
      have hd := defined_of_assignSection hstep
      rwa [show sectionLines prog info.index = prog[info.index].2 by simp [sectionLines, hi]] at hd

/-! ## The program as one list of lines -/

theorem line_place (line : Line) (base : Nat) (maybeSize : Option Nat) :
    (line.place kind lineToSymbol direction base maybeSize).1.line = line := by
  simp only [Line.place]
  split <;> try rfl
  split <;> rfl

variable (kind lineToSymbol direction) in
theorem walk_lines (lines : List Line) : (walk kind lineToSymbol direction base lines).1.map Placed.line = lines := by
  induction lines generalizing base with
  | nil => rfl
  | cons line lines ih =>
    simp only [walk, List.map_cons, ih, line_place]

/-- A region holds the lines of its section. -/
theorem forwardSections_lines :
    (forwardSections kind lineToSymbol base rest).map (fun e => e.placed.map Placed.line) = rest := by
  induction rest generalizing base with
  | nil => rfl
  | cons lines rest ih =>
    simp only [forwardSections, List.map_cons, ih, forwardExtent, walk_lines]

theorem backwardSections_lines :
    (backwardSections kind lineToSymbol base rest).map (fun e => e.placed.map Placed.line) = rest := by
  induction rest generalizing base with
  | nil => rfl
  | cons lines rest ih =>
    simp only [backwardSections, List.map_cons, ih, backwardExtent, List.map_reverse, walk_lines, List.reverse_reverse]

theorem orgExtent_lines (lines : List Line) :
    (orgExtent kind lineToSymbol lines).placed.map Placed.line = lines := by
  simp only [orgExtent, List.map_append, List.map_reverse, walk_lines, List.reverse_reverse]
  exact List.takeWhile_append_dropWhile

theorem regions_lines : (regions kind lineToSymbol prog initial).map (fun e => e.placed.map Placed.line) =
    prog.map Prod.snd := by
  cases hfirst : firstOrgSection prog with
  | none => rw [regions, hfirst, forwardSections_lines]
  | some k =>
    have hk : k < prog.length := (List.findIdx?_eq_some_iff_getElem.mp hfirst).1
    simp only [regions_some hfirst hk, List.map_append, List.map_reverse, List.map_cons, backwardSections_lines,
      forwardSections_lines, orgExtent_lines, List.reverse_reverse]
    rw [← List.map_cons, ← List.map_append, ← List.drop_eq_getElem_cons hk, List.take_append_drop]

theorem forwardSections_placed :
    (forwardSections kind lineToSymbol base rest).flatMap Extent.placed =
      (walk kind lineToSymbol .forward base rest.flatten).1 := by
  induction rest generalizing base with
  | nil => rfl
  | cons lines rest ih =>
    rw [forwardSections, List.flatMap_cons, ih, List.flatten_cons, walk_append]
    rfl

theorem backwardSections_placed :
    (backwardSections kind lineToSymbol base rest).reverse.flatMap Extent.placed =
      (walk kind lineToSymbol .backward base rest.reverse.flatten.reverse).1.reverse := by
  induction rest generalizing base with
  | nil => rfl
  | cons lines rest ih =>
    rw [backwardSections, List.reverse_cons, List.flatMap_append, ih, List.reverse_cons, List.flatten_append,
      List.reverse_append, List.flatten_singleton, walk_append, List.reverse_append, List.flatMap_singleton]
    rfl

variable (kind lineToSymbol) in
/-- The lines in source order, placed around the first `.ORG` if there is one. -/
def flatLayout (initial : Nat) (lines : List Line) : List Placed :=
  if fromOrg lines = [] then (walk kind lineToSymbol .forward initial lines).1
  else
    (walk kind lineToSymbol .backward ((orgArgument (fromOrg lines) + kind.modulus - 1) % kind.modulus)
        (beforeOrg lines).reverse).1.reverse ++
      (walk kind lineToSymbol .forward (orgArgument (fromOrg lines)) (fromOrg lines)).1

/-- A section counts its `.ORG`s. -/
def Counted (sec : Section) : Prop := 0 < sec.1.orgCount ↔ ∃ line ∈ sec.2, line.ir.isOrg

theorem fromOrg_eq_nil : fromOrg lines = [] ↔ ∀ line ∈ lines, ¬ line.ir.isOrg := by
  simp [fromOrg, List.dropWhile_eq_nil_iff]

theorem fromOrg_append {xs : List Line} (ys : List Line) (h : ∀ line ∈ xs, ¬ line.ir.isOrg) :
    beforeOrg (xs ++ ys) = xs ++ beforeOrg ys ∧ fromOrg (xs ++ ys) = fromOrg ys := by
  have hb : ∀ line ∈ xs, (!line.ir.isOrg) = true := by simpa using h
  exact ⟨List.takeWhile_append_of_pos hb, List.dropWhile_append_of_pos hb⟩

theorem fromOrg_append_of_ne_nil {xs : List Line} (ys : List Line) (h : fromOrg xs ≠ []) :
    beforeOrg (xs ++ ys) = beforeOrg xs ∧ fromOrg (xs ++ ys) = fromOrg xs ++ ys := by
  induction xs with
  | nil => exact absurd rfl h
  | cons x xs ih =>
    by_cases hx : x.ir.isOrg
    · simp [beforeOrg, fromOrg, hx]
    · have hrest : fromOrg xs ≠ [] := by simpa [fromOrg, hx] using h
      simpa [beforeOrg, fromOrg, hx] using ih hrest

/-- The regions of a program are those of its lines. -/
theorem regions_placed (hcount : ∀ sec ∈ prog, Counted sec) :
    (regions kind lineToSymbol prog initial).flatMap Extent.placed =
      flatLayout kind lineToSymbol initial (prog.flatMap Prod.snd) := by
  rw [flatLayout]
  cases hfirst : firstOrgSection prog with
  | none =>
    have hnone : ∀ line ∈ prog.flatMap Prod.snd, ¬ line.ir.isOrg := by
      intro line hl ho
      obtain ⟨sec, hsec, hl⟩ := List.mem_flatMap.mp hl
      have := List.findIdx?_eq_none_iff.mp hfirst sec hsec
      rw [decide_eq_false_iff_not, (hcount sec hsec).not] at this
      exact this ⟨line, hl, ho⟩
    rw [if_pos (fromOrg_eq_nil.mpr hnone), regions, hfirst, List.flatMap_def (l := prog)]
    exact forwardSections_placed _ _
  | some k =>
    obtain ⟨hk, horg, hbefore⟩ := List.findIdx?_eq_some_iff_getElem.mp hfirst
    have hsplit : prog.flatMap Prod.snd =
        (prog.take k).flatMap Prod.snd ++ (prog[k].2 ++ (prog.drop (k + 1)).flatMap Prod.snd) := by
      conv_lhs => rw [← List.take_append_drop k prog, List.drop_eq_getElem_cons hk]
      rw [List.flatMap_append, List.flatMap_cons]
    have hleft : ∀ line ∈ (prog.take k).flatMap Prod.snd, ¬ line.ir.isOrg := by
      intro line hl ho
      obtain ⟨sec, hsec, hl⟩ := List.mem_flatMap.mp hl
      obtain ⟨j, hj, rfl⟩ := List.getElem_of_mem hsec
      rw [List.length_take] at hj
      have := hbefore j (by omega)
      rw [decide_eq_true_eq, (hcount _ (List.getElem_mem _)).not] at this
      rw [List.getElem_take] at hl
      exact this ⟨line, hl, ho⟩
    have hown : fromOrg prog[k].2 ≠ [] := by
      rw [Ne, fromOrg_eq_nil]
      intro hn
      obtain ⟨line, hl, ho⟩ := (hcount _ (List.getElem_mem hk)).mp (of_decide_eq_true horg)
      exact hn line hl ho
    obtain ⟨hb₁, hf₁⟩ := fromOrg_append (prog[k].2 ++ (prog.drop (k + 1)).flatMap Prod.snd) hleft
    obtain ⟨hb₂, hf₂⟩ := fromOrg_append_of_ne_nil ((prog.drop (k + 1)).flatMap Prod.snd) hown
    have harg : ∀ rest, orgArgument (fromOrg prog[k].2 ++ rest) = orgArgument (fromOrg prog[k].2) := by
      intro rest
      simp only [orgArgument, List.head?_append_of_ne_nil _ hown]
    rw [if_neg (by rw [hsplit, hf₁, hf₂]; exact List.append_ne_nil_of_left_ne_nil hown _), regions_some hfirst hk, hsplit,
      hf₁, hf₂, hb₁, hb₂, harg]
    simp only [List.flatMap_append, List.flatMap_cons, backwardSections_placed, forwardSections_placed,
      List.reverse_reverse, List.reverse_append, walk_append, orgExtent, List.append_assoc, ← List.flatMap_def]

end Pepp.Tc
