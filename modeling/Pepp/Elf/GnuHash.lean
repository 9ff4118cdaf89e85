import Mathlib.Data.List.GetD
import Mathlib.Data.List.Sort
import Mathlib.Algebra.Order.BigOperators.Group.List
import Mathlib.Data.Nat.Bitwise
import Mathlib.Tactic.Ring
import Pepp.Elf.SymbolTable
import Pepp.Lib.CycleWalk
import Pepp.Lib.Endian

/-!
# GNU hash sections

The hashed symbols are brought into the order of their buckets first, by swaps
that others are notified of. The section has four counts, the words of a Bloom
filter, for each bucket its first symbol, and for each hashed symbol its hash,
with the lowest bit set for the last one of a bucket. The mask that takes a hash
to its word of the filter is a static constant: the first table that the process
builds sets it, for all later ones as well.
-/

namespace Pepp.Elf

open Endian CycleWalk

/-- `djb`, where `char` is signed, cut to 32 bits. -/
def djb (name : List U8) : U32 :=
  (name.foldl (fun (h : U64) (c : U8) => (h <<< 5) + h + c.signExtend 64) 5381).setWidth 32

namespace GnuHash

variable {b : ElfBits}

/-- `sizeof(word<B>)` -/
def wordBytes : ElfBits → Nat
  | .b32 => 4
  | .b64 => 8

def wordBits (b : ElfBits) : Nat := 8 * wordBytes b

/-- `1 << bits::ceil_log2(value)` in 32 bits; a shift by 32 is not defined. -/
def powerOfTwo (value : Nat) : Option Nat :=
  let log := (List.range 32).find? fun k => decide (value ≤ 2 ^ k)
  log.map (2 ^ ·)

/-- The two bits of a hash in its word of the filter. -/
def bloomBits (b : ElfBits) (shift2 hash : Nat) : Nat :=
  2 ^ (hash % wordBits b) ||| 2 ^ ((hash >>> shift2) % wordBits b)

/-- `std::stable_sort` of the positions by bucket. -/
def bucketOrder (hashes : List Nat) (nbuckets : Nat) : List Nat :=
  (List.range hashes.length).insertionSort fun i j => hashes.getD i 0 % nbuckets ≤ hashes.getD j 0 % nbuckets

/-- `dest[perm[newpos]] = newpos` -/
def destinations (perm : List Nat) : List Nat :=
  (List.range perm.length).foldl (fun dest newpos => dest.set (perm.getD newpos 0) newpos) (List.replicate perm.length 0)

/-- Symbols, their hashes, and the swaps that were notified. -/
structure Arranging (b : ElfBits) where
  data : List (Symbol b)
  hashes : List Nat
  notified : List (Nat × Nat)

/-- One swap of the walk; `swap_symbols` leaves the null symbol and everything behind the last one where it is. -/
def swapEntries (symndx nsyms i j : Nat) (s : Arranging b) : Arranging b :=
  let first := symndx + i
  let second := symndx + j
  { data := if nsyms ≤ first ∨ nsyms ≤ second ∨ first = 0 ∨ second = 0 then s.data else swapAt s.data first second
    hashes := swapAt s.hashes i j
    notified := s.notified ++ [(first, second)] }

/-- A word outside the filter may be anything else of the process. -/
def bloomFilter (b : ElfBits) (bitmask maskwords shift2 : Nat) (hashes : List Nat) : Option (List Nat) :=
  hashes.foldlM (fun filter hash =>
    let word := hash / wordBits b &&& bitmask
    if word < maskwords then some (filter.set word (filter.getD word 0 ||| bloomBits b shift2 hash)) else none)
    (List.replicate maskwords 0)

def firstSymbols (symndx nbuckets : Nat) (hashes : List Nat) : List Nat :=
  (List.range hashes.length).foldl (fun buckets i =>
    let bucket := hashes.getD i 0 % nbuckets
    if buckets.getD bucket 0 = 0 then buckets.set bucket (symndx + i) else buckets) (List.replicate nbuckets 0)

def chainWords (nbuckets : Nat) (hashes : List Nat) : List Nat :=
  (List.range hashes.length).map fun i =>
    let hash := hashes.getD i 0
    let last := i + 1 = hashes.length ∨ hashes.getD (i + 1) 0 % nbuckets ≠ hash % nbuckets
    hash / 2 * 2 + if last then 1 else 0

structure Built (b : ElfBits) where
  table : SymbolTable b
  section_ : List U8
  notified : List (Nat × Nat)
  /-- `maskwords_bitmask`, from now on. -/
  bitmask : Nat

/-- `bitmask` is what an earlier table of the process has left. -/
def computeHashTable (o : Order) (t : SymbolTable b) (bitmask : Option Nat) (nbuckets symndx maskwords shift2 : Nat) :
    Option (Built b) := do
  let nsyms := t.symbolCount
  let symndx := min symndx nsyms
  let hashedCount := nsyms - symndx
  let nbuckets := if nbuckets = 0 then max 1 (hashedCount / 2) else nbuckets
  let maskwords ← powerOfTwo (if maskwords = 0 then max 1 (hashedCount / 8) else maskwords)
  let shift2 := if shift2 = 0 then 5 else shift2
  let hashes := (List.range hashedCount).map fun i => (djb (t.getSymbolName (symndx + i))).toNat
  let dest := destinations (bucketOrder hashes nbuckets)
  let (_, arranged) ← arrange (swapEntries symndx nsyms) hashedCount hashedCount (dest, ⟨t.data, hashes, []⟩)
  let bitmask := bitmask.getD (maskwords - 1)
  let filter ← bloomFilter b bitmask maskwords shift2 arranged.hashes
  let buckets := firstSymbols symndx nbuckets arranged.hashes
  let chains := chainWords nbuckets arranged.hashes
  return {
    table := { t with data := arranged.data }
    section_ := [nbuckets, symndx, maskwords, shift2].flatMap (encode o 4) ++
      (filter.flatMap (encode o (wordBytes b)) ++ (buckets ++ chains).flatMap (encode o 4))
    notified := arranged.notified
    bitmask }

/-! ## Lookup -/

variable (o : Order) (section_ : List U8)

/-- One of the four counts. -/
def header (k : Nat) : Nat := if section_.length < 16 then 0 else readAt o 4 section_ (4 * k)

def nbuckets : Nat := header o section_ 0
def symndx : Nat := header o section_ 1
def maskwords : Nat := header o section_ 2
def mshift2 : Nat := header o section_ 3

/-- An element of a span of `count` elements over the section. No access is checked; there is no element behind the last
one of the span, or where the section has ended. -/
def element (offset size count i : Nat) : Option Nat :=
  if i < count ∧ offset + size * (i + 1) ≤ section_.length then some (readAt o size section_ (offset + size * i)) else none

variable (b)

def bloom (i : Nat) : Option Nat := element o section_ 16 (wordBytes b) (maskwords o section_) i

def bucket (i : Nat) : Option Nat :=
  element o section_ (16 + maskwords o section_ * wordBytes b) 4 (nbuckets o section_) i

/-- The span of the chains, too, is made with the number of the buckets. -/
def chain (i : Nat) : Option Nat :=
  element o section_ (16 + maskwords o section_ * wordBytes b + nbuckets o section_ * 4) 4 (nbuckets o section_) i

variable {b}

/-- The `while (true)` of the lookup, from one position of the chains to the next. -/
def crawl (chain : Nat → Option Nat) (accept : Nat → Nat → Bool) : Nat → Nat → Option (Option Nat)
  | 0, _ => none
  | fuel + 1, chainIndex =>
    match chain chainIndex with
    | none => none
    | some chainHash =>
      if accept chainIndex chainHash then some (some chainIndex)
      else if chainHash % 2 = 1 then some none
      else crawl chain accept fuel (chainIndex + 1)

def findHashedSymbol (t : SymbolTable b) (name : List U8) : Option Nat := do
  let hash := (djb name).toNat
  if maskwords o section_ = 0 ∨ nbuckets o section_ = 0 then none
  let storedBits ← bloom b o section_ (hash / wordBits b % maskwords o section_)
  let bloomBits := bloomBits b (mshift2 o section_) hash
  if storedBits &&& bloomBits ≠ bloomBits then return 0
  let first ← bucket b o section_ (hash % nbuckets o section_)
  let symoffset := symndx o section_
  if first < symoffset then return 0
  let accept chainIndex chainHash :=
    decide (chainHash / 2 = hash / 2) && decide (t.getSymbolName (symoffset + chainIndex) = name)
  let found ← crawl (chain b o section_) accept (2 ^ 32) (first - symoffset)
  return match found with
    | none => 0
    | some chainIndex => symoffset + chainIndex

end GnuHash

end Pepp.Elf

/-! ## The parts of a GNU hash section

Each loop of the construction by what it leaves: the order of the buckets and
its inverse, the bits of the filter, the first symbols, the ends of the chains;
and the crawl of a lookup. -/

namespace Pepp.Elf.GnuHash

open Endian CycleWalk

variable {b : ElfBits}

/-! ## Rounding -/

theorem powerOfTwo_spec (value : Nat) :
    (powerOfTwo value = none ∧ 2 ^ 31 < value) ∨ (value ≤ 2 ^ 31 ∧ ∃ k < 32, powerOfTwo value = some (2 ^ k)) := by
  rw [powerOfTwo]
  cases hfind : (List.range 32).find? fun k => decide (value ≤ 2 ^ k) with
  | none =>
    have := List.find?_eq_none.mp hfind 31 (by decide)
    rw [decide_eq_true_iff, not_le] at this
    exact .inl ⟨rfl, this⟩
  | some k =>
    have hk := List.mem_range.mp (List.mem_of_find?_eq_some hfind)
    have hle : value ≤ 2 ^ k := by simpa using List.find?_some hfind
    refine .inr ⟨hle.trans (Nat.pow_le_pow_right (by decide) (by omega)), k, hk, rfl⟩

/-! ## The order of the buckets -/

theorem bucketOrder_perm (hashes : List Nat) (nbuckets : Nat) :
    (bucketOrder hashes nbuckets).Perm (List.range hashes.length) := List.perm_insertionSort _ _

theorem bucketOrder_sorted (hashes : List Nat) (nbuckets : Nat) : (bucketOrder hashes nbuckets).Pairwise fun i j =>
    hashes.getD i 0 % nbuckets ≤ hashes.getD j 0 % nbuckets := by
  have : Std.Total fun i j => hashes.getD i 0 % nbuckets ≤ hashes.getD j 0 % nbuckets := ⟨fun i j => le_total _ _⟩
  have : IsTrans Nat fun i j => hashes.getD i 0 % nbuckets ≤ hashes.getD j 0 % nbuckets :=
    ⟨fun i j k hij hjk => hij.trans hjk⟩
  exact List.pairwise_insertionSort _ _

theorem destinations_spec {perm : List Nat} {n : Nat} (h : perm.Perm (List.range n)) :
    (destinations perm).Perm (List.range n) ∧ ∀ k d : Nat, (destinations perm)[k]? = some d → perm[d]? = some k := by
  have hlen := h.length_eq
  rw [List.length_range] at hlen
  have hloop : ∀ m ≤ n, ((List.range m).foldl (fun dest newpos => dest.set (perm.getD newpos 0) newpos)
      (List.replicate perm.length 0)).length = n ∧
      ∀ d k : Nat, d < m → perm[d]? = some k → ((List.range m).foldl (fun dest newpos => dest.set (perm.getD newpos 0) newpos)
        (List.replicate perm.length 0))[k]? = some d := by
    intro m hm
    induction m with
    | zero => exact ⟨by simp [hlen], nofun⟩
    | succ m ih =>
      obtain ⟨ihlen, ihat⟩ := ih (by omega)
      rw [List.range_succ, List.foldl_append, List.foldl_cons, List.foldl_nil]
      refine ⟨by rw [List.length_set, ihlen], fun d k hd hk => ?_⟩
      have hkn := (lt_of_perm h hk).2
      have hmat : perm[m]? = some (perm.getD m 0) := by
        rw [List.getD_eq_getElem?_getD, List.getElem?_eq_getElem (by omega), Option.getD_some]
      by_cases hdm : d = m
      · subst hdm
        rw [hk, Option.some.injEq] at hmat
        rw [← hmat, List.getElem?_set_self (by omega)]
      · have hne : perm.getD m 0 ≠ k := by
          rintro rfl
          exact hdm (inj_of_perm h hk hmat)
        rw [List.getElem?_set_ne hne]
        exact ihat d k (by omega) hk
  obtain ⟨hdlen, hat⟩ := hloop n le_rfl
  rw [← hlen] at hat hdlen
  change (destinations perm).length = perm.length at hdlen
  have hperm : (destinations perm).Perm (List.range n) := by
    have hsub : (List.range n).Subperm (destinations perm) := by
      refine List.subperm_of_subset List.nodup_range fun d hd => ?_
      have hd := List.mem_range.mp hd
      exact List.mem_of_getElem? (hat d _ (by omega) (List.getElem?_eq_getElem (by omega)))
    exact (hsub.perm_of_length_le (by rw [List.length_range]; omega)).symm
  refine ⟨hperm, fun k d hkd => ?_⟩
  obtain ⟨hk, hd⟩ := lt_of_perm hperm hkd
  have hpd : perm[d]? = some perm[d] := List.getElem?_eq_getElem (by omega)
  have hback := hat d _ (by omega) hpd
  rw [hpd, inj_of_perm hperm hkd hback]

/-! ## The filter -/

theorem wordBits_pos (b : ElfBits) : 0 < wordBits b := by cases b <;> decide

theorem testBit_bloomBits (shift2 hash k : Nat) : (bloomBits b shift2 hash).testBit k =
    (decide (hash % wordBits b = k) || decide ((hash >>> shift2) % wordBits b = k)) := by
  rw [bloomBits, Nat.testBit_or, Nat.testBit_two_pow, Nat.testBit_two_pow]

/-- A filter has both bits of a hash. -/
theorem and_bloomBits (shift2 hash stored : Nat) : stored &&& bloomBits b shift2 hash = bloomBits b shift2 hash ↔
    ∀ k, (bloomBits b shift2 hash).testBit k = true → stored.testBit k = true := by
  constructor
  · intro heq k hk
    rw [← heq, Nat.testBit_and, Bool.and_eq_true] at hk
    exact hk.1
  · intro hall
    refine Nat.eq_of_testBit_eq fun k => ?_
    rw [Nat.testBit_and]
    cases hk : (bloomBits b shift2 hash).testBit k with
    | false => rw [Bool.and_false]
    | true => rw [hall k hk, Bool.and_true]

/-- The filter has exactly the bits of the hashes, each in its word, if all these words are there. -/
theorem bloomFilter_spec (b : ElfBits) (bitmask maskwords shift2 : Nat) (hashes : List Nat) :
    (bloomFilter b bitmask maskwords shift2 hashes ≠ none ↔ ∀ h ∈ hashes, h / wordBits b &&& bitmask < maskwords) ∧
      ∀ filter, bloomFilter b bitmask maskwords shift2 hashes = some filter → filter.length = maskwords ∧
        ∀ w < maskwords, ∀ k, (filter.getD w 0).testBit k = true ↔
          ∃ h ∈ hashes, h / wordBits b &&& bitmask = w ∧ (bloomBits b shift2 h).testBit k = true := by
  have hgen : ∀ start : List Nat, start.length = maskwords →
      (hashes.foldlM (fun filter hash =>
        let word := hash / wordBits b &&& bitmask
        if word < maskwords then some (filter.set word (filter.getD word 0 ||| bloomBits b shift2 hash)) else none)
        start ≠ none ↔ ∀ h ∈ hashes, h / wordBits b &&& bitmask < maskwords) ∧
      ∀ filter, hashes.foldlM (fun filter hash =>
        let word := hash / wordBits b &&& bitmask
        if word < maskwords then some (filter.set word (filter.getD word 0 ||| bloomBits b shift2 hash)) else none)
        start = some filter → filter.length = maskwords ∧
        ∀ w < maskwords, ∀ k, (filter.getD w 0).testBit k = true ↔ (start.getD w 0).testBit k = true ∨
          ∃ h ∈ hashes, h / wordBits b &&& bitmask = w ∧ (bloomBits b shift2 h).testBit k = true := by
    induction hashes with
    | nil =>
      intro start hstart
      refine ⟨iff_of_true (by simp) nofun, fun filter hfilter => ?_⟩
      obtain rfl : start = filter := by simpa using hfilter
      exact ⟨hstart, fun w _ k => (or_iff_left (by simp)).symm⟩
    | cons hash hashes ih =>
      intro start hstart
      simp only [List.foldlM_cons, List.forall_mem_cons]
      by_cases hword : hash / wordBits b &&& bitmask < maskwords
      · simp only [hword, if_true, true_and, Option.bind_eq_bind, Option.bind_some]
        obtain ⟨ihnone, ihsome⟩ := ih (start.set (hash / wordBits b &&& bitmask)
          (start.getD (hash / wordBits b &&& bitmask) 0 ||| bloomBits b shift2 hash)) (by rw [List.length_set, hstart])
        refine ⟨ihnone, fun filter hfilter => ?_⟩
        obtain ⟨hlen, hbits⟩ := ihsome filter hfilter
        refine ⟨hlen, fun w hw k => (hbits w hw k).trans ?_⟩
        simp only [List.exists_mem_cons_iff]
        rw [← or_assoc]
        refine or_congr_left ?_
        rw [List.getD_eq_getElem?_getD, List.getD_eq_getElem?_getD]
        by_cases hwe : hash / wordBits b &&& bitmask = w
        · rw [← hwe, List.getElem?_set_self (by omega), Option.getD_some, Nat.testBit_or, Bool.or_eq_true]
          simp
        · rw [List.getElem?_set_ne hwe]
          simp [hwe]
      · simp [hword]
  obtain ⟨hnone, hsome⟩ := hgen (List.replicate maskwords 0) List.length_replicate
  refine ⟨hnone, fun filter hfilter => ?_⟩
  obtain ⟨hlen, hbits⟩ := hsome filter hfilter
  refine ⟨hlen, fun w hw k => (hbits w hw k).trans (or_iff_right ?_)⟩
  rw [List.getD_eq_getElem?_getD, List.getElem?_replicate, if_pos hw, Option.getD_some, Nat.zero_testBit]
  exact Bool.false_ne_true

/-! ## Buckets and chains -/

variable {hashes : List Nat} (name : List U8)

/-- Every bucket has the first of its symbols, or 0. -/
theorem firstSymbols_spec {symndx nbuckets : Nat} (hs : hashes ≠ [] → 1 ≤ symndx) (hn : 0 < nbuckets) :
    (firstSymbols symndx nbuckets hashes).length = nbuckets ∧ ∀ β < nbuckets,
      ((firstSymbols symndx nbuckets hashes).getD β 0 = 0 ∧ ∀ i < hashes.length, hashes.getD i 0 % nbuckets ≠ β) ∨
      ∃ i < hashes.length, (firstSymbols symndx nbuckets hashes).getD β 0 = symndx + i ∧ hashes.getD i 0 % nbuckets = β ∧
        ∀ j < i, hashes.getD j 0 % nbuckets ≠ β := by
  have hloop : ∀ m ≤ hashes.length, ∀ buckets : List Nat, (List.range m).foldl (fun buckets i =>
      let bucket := hashes.getD i 0 % nbuckets
      if buckets.getD bucket 0 = 0 then buckets.set bucket (symndx + i) else buckets) (List.replicate nbuckets 0) = buckets →
      buckets.length = nbuckets ∧ ∀ β < nbuckets,
      (buckets.getD β 0 = 0 ∧ ∀ i < m, hashes.getD i 0 % nbuckets ≠ β) ∨
      ∃ i < m, buckets.getD β 0 = symndx + i ∧ hashes.getD i 0 % nbuckets = β ∧
        ∀ j < i, hashes.getD j 0 % nbuckets ≠ β := by
    intro m hm
    induction m with
    | zero =>
      rintro _ rfl
      refine ⟨List.length_replicate, fun β hβ => .inl ⟨?_, nofun⟩⟩
      rw [List.range_zero, List.foldl_nil, List.getD_eq_getElem?_getD, List.getElem?_replicate, if_pos hβ, Option.getD_some]
    | succ m ih =>
      rintro _ rfl
      rw [List.range_succ, List.foldl_append, List.foldl_cons, List.foldl_nil]
      obtain ⟨hlen, hspec⟩ := ih (by omega) _ rfl
      have hs := hs (List.length_pos_iff.mp (by omega))
      generalize (List.range m).foldl _ _ = buckets at hlen hspec
      have hin : hashes.getD m 0 % nbuckets < nbuckets := Nat.mod_lt _ hn
      simp only
      split
      · next hzero =>
        refine ⟨by rw [List.length_set, hlen], fun β hβ => ?_⟩
        rw [List.getD_eq_getElem?_getD]
        by_cases hβeq : hashes.getD m 0 % nbuckets = β
        · rw [hβeq, List.getElem?_set_self (by omega)]
          refine .inr ⟨m, by omega, rfl, hβeq, ?_⟩
          rcases hspec β hβ with ⟨-, hnone⟩ | ⟨i, -, hi, -⟩
          · exact hnone
          · rw [hβeq, hi] at hzero
            omega
        · rw [List.getElem?_set_ne hβeq, ← List.getD_eq_getElem?_getD]
          rcases hspec β hβ with ⟨h0, hnone⟩ | ⟨i, hi, hfirst⟩
          · refine .inl ⟨h0, fun i hi => ?_⟩
            rcases Nat.lt_succ_iff_lt_or_eq.mp hi with hi | rfl
            · exact hnone i hi
            · exact hβeq
          · exact .inr ⟨i, by omega, hfirst⟩
      · next hnonzero =>
        refine ⟨hlen, fun β hβ => ?_⟩
        rcases hspec β hβ with ⟨h0, hnone⟩ | ⟨i, hi, hfirst⟩
        · refine .inl ⟨h0, fun i hi => ?_⟩
          rcases Nat.lt_succ_iff_lt_or_eq.mp hi with hi | rfl
          · exact hnone i hi
          · rintro rfl
            exact hnonzero h0
        · exact .inr ⟨i, by omega, hfirst⟩
  exact hloop _ le_rfl _ rfl

/-- A chain word has its hash but for the lowest bit, which says that the next symbol is in another bucket. -/
theorem chainWords_spec (nbuckets : Nat) {i : Nat} (hi : i < hashes.length) :
    ∃ word, (chainWords nbuckets hashes)[i]? = some word ∧ word / 2 = hashes.getD i 0 / 2 ∧
      (word % 2 = 1 ↔ i + 1 = hashes.length ∨ hashes.getD (i + 1) 0 % nbuckets ≠ hashes.getD i 0 % nbuckets) := by
  refine ⟨_, by rw [chainWords, List.getElem?_map, List.getElem?_range hi, Option.map_some], ?_⟩
  simp only
  split
  · next hlast => exact ⟨by omega, iff_of_true (by omega) hlast⟩
  · next hmore => exact ⟨by omega, iff_of_false (by omega) hmore⟩

/-- Over hashes in the order of their buckets a crawl sees the rest of its bucket, and nothing else. -/
theorem crawl_spec {nbuckets : Nat} (hsorted : hashes.Pairwise fun x y => x % nbuckets ≤ y % nbuckets)
    {chain : Nat → Option Nat} (hchain : ∀ i < hashes.length, chain i = (chainWords nbuckets hashes)[i]?)
    (accept : Nat → Nat → Bool) {fuel i : Nat} (hi : i < hashes.length) (hfuel : hashes.length - i < fuel) :
    (crawl chain accept fuel i = some none ∧ ∀ j, i ≤ j → j < hashes.length →
      hashes.getD j 0 % nbuckets = hashes.getD i 0 % nbuckets → ∀ word, chain j = some word → accept j word = false) ∨
    ∃ j word, crawl chain accept fuel i = some (some j) ∧ i ≤ j ∧ j < hashes.length ∧ chain j = some word ∧
      accept j word = true := by
  induction fuel generalizing i with
  | zero => omega
  | succ fuel ih =>
    obtain ⟨word, hword, -, hlast⟩ := chainWords_spec nbuckets hi
    rw [← hchain i hi] at hword
    rw [crawl, hword]
    simp only
    cases haccept : accept i word with
    | true => exact .inr ⟨i, word, if_pos rfl, le_rfl, hi, hword, haccept⟩
    | false =>
      rw [if_neg Bool.false_ne_true]
      have hself : ∀ w, chain i = some w → accept i w = false := by
        intro w hw
        rw [hword, Option.some.injEq] at hw
        rwa [← hw]
      by_cases hodd : word % 2 = 1
      · rw [if_pos hodd]
        refine .inl ⟨rfl, fun j hij hj hbucket => ?_⟩
        rcases Nat.eq_or_lt_of_le hij with rfl | hij
        · exact hself
        · -- The bucket has ended, and does not come again.
          have hnext : hashes.getD (i + 1) 0 % nbuckets ≠ hashes.getD i 0 % nbuckets :=
            (hlast.mp hodd).resolve_left (by omega)
          have hmono : ∀ {p q : Nat}, p ≤ q → q < hashes.length →
              hashes.getD p 0 % nbuckets ≤ hashes.getD q 0 % nbuckets := by
            intro p q hpq hq
            rw [List.getD_eq_getElem _ _ (by omega), List.getD_eq_getElem _ _ hq]
            rcases Nat.eq_or_lt_of_le hpq with rfl | hlt
            · exact le_rfl
            · exact List.pairwise_iff_getElem.mp hsorted p q (by omega) hq hlt
          have h1 := hmono (show i ≤ i + 1 by omega) (by omega)
          have h2 := hmono (show i + 1 ≤ j by omega) hj
          omega
      · rw [if_neg hodd]
        obtain ⟨hmore, hsame⟩ := not_or.mp (fun h => hodd (hlast.mpr h))
        rw [not_not] at hsame
        rcases ih (show i + 1 < hashes.length by omega) (by omega) with ⟨hnone, hall⟩ | ⟨j, w, hfound, hij, hj⟩
        · refine .inl ⟨hnone, fun j hij hj hbucket => ?_⟩
          rcases Nat.eq_or_lt_of_le hij with rfl | hij
          · exact hself
          · exact hall j hij hj (hbucket.trans hsame.symm)
        · exact .inr ⟨j, w, hfound, by omega, hj⟩

/-- A crawl that comes to an entry that is not there has no result. -/
theorem crawl_stuck {nbuckets : Nat} {chain : Nat → Option Nat} {m : Nat} (hm : m < hashes.length)
    (hchain : ∀ i < m, chain i = (chainWords nbuckets hashes)[i]?) (hend : chain m = none) {accept : Nat → Nat → Bool}
    (haccept : ∀ i < m, ∀ word, accept i word = false) (fuel : Nat) {i : Nat} (hi : i ≤ m)
    (hbucket : ∀ j, i ≤ j → j ≤ m → hashes.getD j 0 % nbuckets = hashes.getD m 0 % nbuckets) :
    crawl chain accept fuel i = none := by
  induction fuel generalizing i with
  | zero => rfl
  | succ fuel ih =>
    rw [crawl]
    rcases Nat.eq_or_lt_of_le hi with rfl | hlt
    · rw [hend]
    · obtain ⟨word, hword, -, hlast⟩ := chainWords_spec nbuckets (show i < hashes.length by omega)
      rw [hchain i hlt, hword]
      dsimp only
      rw [haccept i hlt, if_neg Bool.false_ne_true, if_neg]
      · exact ih hlt fun j hij => hbucket j (by omega)
      · rw [hlast, not_or, not_not]
        exact ⟨by omega, (hbucket (i + 1) (by omega) hlt).trans (hbucket i le_rfl hi).symm⟩

/-! ## Names with one hash -/

/-- The map that a character makes of a hash, as often as a power of two says, is the identity modulo that power. -/
theorem iterate_affine (c k : Nat) : ∃ m n, ∀ h : Nat,
    (fun h => 33 * h + c)^[2 ^ k] h = (1 + 2 ^ (k + 1) * m) * h + 2 ^ k * n := by
  induction k with
  | zero => exact ⟨16, c, fun h => by rw [pow_zero, Function.iterate_one]; omega⟩
  | succ k ih =>
    obtain ⟨m, n, hmn⟩ := ih
    refine ⟨m + 2 ^ k * m * m, n * (1 + 2 ^ k * m), fun h => ?_⟩
    rw [pow_succ, Nat.mul_two, Function.iterate_add_apply, hmn, hmn]
    ring

theorem iterate_modEq (c : Nat) {k : Nat} (hk : 32 ≤ k) (h : Nat) :
    (fun h => 33 * h + c)^[2 ^ k] h % 2 ^ 32 = h % 2 ^ 32 := by
  obtain ⟨m, n, hmn⟩ := iterate_affine c k
  obtain ⟨j, rfl⟩ := Nat.exists_eq_add_of_le hk
  have hsum : (1 + 2 ^ (32 + j + 1) * m) * h + 2 ^ (32 + j) * n = h + 2 ^ 32 * (2 ^ (j + 1) * m * h + 2 ^ j * n) := by ring
  rw [hmn, hsum, Nat.add_mul_mod_self_left]

/-- The hash as arithmetic on numbers. -/
def djbNat (name : List U8) (start : Nat) : Nat := name.foldl (fun h c => 33 * h + (c.signExtend 64).toNat) start

theorem djbNat_modEq {x y : Nat} (h : x % 2 ^ 32 = y % 2 ^ 32) : djbNat name x % 2 ^ 32 = djbNat name y % 2 ^ 32 := by
  induction name generalizing x y with
  | nil => exact h
  | cons c name ih =>
    refine ih ?_
    dsimp only
    omega

theorem djb_fold (start : U64) :
    (name.foldl (fun (h : U64) (c : U8) => (h <<< 5) + h + c.signExtend 64) start).toNat % 2 ^ 32 =
      djbNat name start.toNat % 2 ^ 32 := by
  induction name generalizing start with
  | nil => rfl
  | cons c name ih =>
    rw [List.foldl_cons, ih]
    refine djbNat_modEq name ?_
    have hshift : (start <<< 5).toNat = start.toNat * 32 % 2 ^ 64 := by
      rw [BitVec.toNat_shiftLeft, Nat.shiftLeft_eq]
    dsimp only
    rw [BitVec.toNat_add, BitVec.toNat_add, hshift]
    omega

theorem toNat_djb : (djb name).toNat = djbNat name 5381 % 2 ^ 32 := by
  rw [djb, BitVec.toNat_setWidth, djb_fold]
  rfl

theorem djbNat_replicate (c : U8) (n start : Nat) :
    djbNat (List.replicate n c) start = (fun h => 33 * h + (c.signExtend 64).toNat)^[n] start := by
  induction n generalizing start with
  | zero => rfl
  | succ n ih =>
    rw [Function.iterate_succ_apply, ← ih]
    rfl

/-- A name has the hash of one with that many letters in front of it. -/
theorem djb_replicate {k : Nat} (hk : 32 ≤ k) : djb (List.replicate (2 ^ k) 0x61 ++ name) = djb name := by
  apply BitVec.eq_of_toNat_eq
  rw [toNat_djb, toNat_djb, djbNat, List.foldl_append]
  refine djbNat_modEq name ?_
  rw [← djbNat, djbNat_replicate]
  exact iterate_modEq _ hk _

/-- There is no list of all names with a hash. -/
theorem exists_collision (names : List (List U8)) : ∃ other, djb other = djb name ∧ other ∉ names := by
  refine ⟨List.replicate (2 ^ (32 + (names.map List.length).sum)) 0x61 ++ name, djb_replicate name (Nat.le_add_right _ _),
    fun hmem => ?_⟩
  have hle := List.single_le_sum (l := names.map List.length) (fun _ _ => Nat.zero_le _) _ (List.mem_map_of_mem hmem)
  rw [List.length_append, List.length_replicate] at hle
  have hlt : 32 + (names.map List.length).sum < 2 ^ (32 + (names.map List.length).sum) := Nat.lt_two_pow_self
  omega

end Pepp.Elf.GnuHash
