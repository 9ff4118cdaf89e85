import Pepp.Elf.GnuHashSection
import Pepp.Elf.SysvHash

/-!
# Tables of one process

What a build and its lookups should do, what of it depends on the mask that an
earlier build has left, and the tables a process builds one after another.
-/

namespace Pepp.Elf.GnuHash

open Endian CycleWalk

variable {b : ElfBits}

/-- The arguments of one `compute_hash_table`. -/
structure Request (b : ElfBits) where
  table : SymbolTable b
  nbuckets : U32
  symndx : U32
  maskwords : U32
  shift2 : U32

namespace Request

variable (r : Request b)

structure Admissible : Prop where
  table : r.table.WellFormed
  symndx : 1 ≤ r.symndx.toNat
  shift2 : r.shift2.toNat < 32

def build (o : Order) (bitmask : Option Nat) : Option (Built b) :=
  computeHashTable o r.table bitmask r.nbuckets.toNat r.symndx.toNat r.maskwords.toNat r.shift2.toNat

/-- The first hashed symbol. -/
def first : Nat := min r.symndx.toNat r.table.symbolCount

def hashes : List Nat := hashesOf r.table r.first

/-- The words of the filter. -/
def words : Option Nat :=
  powerOfTwo (if r.maskwords.toNat = 0 then max 1 ((r.table.symbolCount - r.first) / 8) else r.maskwords.toNat)

def shift : Nat := if r.shift2.toNat = 0 then 5 else r.shift2.toNat

def buckets : Nat :=
  if r.nbuckets.toNat = 0 then max 1 ((r.table.symbolCount - r.first) / 2) else r.nbuckets.toNat

/-- The mask with which the filter is written. -/
def mask (bitmask : Option Nat) : Nat := bitmask.getD (r.words.getD 0 - 1)

/-- Some symbol from the first hashed one on has the name. -/
def Present (t : SymbolTable b) (name : List U8) : Prop :=
  ∃ j, r.symndx.toNat ≤ j ∧ j < t.data.length ∧ t.nameOf j = name

/-- Only the hashed symbols are permuted, as notified, and lookups are exact. -/
structure Exact (o : Order) (built : Built b) : Prop where
  kept : ∀ k : Nat, k < r.symndx.toNat → built.table.data[k]? = r.table.data[k]?
  perm : built.table.data.Perm r.table.data
  notified : built.table.data =
    (applySwaps (List.range r.table.data.length) built.notified).map fun k => r.table.data.getD k {}
  lookup : ∀ name, ∃ i, findHashedSymbol o built.section_ built.table name = some i ∧
    (r.Present built.table name → r.symndx.toNat ≤ i ∧ i < built.table.data.length ∧ built.table.nameOf i = name) ∧
    (¬ r.Present built.table name → i = 0)

/-- There are as many buckets as hashed symbols, the words that the mask leads to are there, hashed symbols have put the
bits of each hash into the word that its remainder leads to, and every symbol that is not counted has the name of one
that is hashed. -/
structure Covered (bitmask : Option Nat) : Prop where
  room : r.table.symbolCount - r.first ≤ r.buckets
  words : r.words ≠ none
  inside : ∀ h ∈ r.hashes, h / wordBits b &&& r.mask bitmask < r.words.getD 0
  bits : ∀ h ∈ r.hashes, ∀ k, (bloomBits b r.shift h).testBit k = true →
    ∃ h' ∈ r.hashes, h' / wordBits b &&& r.mask bitmask = h / wordBits b % r.words.getD 0 ∧
      (bloomBits b r.shift h').testBit k = true
  counted : ∀ j, r.table.symbolCount ≤ j → r.symndx.toNat ≤ j → j < r.table.data.length →
    ∃ i, r.symndx.toNat ≤ i ∧ i < r.table.symbolCount ∧ r.table.nameOf i = r.table.nameOf j

variable {r}

/-! ## One build -/

theorem first_pos (h : r.Admissible) (hcount : 0 < r.table.symbolCount) : 1 ≤ r.first :=
  le_min h.symndx hcount

theorem buckets_bounds (h : r.Admissible) : 0 < r.buckets ∧ r.buckets < 2 ^ 32 := by
  have hcount := (SymbolTable.symbolCount_le h.table).2
  have hlt := r.nbuckets.isLt
  unfold buckets
  split <;> omega

theorem shift_lt (h : r.Admissible) : r.shift < 2 ^ 32 := by
  have := h.shift2
  unfold shift
  split <;> omega

theorem words_bounds {words : Nat} (h : r.words = some words) : 0 < words ∧ words < 2 ^ 32 := by
  unfold Request.words at h
  rcases powerOfTwo_spec (if r.maskwords.toNat = 0 then max 1 ((r.table.symbolCount - r.first) / 8)
    else r.maskwords.toNat) with ⟨hnone, -⟩ | ⟨-, k, hk, hsome⟩
  · rw [hnone] at h
    cases h
  · rw [hsome, Option.some.injEq] at h
    rw [← h]
    exact ⟨Nat.two_pow_pos k, Nat.pow_lt_pow_right (by decide) hk⟩

/-- The swaps always end. All that can fail is the size of the filter, and a word that is not in it. -/
theorem build_cases (h : r.Admissible) (o : Order) (bitmask : Option Nat) :
    (r.build o bitmask = none ∧ (r.words = none ∨
      ∃ hash ∈ r.hashes, ¬ hash / wordBits b &&& r.mask bitmask < r.words.getD 0)) ∨
    ∃ s filter, Laid r.table r.first r.buckets r.shift filter s ∧ r.words = some filter.length ∧
      (∀ hash ∈ r.hashes, hash / wordBits b &&& r.mask bitmask < filter.length) ∧
      (∀ w < filter.length, ∀ k, (filter.getD w 0).testBit k = true ↔ ∃ hash ∈ r.hashes,
        hash / wordBits b &&& r.mask bitmask = w ∧ (bloomBits b r.shift hash).testBit k = true) ∧
      r.build o bitmask = some ⟨{ r.table with data := s.data }, laidSection o r.first r.buckets r.shift filter s,
        s.notified, r.mask bitmask⟩ := by
  obtain ⟨s, harrange, hs⟩ := arrange_arranged h.table (first_pos h) r.buckets
  have hhlen : s.hashes.length = r.table.symbolCount - r.first := by rw [hs.perm.length_eq, length_hashesOf]
  obtain ⟨hblen, -⟩ := @firstSymbols_spec s.hashes r.first r.buckets
    (fun hne => first_pos h (by have := List.length_pos_iff.mpr hne; omega)) (buckets_bounds h).1
  have hmem : ∀ hash, hash ∈ s.hashes ↔ hash ∈ r.hashes := fun hash => hs.perm.mem_iff
  have hbuild : r.build o bitmask = r.words.bind fun words =>
      (bloomFilter b (bitmask.getD (words - 1)) words r.shift s.hashes).map fun filter =>
        ⟨{ r.table with data := s.data }, [r.buckets, r.first, words, r.shift].flatMap (encode o 4) ++
          (filter.flatMap (encode o (wordBytes b)) ++
            (firstSymbols r.first r.buckets s.hashes ++ chainWords r.buckets s.hashes).flatMap (encode o 4)), s.notified,
          bitmask.getD (words - 1)⟩ := by
    change (r.words.bind fun words =>
      (arrange (swapEntries r.first r.table.symbolCount) (r.table.symbolCount - r.first) (r.table.symbolCount - r.first)
        (destinations (bucketOrder (hashesOf r.table r.first) r.buckets),
          ⟨r.table.data, hashesOf r.table r.first, []⟩)).bind fun arranged =>
        (bloomFilter b (bitmask.getD (words - 1)) words r.shift arranged.2.hashes).bind fun filter => some _) = _
    simp only [harrange, Option.bind_some, Option.map_eq_bind]
    rfl
  cases hwords : r.words with
  | none => exact .inl ⟨by rw [hbuild, hwords, Option.bind_none], .inl rfl⟩
  | some words =>
    have hmask : r.mask bitmask = bitmask.getD (words - 1) := by rw [mask, hwords, Option.getD_some]
    rw [hwords, Option.bind_some, ← hmask] at hbuild
    obtain ⟨hnone, hsome⟩ := bloomFilter_spec b (r.mask bitmask) words r.shift s.hashes
    simp only [hmem] at hnone hsome
    cases hfilter : bloomFilter b (r.mask bitmask) words r.shift s.hashes with
    | none =>
      refine .inl ⟨by rw [hbuild, hfilter, Option.map_none], .inr ?_⟩
      by_contra hall
      refine hnone.mpr (fun hash hhash => ?_) hfilter
      by_contra hout
      exact hall ⟨hash, hhash, hout⟩
    | some filter =>
      obtain ⟨rfl, hbits⟩ := hsome filter hfilter
      obtain ⟨hfpos, hflt⟩ := words_bounds hwords
      have hlaid : Laid r.table r.first r.buckets r.shift filter s := ⟨h.table, first_pos h, min_le_right _ _,
        (buckets_bounds h).1, (buckets_bounds h).2, shift_lt h, hs, hfpos, hflt⟩
      refine .inr ⟨s, filter, hlaid, rfl, hnone.mp (by rw [hfilter]; simp), hbits, ?_⟩
      rw [hbuild, hfilter, Option.map_some, laidSection, sectionOf, hblen]

/-- What a build has permuted, whatever the filter. -/
theorem permutes {s : Arranging b} (hs : Arranged r.table r.first r.buckets s) :
    (∀ k : Nat, k < r.symndx.toNat → s.data[k]? = r.table.data[k]?) ∧ s.data.Perm r.table.data ∧
      s.data = (applySwaps (List.range r.table.data.length) s.notified).map fun k => r.table.data.getD k {} := by
  refine ⟨fun k hk => hs.outside k ?_, ?_, ?_⟩
  · by_cases hc : r.table.symbolCount ≤ k
    · exact .inr hc
    · exact .inl (lt_min hk (by omega))
  · rw [hs.data]
    exact applySwaps_perm _ _
  · have hself : (List.range r.table.data.length).map (fun k => r.table.data.getD k {}) = r.table.data := by
      refine List.ext_getElem (by rw [List.length_map, List.length_range]) fun k hk hk' => ?_
      rw [List.getElem_map, List.getElem_range, List.getD_eq_getElem _ _ hk']
    rw [← applySwaps_map, hself]
    exact hs.data

/-- Without as many buckets as hashed symbols, some lookup is not exact. -/
theorem room_of_exact (h : r.Admissible) {o : Order} {filter : List Nat} {s : Arranging b} {built : Built b}
    (hlaid : Laid r.table r.first r.buckets r.shift filter s) (htable : built.table = { r.table with data := s.data })
    (hsection : built.section_ = laidSection o r.first r.buckets r.shift filter s) (hexact : r.Exact o built) :
    r.table.symbolCount - r.first ≤ r.buckets := by
  by_contra hroom
  rw [not_le] at hroom
  obtain ⟨hcount, -⟩ := SymbolTable.symbolCount_le h.table
  have hdata : built.table.data.length = r.table.data.length := hexact.perm.length_eq
  have hfirst : r.first = min r.symndx.toNat r.table.symbolCount := rfl
  have hhash := hlaid.arranged.getD_hashes h.table hroom
  -- The first symbol whose element the span of the chains does not have.
  obtain ⟨other, hother, hnew⟩ := exists_collision (built.table.nameOf (r.first + r.buckets))
    ((List.range r.table.symbolCount).map built.table.nameOf)
  rw [← htable, ← hother] at hhash
  have habsent : ∀ k < r.table.symbolCount, built.table.nameOf k ≠ other := fun k hk hname =>
    hnew (List.mem_map.mpr ⟨k, List.mem_range.mpr hk, hname⟩)
  have hpasses : Passes b r.shift filter (djb other).toNat := by
    by_contra hrejected
    obtain ⟨i, hi, hpresent, -⟩ := hexact.lookup (built.table.nameOf (r.first + r.buckets))
    rw [hother] at hrejected
    have hzero := (hlaid.find_eq (o := o) (built.table.nameOf (r.first + r.buckets))).1 hrejected
    rw [← htable, ← hsection, hi, Option.some.injEq] at hzero
    have hthere := (hpresent ⟨r.first + r.buckets, by omega, by omega, rfl⟩).1
    have := h.symndx
    omega
  rw [htable] at habsent
  have hstuck := hlaid.find_stuck (o := o) hroom hhash.symm hpasses habsent
  obtain ⟨i, hi, -⟩ := hexact.lookup other
  rw [← htable, ← hsection, hi] at hstuck
  cases hstuck

/-- The build of a request does what it should if and only if its buckets and its filter cover the symbols. -/
theorem exact_iff (h : r.Admissible) (o : Order) (bitmask : Option Nat) :
    (∃ built, r.build o bitmask = some built ∧ r.Exact o built) ↔ r.Covered bitmask := by
  obtain ⟨hcount, -⟩ := SymbolTable.symbolCount_le h.table
  have hle : r.first ≤ r.table.symbolCount := min_le_right _ _
  have hfirst : ∀ k, r.first ≤ k → k < r.table.symbolCount → r.first = r.symndx.toNat := by
    intro k hk hkc
    have : r.first = min r.symndx.toNat r.table.symbolCount := rfl
    omega
  rcases build_cases h o bitmask with ⟨hnone, hwhy⟩ | ⟨s, filter, hlaid, hwords, hinside, hbits, hbuild⟩
  · constructor
    · rintro ⟨built, hbuilt, -⟩
      rw [hnone] at hbuilt
      cases hbuilt
    · intro hcovered
      rcases hwhy with hwords | ⟨hash, hhash, hout⟩
      · exact absurd hwords hcovered.words
      · exact absurd (hcovered.inside hash hhash) hout
  · have hflen := words_bounds hwords
    have hs := hlaid.arranged
    have hget : r.words.getD 0 = filter.length := by rw [hwords, Option.getD_some]
    have hpass : ∀ hash, Passes b r.shift filter hash ↔ ∀ k, (bloomBits b r.shift hash).testBit k = true →
        ∃ h' ∈ r.hashes, h' / wordBits b &&& r.mask bitmask = hash / wordBits b % filter.length ∧
          (bloomBits b r.shift h').testBit k = true := by
      intro hash
      exact forall_congr' fun k => imp_congr_right fun _ => hbits _ (Nat.mod_lt _ hflen.1) k
    have hsome : ∀ hash, Passes b r.shift filter hash → 0 < r.table.symbolCount := by
      intro hash hyes
      have hbit : (bloomBits b r.shift hash).testBit (hash % wordBits b) = true := by
        rw [testBit_bloomBits, decide_eq_true rfl, Bool.true_or]
      obtain ⟨h', hh', -⟩ := (hpass hash).mp hyes _ hbit
      obtain ⟨k, -, hk, -⟩ := (hs.mem_hashes h.table).mp hh'
      omega
    obtain ⟨hkept, hperm, hnotified⟩ := permutes hs
    have hlen := hs.length
    have hrest : ∀ j, r.table.symbolCount ≤ j →
        ({ r.table with data := s.data } : SymbolTable b).nameOf j = r.table.nameOf j := by
      intro j hj
      rw [SymbolTable.nameOf, SymbolTable.nameOf, List.getD_eq_getElem?_getD, List.getD_eq_getElem?_getD,
        hs.outside j (.inr hj)]
    constructor
    · rintro ⟨built, hbuilt, hexact⟩
      rw [hbuild, Option.some.injEq] at hbuilt
      subst hbuilt
      have hroom := room_of_exact h hlaid rfl rfl hexact
      -- A name that is present has passed the filter, and is at a hashed symbol.
      have hthere : ∀ name, r.Present { r.table with data := s.data } name →
          Passes b r.shift filter (djb name).toNat ∧ ∃ k, r.first ≤ k ∧ k < r.table.symbolCount ∧
            ({ r.table with data := s.data } : SymbolTable b).nameOf k = name := by
        intro name hpresent
        obtain ⟨i, hi, hyes, -⟩ := hexact.lookup name
        have hpos := (hyes hpresent).1
        rcases hlaid.find_cases (o := o) hroom name (hsome _) with ⟨hpassed, k, hk, hkc, -, hname⟩ | ⟨hzero, -⟩
        · exact ⟨hpassed, k, hk, hkc, hname⟩
        · rw [hzero, Option.some.injEq] at hi
          have := h.symndx
          omega
      refine ⟨hroom, by rw [hwords]; simp, fun hash hhash => ?_, fun hash hhash => ?_, fun j hj hsym hjlen => ?_⟩
      · rw [hget]
        exact hinside hash hhash
      · obtain ⟨k, hk, hkc, rfl⟩ := (hs.mem_hashes h.table).mp hhash
        rw [hget]
        have := hfirst k hk hkc
        exact (hpass _).mp (hthere _ ⟨k, by omega, by simp only; omega, rfl⟩).1
      · obtain ⟨-, hfound⟩ := hthere (r.table.nameOf j) ⟨j, hsym, by simp only; omega, hrest j hj⟩
        obtain ⟨k, hk, hkc, hname⟩ := (hs.names h.table hle _).mp hfound
        exact ⟨k, by rw [← hfirst k hk hkc]; exact hk, hkc, hname⟩
    · intro hcovered
      refine ⟨_, hbuild, hkept, hperm, hnotified, fun name => ?_⟩
      have hpassed : ∀ k, r.first ≤ k → k < r.table.symbolCount →
          ({ r.table with data := s.data } : SymbolTable b).nameOf k = name →
          Passes b r.shift filter (djb name).toNat := by
        intro k hk hkc hname
        have := hcovered.bits _ ((hs.mem_hashes h.table).mpr ⟨k, hk, hkc, rfl⟩)
        rw [hget, hname] at this
        exact (hpass _).mpr this
      rcases hlaid.find_cases (o := o) hcovered.room name (hsome _) with ⟨-, k, hk, hkc, hfound, hname⟩ | ⟨hzero, hnone⟩
      · have hsym := hfirst k hk hkc
        refine ⟨k, hfound, fun _ => ⟨by omega, by simp only; omega, hname⟩, fun habsent => absurd ?_ habsent⟩
        exact ⟨k, by omega, by simp only; omega, hname⟩
      · refine ⟨0, hzero, fun hpresent => absurd hpresent ?_, fun _ => rfl⟩
        rintro ⟨j, hsym, hjlen, hname⟩
        obtain ⟨k, hk, hkc, hkname⟩ : ∃ k, r.first ≤ k ∧ k < r.table.symbolCount ∧
            ({ r.table with data := s.data } : SymbolTable b).nameOf k = name := by
          by_cases hjc : j < r.table.symbolCount
          · exact ⟨j, (min_le_left _ _).trans hsym, hjc, hname⟩
          · rw [hrest j (by omega)] at hname
            obtain ⟨i, hi, hic, hiname⟩ := hcovered.counted j (by omega) hsym (by simp only at hjlen; omega)
            exact (hs.names h.table hle name).mpr ⟨i, (min_le_left _ _).trans hi, hic, hiname.trans hname⟩
        exact hnone (hpassed k hk hkc hkname) k hk hkc hkname

theorem build_bitmask (h : r.Admissible) {o : Order} {bitmask : Option Nat} {built : Built b}
    (hbuild : r.build o bitmask = some built) : built.bitmask = r.mask bitmask := by
  rcases build_cases h o bitmask with ⟨hnone, -⟩ | ⟨s, filter, -, -, -, -, hsome⟩
  · rw [hnone] at hbuild
    cases hbuild
  · rw [hsome, Option.some.injEq] at hbuild
    rw [← hbuild]

end Request

/-! ## Sequences of builds -/

/-- One request after the other, all of them served as they should be. -/
def RunExact (o : Order) : Option Nat → List (Request b) → Prop
  | _, [] => True
  | bitmask, r :: rs => ∃ built, (r.build o bitmask = some built ∧ r.Exact o built) ∧ RunExact o (some built.bitmask) rs

/-- Every request is covered with the mask that the first one sets. -/
def RunCovered : Option Nat → List (Request b) → Prop
  | _, [] => True
  | bitmask, r :: rs => r.Covered bitmask ∧ RunCovered (some (r.mask bitmask)) rs

/-- The tables of a process are all built and looked up as they should be if and only if each is covered. -/
theorem runs_exact_iff (o : Order) (rs : List (Request b)) (h : ∀ r ∈ rs, r.Admissible) (bitmask : Option Nat) :
    RunExact o bitmask rs ↔ RunCovered bitmask rs := by
  induction rs generalizing bitmask with
  | nil => rfl
  | cons r rs ih =>
    obtain ⟨hr, hrs⟩ := List.forall_mem_cons.mp h
    rw [RunExact, RunCovered, ← Request.exact_iff hr o bitmask, ← ih hrs]
    constructor
    · rintro ⟨built, hbuilt, hrun⟩
      rw [Request.build_bitmask hr hbuilt.1] at hrun
      exact ⟨⟨built, hbuilt⟩, hrun⟩
    · rintro ⟨⟨built, hbuilt⟩, hrun⟩
      rw [← Request.build_bitmask hr hbuilt.1] at hrun
      exact ⟨built, hbuilt, hrun⟩

/-- The three symbols in four buckets, all of them in one, with a filter of that many words. -/
def repeatedNames (maskwords : U32) : Request .b64 where
  table := SysvHash.repeatedNames
  nbuckets := 4
  symndx := 1
  maskwords := maskwords
  shift2 := 6

theorem admissible_repeatedNames (maskwords : U32) : (repeatedNames maskwords).Admissible :=
  ⟨⟨rfl, rfl⟩, by simp [repeatedNames], by simp [repeatedNames]⟩

theorem runs_exact_repeatedNames : RunExact .little none [repeatedNames 16, repeatedNames 16] := by
  have hhashes : (repeatedNames 16).hashes = [177670, 177674, 177670] := by decide
  have hwords : (repeatedNames 16).words = some 16 := by decide
  have hcovered : ∀ bitmask, (repeatedNames 16).mask bitmask = 15 → (repeatedNames 16).Covered bitmask := by
    intro bitmask hmask
    have hsame : ∀ h ∈ (repeatedNames 16).hashes, h / wordBits .b64 &&& 15 = h / wordBits .b64 % 16 := by
      rw [hhashes]
      decide
    refine ⟨by decide, by rw [hwords]; simp, fun h hh => ?_, fun h hh k hk => ⟨h, hh, ?_, hk⟩, fun j hj _ hjlen => ?_⟩
    · rw [hwords, hmask, hsame h hh]
      exact Nat.mod_lt _ (by decide)
    · rw [hwords, hmask]
      exact hsame h hh
    · have hcount : (repeatedNames 16).table.symbolCount = 4 := by decide
      have hlength : (repeatedNames 16).table.data.length = 4 := rfl
      omega
  refine (runs_exact_iff .little _ ?_ none).mpr ⟨hcovered _ (by decide), hcovered _ (by decide), trivial⟩
  simpa using admissible_repeatedNames 16

/-- After a table with a filter of one word, no symbol is found with one of 16 words. -/
theorem lookup_loses_secondTable : (∀ r ∈ [repeatedNames 1, repeatedNames 16], r.Admissible) ∧
    (∃ small wide, (repeatedNames 1).build .little none = some small ∧
      (repeatedNames 16).build .little (some small.bitmask) = some wide ∧ wide.table.nameOf 1 = [0x61] ∧
      findHashedSymbol .little wide.section_ wide.table [0x61] = some 0) ∧
    ¬ RunExact .little none [repeatedNames 1, repeatedNames 16] := by
  have hfirst : ((repeatedNames 1).build .little none).map Built.bitmask = some 0 := by decide +kernel
  have hsecond : ((repeatedNames 16).build .little (some 0)).map (fun wide =>
      (wide.table.nameOf 1, findHashedSymbol .little wide.section_ wide.table [0x61])) = some ([0x61], some 0) := by
    decide +kernel
  obtain ⟨small, hsmall, hbitmask⟩ := Option.map_eq_some_iff.mp hfirst
  obtain ⟨wide, hwide, hboth⟩ := Option.map_eq_some_iff.mp hsecond
  obtain ⟨hname, hfind⟩ := Prod.mk.inj hboth
  rw [← hbitmask] at hwide
  refine ⟨by simpa using ⟨admissible_repeatedNames 1, admissible_repeatedNames 16⟩,
    ⟨small, wide, hsmall, hwide, hname, hfind⟩, ?_⟩
  rintro ⟨small', ⟨hsmall', -⟩, wide', ⟨hwide', hexact⟩, -⟩
  rw [hsmall, Option.some.injEq] at hsmall'
  subst hsmall'
  rw [hwide, Option.some.injEq] at hwide'
  subst hwide'
  obtain ⟨i, hi, hpresent, -⟩ := hexact.lookup [0x61]
  have hlength : wide.table.data.length = 4 := hexact.perm.length_eq
  have hone : 1 ≤ i := (hpresent ⟨1, le_rfl, by omega, hname⟩).1
  rw [hfind, Option.some.injEq] at hi
  omega

end Pepp.Elf.GnuHash
