import Pepp.Elf.GnuHash

/-!
# Reading a GNU hash section back

What the walk of the swaps leaves of a symbol table, what the accessors find in
a section that was built from such tables, and the lookup as a search among the
hashed symbols that the filter lets through.
-/

namespace Pepp.Elf.GnuHash

open Endian CycleWalk

variable {b : ElfBits}

/-! ## Arranging the symbols -/

/-- The hash of a symbol's name. -/
def hashOf (t : SymbolTable b) (s : Symbol b) : Nat := (djb (t.strings (s.stName.setWidth b.width))).toNat

/-- The hashes of the counted symbols from the first hashed one on. -/
def hashesOf (t : SymbolTable b) (symndx : Nat) : List Nat :=
  (List.range (t.symbolCount - symndx)).map fun i => (djb (t.getSymbolName (symndx + i))).toNat

@[simp] theorem length_hashesOf (t : SymbolTable b) (symndx : Nat) :
    (hashesOf t symndx).length = t.symbolCount - symndx := by
  rw [hashesOf, List.length_map, List.length_range]

/-- Symbols with their hashes, brought into the order of the buckets by swaps. -/
structure Arranged (t : SymbolTable b) (symndx nbuckets : Nat) (s : Arranging b) : Prop where
  data : s.data = applySwaps t.data s.notified
  outside : ∀ k : Nat, k < symndx ∨ t.symbolCount ≤ k → s.data[k]? = t.data[k]?
  perm : s.hashes.Perm (hashesOf t symndx)
  hash : ∀ k < t.symbolCount - symndx, s.hashes[k]? = s.data[symndx + k]?.map (hashOf t)
  sorted : s.hashes.Pairwise fun x y => x % nbuckets ≤ y % nbuckets

/-- During the walk the hashes are those of the symbols, and each is on its way to its place in the order. -/
structure Underway (t : SymbolTable b) (symndx : Nat) (perm dest : List Nat) (s : Arranging b) : Prop where
  data : s.data = applySwaps t.data s.notified
  outside : ∀ k : Nat, k < symndx ∨ t.symbolCount ≤ k → s.data[k]? = t.data[k]?
  length : s.hashes.length = t.symbolCount - symndx
  hash : ∀ k < t.symbolCount - symndx, s.hashes[k]? = s.data[symndx + k]?.map (hashOf t)
  place : ∀ k d : Nat, dest[k]? = some d → s.hashes[k]? = perm[d]?.bind fun p => (hashesOf t symndx)[p]?

theorem underway_swap {t : SymbolTable b} (h : t.WellFormed) {symndx : Nat} (hs : 0 < t.symbolCount → 1 ≤ symndx) {perm dest : List Nat}
    {s : Arranging b} {i j : Nat} (hdest : dest.Perm (List.range (t.symbolCount - symndx)))
    (hinv : Underway t symndx perm dest s) (hij : dest[i]? = some j) :
    Underway t symndx perm (swapAt dest i j) (swapEntries symndx t.symbolCount i j s) := by
  obtain ⟨hi, hj⟩ := lt_of_perm hdest hij
  have hcount := (SymbolTable.symbolCount_le h).1
  have hlen : s.data.length = t.data.length := by rw [hinv.data, (applySwaps_perm _ _).length_eq]
  have hdlen := hdest.length_eq
  rw [List.length_range] at hdlen
  have hs := hs (by omega)
  have hin : ¬ (t.symbolCount ≤ symndx + i ∨ t.symbolCount ≤ symndx + j ∨ symndx + i = 0 ∨ symndx + j = 0) := by omega
  have hdata := getElem?_swapAt s.data (show symndx + i < s.data.length by omega) (show symndx + j < s.data.length by omega)
  have hhashes := getElem?_swapAt s.hashes (show i < s.hashes.length by rw [hinv.length]; exact hi)
    (show j < s.hashes.length by rw [hinv.length]; exact hj)
  have hdests := getElem?_swapAt dest (show i < dest.length by omega) (show j < dest.length by omega)
  constructor
  · simp only [swapEntries]
    rw [if_neg hin, applySwaps_concat, hinv.data]
  · intro k hk
    simp only [swapEntries]
    rw [if_neg hin, hdata, if_neg (by omega), if_neg (by omega)]
    exact hinv.outside k hk
  · simp only [swapEntries, length_swapAt]
    exact hinv.length
  · intro k hk
    simp only [swapEntries]
    rw [if_neg hin, hdata, hhashes]
    by_cases hkj : k = j
    · rw [if_pos hkj, if_pos (by omega), hinv.hash i hi]
    · rw [if_neg hkj, if_neg (show symndx + k ≠ symndx + j by omega)]
      by_cases hki : k = i
      · rw [if_pos hki, if_pos (by omega), hinv.hash j hj]
      · rw [if_neg hki, if_neg (show symndx + k ≠ symndx + i by omega), hinv.hash k hk]
  · intro k d hkd
    simp only [swapEntries]
    rw [hdests] at hkd
    rw [hhashes]
    split
    · next hkj =>
      rw [if_pos hkj] at hkd
      exact hinv.place i d hkd
    · next hkj =>
      rw [if_neg hkj] at hkd
      split
      · next hki =>
        rw [if_pos hki] at hkd
        exact hinv.place j d hkd
      · next hki =>
        rw [if_neg hki] at hkd
        exact hinv.place k d hkd

/-- The hash of a counted symbol. -/
theorem getElem?_hashesOf {t : SymbolTable b} (h : t.WellFormed) {symndx k : Nat} (hk : k < t.symbolCount - symndx) :
    (hashesOf t symndx)[k]? = t.data[symndx + k]?.map (hashOf t) := by
  have hcount := (SymbolTable.symbolCount_le h).1
  rw [hashesOf, List.getElem?_map, List.getElem?_range hk, Option.map_some,
    SymbolTable.getSymbolName_eq (show symndx + k < t.symbolCount by omega), SymbolTable.nameOf,
    List.getD_eq_getElem?_getD, List.getElem?_eq_getElem (show symndx + k < t.data.length by omega), Option.getD_some,
    Option.map_some, hashOf]

theorem arrange_arranged {t : SymbolTable b} (h : t.WellFormed) {symndx : Nat} (hs : 0 < t.symbolCount → 1 ≤ symndx)
    (nbuckets : Nat) :
    ∃ s, arrange (swapEntries symndx t.symbolCount) (t.symbolCount - symndx) (t.symbolCount - symndx)
      (destinations (bucketOrder (hashesOf t symndx) nbuckets), ⟨t.data, hashesOf t symndx, []⟩) =
        some (List.range (t.symbolCount - symndx), s) ∧ Arranged t symndx nbuckets s := by
  have hperm : (bucketOrder (hashesOf t symndx) nbuckets).Perm (List.range (t.symbolCount - symndx)) := by
    have := bucketOrder_perm (hashesOf t symndx) nbuckets
    rwa [length_hashesOf] at this
  obtain ⟨hdest, hback⟩ := destinations_spec hperm
  have hstart : Underway t symndx (bucketOrder (hashesOf t symndx) nbuckets)
      (destinations (bucketOrder (hashesOf t symndx) nbuckets)) ⟨t.data, hashesOf t symndx, []⟩ := by
    refine ⟨rfl, fun _ _ => rfl, length_hashesOf _ _, fun k hk => getElem?_hashesOf h hk, fun k d hkd => ?_⟩
    rw [hback k d hkd, Option.bind_some]
  obtain ⟨s, harrange, hend⟩ := arrange_meets
    (fun dest s i j hdest hinv hij _ => underway_swap h hs hdest hinv hij) hdest hstart
  refine ⟨s, harrange, ?_⟩
  have hplace : s.hashes = (bucketOrder (hashesOf t symndx) nbuckets).map fun p => (hashesOf t symndx).getD p 0 := by
    have hplen := hperm.length_eq
    rw [List.length_range] at hplen
    refine List.ext_getElem? fun k => ?_
    by_cases hk : k < t.symbolCount - symndx
    · rw [hend.place k k (List.getElem?_range hk), List.getElem?_map,
        List.getElem?_eq_getElem (show k < (bucketOrder (hashesOf t symndx) nbuckets).length by omega), Option.bind_some,
        Option.map_some, List.getD_eq_getElem?_getD]
      have hp := List.mem_range.mp (hperm.mem_iff.mp (List.getElem_mem
        (show k < (bucketOrder (hashesOf t symndx) nbuckets).length by omega)))
      rw [List.getElem?_eq_getElem (by rwa [length_hashesOf]), Option.getD_some]
    · rw [List.getElem?_eq_none (by rw [hend.length]; omega), List.getElem?_eq_none (by rw [List.length_map]; omega)]
  constructor
  · exact hend.data
  · exact hend.outside
  · have hrange : (List.range (t.symbolCount - symndx)).map (fun p => (hashesOf t symndx).getD p 0) = hashesOf t symndx := by
      refine List.ext_getElem (by rw [List.length_map, List.length_range, length_hashesOf]) fun k hk _ => ?_
      rw [List.length_map, List.length_range] at hk
      rw [List.getElem_map, List.getElem_range, List.getD_eq_getElem _ _ (by rwa [length_hashesOf])]
    rw [hplace]
    exact (hperm.map _).trans (List.Perm.of_eq hrange)
  · exact hend.hash
  · rw [hplace, List.pairwise_map]
    exact bucketOrder_sorted _ _

variable {t : SymbolTable b} {first nb : Nat} {s : Arranging b}

theorem Arranged.length (hs : Arranged t first nb s) : s.data.length = t.data.length := by
  rw [hs.data, (applySwaps_perm _ _).length_eq]

theorem mem_take_drop {α : Type} {l : List α} {i n : Nat} {x : α} :
    x ∈ (l.drop i).take n ↔ ∃ k, i ≤ k ∧ k < i + n ∧ l[k]? = some x := by
  rw [List.mem_iff_getElem?]
  constructor
  · rintro ⟨k, hk⟩
    rw [List.getElem?_take] at hk
    split at hk
    · rw [List.getElem?_drop] at hk
      exact ⟨i + k, by omega, by omega, hk⟩
    · cases hk
  · rintro ⟨k, hik, hkn, hk⟩
    refine ⟨k - i, ?_⟩
    rw [List.getElem?_take, if_pos (by omega), List.getElem?_drop, show i + (k - i) = k by omega, hk]

/-- The hashed symbols are permuted among themselves. -/
theorem Arranged.region (hs : Arranged t first nb s) (hle : first ≤ t.symbolCount) :
    ((s.data.drop first).take (t.symbolCount - first)).Perm ((t.data.drop first).take (t.symbolCount - first)) := by
  have hsplit : ∀ l : List (Symbol b), l.take first ++ ((l.drop first).take (t.symbolCount - first) ++
      (l.drop first).drop (t.symbolCount - first)) = l := by
    intro l
    rw [List.take_append_drop, List.take_append_drop]
  have hbefore : s.data.take first = t.data.take first := by
    refine List.ext_getElem? fun k => ?_
    rw [List.getElem?_take, List.getElem?_take]
    split
    · next hk => exact hs.outside k (.inl hk)
    · rfl
  have hafter : (s.data.drop first).drop (t.symbolCount - first) = (t.data.drop first).drop (t.symbolCount - first) := by
    refine List.ext_getElem? fun k => ?_
    rw [List.drop_drop, List.drop_drop, List.getElem?_drop, List.getElem?_drop]
    exact hs.outside _ (.inr (by omega))
  have hperm : s.data.Perm t.data := by
    rw [hs.data]
    exact applySwaps_perm _ _
  rw [← hsplit s.data, ← hsplit t.data, hbefore, hafter] at hperm
  exact (List.perm_append_right_iff _).mp ((List.perm_append_left_iff _).mp hperm)

section

variable (h : t.WellFormed) (hs : Arranged t first nb s)
include h hs

/-- So the same names are at hashed symbols. -/
theorem Arranged.names (hle : first ≤ t.symbolCount) (name : List U8) :
    (∃ k, first ≤ k ∧ k < t.symbolCount ∧ ({ t with data := s.data } : SymbolTable b).nameOf k = name) ↔
      ∃ k, first ≤ k ∧ k < t.symbolCount ∧ t.nameOf k = name := by
  have hcount := (SymbolTable.symbolCount_le h).1
  have hone : ∀ u : SymbolTable b, t.data.length = u.data.length →
      ((∃ k, first ≤ k ∧ k < t.symbolCount ∧ u.nameOf k = name) ↔
        ∃ x ∈ (u.data.drop first).take (t.symbolCount - first), u.strings (x.stName.setWidth b.width) = name) := by
    intro u hlen
    constructor
    · rintro ⟨k, hk, hkc, hname⟩
      refine ⟨u.data[k], mem_take_drop.mpr ⟨k, hk, by omega, List.getElem?_eq_getElem (by omega)⟩, ?_⟩
      rwa [SymbolTable.nameOf, List.getD_eq_getElem _ _ (by omega)] at hname
    · rintro ⟨x, hx, hname⟩
      obtain ⟨k, hk, hkc, hat⟩ := mem_take_drop.mp hx
      refine ⟨k, hk, by omega, ?_⟩
      rw [SymbolTable.nameOf, List.getD_eq_getElem?_getD, hat, Option.getD_some, hname]
  rw [hone _ hs.length.symm, hone t rfl]
  simp only [(hs.region hle).mem_iff]

/-- The hashes are those of the names. -/
theorem Arranged.getD_hashes {k : Nat} (hk : k < t.symbolCount - first) :
    s.hashes.getD k 0 = (djb (({ t with data := s.data } : SymbolTable b).nameOf (first + k))).toNat := by
  have hcount := (SymbolTable.symbolCount_le h).1
  have hlen := hs.length
  rw [List.getD_eq_getElem?_getD, hs.hash k hk, List.getElem?_eq_getElem (by omega), Option.map_some, Option.getD_some,
    hashOf, SymbolTable.nameOf, List.getD_eq_getElem _ _ (by simp only; omega)]

theorem Arranged.mem_hashes {hash : Nat} : hash ∈ hashesOf t first ↔
    ∃ k, first ≤ k ∧ k < t.symbolCount ∧ (djb (({ t with data := s.data } : SymbolTable b).nameOf k)).toNat = hash := by
  have hlen : s.hashes.length = t.symbolCount - first := by rw [hs.perm.length_eq, length_hashesOf]
  rw [← hs.perm.mem_iff, List.mem_iff_getElem]
  constructor
  · rintro ⟨k, hk, rfl⟩
    refine ⟨first + k, by omega, by omega, ?_⟩
    rw [← hs.getD_hashes h (by omega), List.getD_eq_getElem _ _ hk]
  · rintro ⟨k, hk, hkc, rfl⟩
    refine ⟨k - first, by omega, ?_⟩
    rw [← List.getD_eq_getElem _ 0, hs.getD_hashes h (by omega), show first + (k - first) = k by omega]

end

/-! ## The parts of a section -/

/-- An element of a span that covers several numbers written one after another. -/
theorem element_flatMap (o : Order) (k : Nat) (pre post : List U8) {l : List Nat} {i count : Nat} (hi : i < l.length)
    (hcount : i < count) :
    element o (pre ++ (l.flatMap (encode o k) ++ post)) pre.length k count i = some (l.getD i 0 % 256 ^ k) := by
  have hlen : pre.length + k * (i + 1) ≤ (pre ++ (l.flatMap (encode o k) ++ post)).length := by
    have := Nat.mul_le_mul_left k (show i + 1 ≤ l.length by omega)
    rw [List.length_append, List.length_append, length_flatMap_encode]
    omega
  rw [element, if_pos ⟨hcount, hlen⟩, readAt_flatMap o k pre post l hi, List.getD_eq_getElem _ _ hi]

theorem pow_wordBytes (b : ElfBits) : 256 ^ wordBytes b = 2 ^ wordBits b := by cases b <;> rfl

variable (b) in
/-- A section with these counts and parts. -/
def sectionOf (o : Order) (symndx shift2 : Nat) (filter buckets chains : List Nat) : List U8 :=
  [buckets.length, symndx, filter.length, shift2].flatMap (encode o 4) ++
    (filter.flatMap (encode o (wordBytes b)) ++ (buckets ++ chains).flatMap (encode o 4))

variable {o : Order} {shift : Nat} {filter buckets chains : List Nat}

theorem counts_sectionOf (hb : buckets.length < 2 ^ 32) (hf : filter.length < 2 ^ 32) (hfirst : first < 2 ^ 32)
    (hshift : shift < 2 ^ 32) : nbuckets o (sectionOf b o first shift filter buckets chains) = buckets.length ∧
      symndx o (sectionOf b o first shift filter buckets chains) = first ∧
      maskwords o (sectionOf b o first shift filter buckets chains) = filter.length ∧
      mshift2 o (sectionOf b o first shift filter buckets chains) = shift := by
  have hlen : ¬ (sectionOf b o first shift filter buckets chains).length < 16 := by
    rw [sectionOf, List.length_append, length_flatMap_encode]
    simp only [List.length_cons, List.length_nil]
    omega
  have hread : ∀ k (hk : k < [buckets.length, first, filter.length, shift].length),
      header o (sectionOf b o first shift filter buckets chains) k =
        [buckets.length, first, filter.length, shift][k] % 2 ^ 32 := by
    intro k hk
    have := readAt_flatMap o 4 [] (filter.flatMap (encode o (wordBytes b)) ++ (buckets ++ chains).flatMap (encode o 4))
      [buckets.length, first, filter.length, shift] hk
    rw [List.nil_append, List.length_nil, Nat.zero_add] at this
    rw [header, if_neg hlen]
    exact this
  exact ⟨(hread 0 (by simp)).trans (Nat.mod_eq_of_lt hb), (hread 1 (by simp)).trans (Nat.mod_eq_of_lt hfirst),
    (hread 2 (by simp)).trans (Nat.mod_eq_of_lt hf), (hread 3 (by simp)).trans (Nat.mod_eq_of_lt hshift)⟩

theorem parts_sectionOf (hb : buckets.length < 2 ^ 32) (hf : filter.length < 2 ^ 32) (hfirst : first < 2 ^ 32)
    (hshift : shift < 2 ^ 32) :
    (∀ i < filter.length, bloom b o (sectionOf b o first shift filter buckets chains) i =
      some (filter.getD i 0 % 2 ^ wordBits b)) ∧
    (∀ i < buckets.length, bucket b o (sectionOf b o first shift filter buckets chains) i =
      some (buckets.getD i 0 % 2 ^ 32)) ∧
    (∀ i < chains.length, i < buckets.length → chain b o (sectionOf b o first shift filter buckets chains) i =
      some (chains.getD i 0 % 2 ^ 32)) ∧
    ∀ i, buckets.length ≤ i → chain b o (sectionOf b o first shift filter buckets chains) i = none := by
  obtain ⟨hnbuckets, -, hmaskwords, -⟩ := @counts_sectionOf b first o shift filter buckets chains hb hf hfirst hshift
  have hhead : ([buckets.length, first, filter.length, shift].flatMap (encode o 4)).length = 16 :=
    length_flatMap_encode o 4 _
  have hwords : (filter.flatMap (encode o (wordBytes b))).length = filter.length * wordBytes b := by
    rw [length_flatMap_encode, Nat.mul_comm]
  refine ⟨fun i hi => ?_, fun i hi => ?_, fun i hi hcount => ?_, fun i hi => ?_⟩
  · have := element_flatMap o (wordBytes b) ([buckets.length, first, filter.length, shift].flatMap (encode o 4))
      ((buckets ++ chains).flatMap (encode o 4)) hi hi
    rw [hhead, pow_wordBytes] at this
    rw [bloom, hmaskwords]
    exact this
  · have := element_flatMap o 4 ([buckets.length, first, filter.length, shift].flatMap (encode o 4) ++
      filter.flatMap (encode o (wordBytes b))) (chains.flatMap (encode o 4)) hi hi
    rw [List.length_append, hhead, hwords, List.append_assoc, ← List.flatMap_append] at this
    rw [bucket, hmaskwords, hnbuckets]
    exact this
  · have := element_flatMap o 4 ([buckets.length, first, filter.length, shift].flatMap (encode o 4) ++
      (filter.flatMap (encode o (wordBytes b)) ++ buckets.flatMap (encode o 4))) [] hi hcount
    rw [List.length_append, List.length_append, hhead, hwords, length_flatMap_encode, List.append_nil,
      List.append_assoc, List.append_assoc, ← List.flatMap_append, ← Nat.add_assoc, Nat.mul_comm 4] at this
    rw [chain, hmaskwords, hnbuckets]
    exact this
  · rw [chain, hnbuckets, element, if_neg (by omega)]

/-! ## Lookups -/

/-- Both bits of a hash are in the word where a lookup expects them. -/
def Passes (b : ElfBits) (shift2 : Nat) (filter : List Nat) (hash : Nat) : Prop :=
  ∀ k, (bloomBits b shift2 hash).testBit k = true →
    (filter.getD (hash / wordBits b % filter.length) 0).testBit k = true

theorem stored_passes {hash : Nat} :
    filter.getD (hash / wordBits b % filter.length) 0 % 2 ^ wordBits b &&& bloomBits b shift hash =
      bloomBits b shift hash ↔ Passes b shift filter hash := by
  rw [and_bloomBits]
  refine forall_congr' fun k => imp_congr_right fun hk => ?_
  have hlt : k < wordBits b := by
    rw [testBit_bloomBits, Bool.or_eq_true, decide_eq_true_iff, decide_eq_true_iff] at hk
    rcases hk with rfl | rfl <;> exact Nat.mod_lt _ (wordBits_pos b)
  rw [Nat.testBit_mod_two_pow, decide_eq_true hlt, Bool.true_and]

/-- What the parts of a section are made from. -/
structure Laid (t : SymbolTable b) (first nb shift : Nat) (filter : List Nat) (s : Arranging b) : Prop where
  table : t.WellFormed
  first_pos : 0 < t.symbolCount → 1 ≤ first
  first_le : first ≤ t.symbolCount
  nb_pos : 0 < nb
  nb_lt : nb < 2 ^ 32
  shift_lt : shift < 2 ^ 32
  arranged : Arranged t first nb s
  filter_pos : 0 < filter.length
  filter_lt : filter.length < 2 ^ 32

/-- The section that a build writes. -/
def laidSection (o : Order) (first nb shift : Nat) (filter : List Nat) (s : Arranging b) : List U8 :=
  sectionOf b o first shift filter (firstSymbols first nb s.hashes) (chainWords nb s.hashes)

/-- The test of the crawl. -/
def accepts (t : SymbolTable b) (first : Nat) (name : List U8) (chainIndex chainHash : Nat) : Bool :=
  decide (chainHash / 2 = (djb name).toNat / 2) && decide (t.getSymbolName (first + chainIndex) = name)

namespace Laid

section

variable (h : Laid t first nb shift filter s)
include h

theorem length_hashes : s.hashes.length = t.symbolCount - first := by
  rw [h.arranged.perm.length_eq, length_hashesOf]

theorem firstSymbols :
    (firstSymbols first nb s.hashes).length = nb ∧ ∀ β < nb,
      ((firstSymbols first nb s.hashes).getD β 0 = 0 ∧ ∀ i < s.hashes.length, s.hashes.getD i 0 % nb ≠ β) ∨
      ∃ i < s.hashes.length, (firstSymbols first nb s.hashes).getD β 0 = first + i ∧ s.hashes.getD i 0 % nb = β ∧
        ∀ j < i, s.hashes.getD j 0 % nb ≠ β := by
  have hlen := h.length_hashes
  exact firstSymbols_spec (fun hne => h.first_pos (by have := List.length_pos_iff.mpr hne; omega)) h.nb_pos

theorem hash_lt (k : Nat) : s.hashes.getD k 0 < 2 ^ 32 := by
  have hlen := h.length_hashes
  by_cases hk : k < t.symbolCount - first
  · rw [h.arranged.getD_hashes h.table hk]
    exact BitVec.isLt _
  · rw [List.getD_eq_getElem?_getD, List.getElem?_eq_none (by omega), Option.getD_none]
    decide

theorem counts : nbuckets o (laidSection o first nb shift filter s) = nb ∧
    symndx o (laidSection o first nb shift filter s) = first ∧
    maskwords o (laidSection o first nb shift filter s) = filter.length ∧
    mshift2 o (laidSection o first nb shift filter s) = shift := by
  have hcount := SymbolTable.symbolCount_le h.table
  have hle := h.first_le
  have := @counts_sectionOf b first o shift filter (GnuHash.firstSymbols first nb s.hashes) (chainWords nb s.hashes)
    (by rw [h.firstSymbols.1]; exact h.nb_lt) h.filter_lt (by omega) h.shift_lt
  rwa [h.firstSymbols.1] at this

/-- The span of the chains has an element for each hashed symbol, but only as many as there are buckets. -/
theorem chain_eq {i : Nat} (hi : i < s.hashes.length) :
    chain b o (laidSection o first nb shift filter s) i = if i < nb then (chainWords nb s.hashes)[i]? else none := by
  have hcount := SymbolTable.symbolCount_le h.table
  have hle := h.first_le
  obtain ⟨-, -, hchain, hend⟩ := @parts_sectionOf b first o shift filter (GnuHash.firstSymbols first nb s.hashes)
    (chainWords nb s.hashes) (by rw [h.firstSymbols.1]; exact h.nb_lt) h.filter_lt (by omega) h.shift_lt
  rw [h.firstSymbols.1] at hchain hend
  split
  · next hlt =>
    obtain ⟨word, hword, hhalf, -⟩ := chainWords_spec nb hi
    have := h.hash_lt i
    have hlength : i < (chainWords nb s.hashes).length := by rwa [chainWords, List.length_map, List.length_range]
    refine (hchain i hlength hlt).trans ?_
    rw [hword, List.getD_eq_getElem?_getD, hword, Option.getD_some, Nat.mod_eq_of_lt (by omega)]
  · next hge => exact hend i (by omega)

/-- A lookup asks the filter, then the bucket, and then crawls from the first symbol of the bucket. -/
theorem find_eq (name : List U8) :
    let find := findHashedSymbol o (laidSection o first nb shift filter s) { t with data := s.data } name
    (¬ Passes b shift filter (djb name).toNat → find = some 0) ∧
    (Passes b shift filter (djb name).toNat → 0 < t.symbolCount →
      (find = some 0 ∧ ∀ i < s.hashes.length, s.hashes.getD i 0 % nb ≠ (djb name).toNat % nb) ∨
      ∃ i < s.hashes.length, s.hashes.getD i 0 % nb = (djb name).toNat % nb ∧
        (∀ j < i, s.hashes.getD j 0 % nb ≠ (djb name).toNat % nb) ∧
        find = (crawl (chain b o (laidSection o first nb shift filter s))
          (accepts { t with data := s.data } first name) (2 ^ 32) i).map fun found =>
            match found with
            | none => 0
            | some chainIndex => first + chainIndex) := by
  intro find
  obtain ⟨hnbuckets, hsymndx, hmaskwords, hmshift⟩ := h.counts (o := o)
  have hcount := SymbolTable.symbolCount_le h.table
  have hle := h.first_le
  have hlen := h.length_hashes
  obtain ⟨hbloom, hbucket, -, -⟩ := @parts_sectionOf b first o shift filter (GnuHash.firstSymbols first nb s.hashes)
    (chainWords nb s.hashes) (by rw [h.firstSymbols.1]; exact h.nb_lt) h.filter_lt (by omega) h.shift_lt
  rw [h.firstSymbols.1] at hbucket
  have hmod : (djb name).toNat / wordBits b % filter.length < filter.length := Nat.mod_lt _ h.filter_pos
  have hβ : (djb name).toNat % nb < nb := Nat.mod_lt _ h.nb_pos
  have hfind : find = findHashedSymbol o (laidSection o first nb shift filter s) { t with data := s.data } name := rfl
  rw [findHashedSymbol] at hfind
  have hbloom := hbloom _ hmod
  have hbucket := hbucket _ hβ
  rw [← laidSection] at hbloom hbucket
  have hpos := h.nb_pos
  have hfpos := h.filter_pos
  simp only [hmaskwords, hnbuckets, hmshift, hsymndx, hbloom, hbucket, Option.bind_eq_bind, Option.bind_some,
    Option.pure_def] at hfind
  rw [if_neg (by omega)] at hfind
  refine ⟨fun hpasses => ?_, fun hpasses hsome => ?_⟩
  · rw [if_pos (fun hstored => hpasses (stored_passes.mp hstored))] at hfind
    exact hfind
  · rw [if_neg (not_not.mpr (stored_passes.mpr hpasses))] at hfind
    have hfirst := h.first_pos hsome
    rcases h.firstSymbols.2 _ hβ with ⟨hzero, hnone⟩ | ⟨i, hi, hat, hisβ, hbefore⟩
    · rw [hzero, if_pos (by omega)] at hfind
      exact .inl ⟨hfind, hnone⟩
    · rw [hat, Nat.mod_eq_of_lt (show first + i < 2 ^ 32 by omega), if_neg (by omega), Nat.add_sub_cancel_left] at hfind
      refine .inr ⟨i, hi, hisβ, hbefore, hfind.trans ?_⟩
      rw [Option.map_eq_bind]
      rfl

/-- With as many buckets as hashed symbols, a lookup finds one with the name if the filter lets it through and there is
one, and 0 otherwise. -/
theorem find_cases (hroom : t.symbolCount - first ≤ nb) (name : List U8)
    (hpass : Passes b shift filter (djb name).toNat → 0 < t.symbolCount) :
    let find := findHashedSymbol o (laidSection o first nb shift filter s) { t with data := s.data } name
    (Passes b shift filter (djb name).toNat ∧ ∃ k, first ≤ k ∧ k < t.symbolCount ∧ find = some k ∧
      ({ t with data := s.data } : SymbolTable b).nameOf k = name) ∨
    (find = some 0 ∧ (Passes b shift filter (djb name).toNat → ∀ k, first ≤ k → k < t.symbolCount →
      ({ t with data := s.data } : SymbolTable b).nameOf k ≠ name)) := by
  intro find
  have hcount := SymbolTable.symbolCount_le h.table
  have hlen := h.length_hashes
  obtain ⟨hrejected, hpassed⟩ := h.find_eq (o := o) name
  by_cases hpasses : Passes b shift filter (djb name).toNat
  · have hhash : ∀ k, first ≤ k → k < t.symbolCount → ({ t with data := s.data } : SymbolTable b).nameOf k = name →
        s.hashes.getD (k - first) 0 = (djb name).toNat := by
      intro k hk hkc hname
      rw [h.arranged.getD_hashes h.table (by omega), show first + (k - first) = k by omega, hname]
    rcases hpassed hpasses (hpass hpasses) with ⟨hfind, hnone⟩ | ⟨i, hi, hisβ, hbefore, hfind⟩
    · exact .inr ⟨hfind, fun _ k hk hkc hname => hnone (k - first) (by omega) (by rw [hhash k hk hkc hname])⟩
    · have hgets : ∀ j < s.hashes.length, ({ t with data := s.data } : SymbolTable b).getSymbolName (first + j) =
          ({ t with data := s.data } : SymbolTable b).nameOf (first + j) :=
        fun j hj => SymbolTable.getSymbolName_eq (show first + j < t.symbolCount by omega)
      have hwords : ∀ j < s.hashes.length, chain b o (laidSection o first nb shift filter s) j =
          (chainWords nb s.hashes)[j]? := fun j hj => by rw [h.chain_eq hj, if_pos (by omega)]
      rcases @crawl_spec s.hashes nb h.arranged.sorted _ hwords (accepts { t with data := s.data } first name)
        (2 ^ 32) i hi (by omega) with ⟨hcrawl, hall⟩ | ⟨j, word, hcrawl, hij, hj, hword, haccept⟩
      · rw [hcrawl, Option.map_some] at hfind
        refine .inr ⟨hfind, fun _ k hk hkc hname => ?_⟩
        have hkhash := hhash k hk hkc hname
        obtain ⟨word, hword, hhalf, -⟩ := chainWords_spec nb (show k - first < s.hashes.length by omega)
        have hik : i ≤ k - first := by
          by_contra hlt
          exact hbefore _ (not_le.mp hlt) (by rw [hkhash])
        have hreject := hall (k - first) hik (by omega) (by rw [hkhash, hisβ]) word (by rw [hwords _ (by omega), hword])
        rw [accepts, hhalf, hkhash, hgets _ (by omega), show first + (k - first) = k by omega, hname, decide_eq_true rfl,
          decide_eq_true rfl] at hreject
        cases hreject
      · rw [hcrawl, Option.map_some] at hfind
        rw [accepts, Bool.and_eq_true, decide_eq_true_iff, decide_eq_true_iff, hgets j hj] at haccept
        exact .inl ⟨hpasses, first + j, by omega, by omega, hfind, haccept.2⟩
  · exact .inr ⟨hrejected hpasses, fun hyes => absurd hyes hpasses⟩

/-- With fewer buckets, a lookup for a name that no symbol has, but whose hash one has that is behind the span of the
chains, reads on there. -/
theorem find_stuck (hroom : nb < t.symbolCount - first) {name : List U8} (hhash : (djb name).toNat = s.hashes.getD nb 0)
    (hpasses : Passes b shift filter (djb name).toNat)
    (habsent : ∀ k < t.symbolCount, ({ t with data := s.data } : SymbolTable b).nameOf k ≠ name) :
    findHashedSymbol o (laidSection o first nb shift filter s) { t with data := s.data } name = none := by
  have hlen := h.length_hashes
  rcases (h.find_eq (o := o) name).2 hpasses (by omega) with ⟨-, hnone⟩ | ⟨i, hi, hisβ, hbefore, hfind⟩
  · exact absurd (by rw [hhash]) (hnone nb (by omega))
  · rw [hhash] at hisβ hbefore
    have hle : i ≤ nb := by
      by_contra hlt
      exact hbefore nb (not_le.mp hlt) rfl
    have hmono : ∀ {p q : Nat}, p ≤ q → q < s.hashes.length → s.hashes.getD p 0 % nb ≤ s.hashes.getD q 0 % nb := by
      intro p q hpq hq
      rw [List.getD_eq_getElem _ _ (by omega), List.getD_eq_getElem _ _ hq]
      rcases Nat.eq_or_lt_of_le hpq with rfl | hlt
      · exact le_rfl
      · exact List.pairwise_iff_getElem.mp h.arranged.sorted p q (by omega) hq hlt
    have hread : ∀ j < nb, chain b o (laidSection o first nb shift filter s) j = (chainWords nb s.hashes)[j]? :=
      fun j hj => by rw [h.chain_eq (by omega), if_pos hj]
    have hend : chain b o (laidSection o first nb shift filter s) nb = none := by
      rw [h.chain_eq (by omega), if_neg (Nat.lt_irrefl _)]
    have hreject : ∀ j < nb, ∀ word, accepts { t with data := s.data } first name j word = false := by
      intro j hj word
      rw [accepts, Bool.and_eq_false_iff]
      refine .inr (decide_eq_false fun hname => ?_)
      have hget := @SymbolTable.getSymbolName_eq b { t with data := s.data } _ (show first + j < t.symbolCount by omega)
      exact habsent _ (by omega) (hget.symm.trans hname)
    have hbucket : ∀ j, i ≤ j → j ≤ nb → s.hashes.getD j 0 % nb = s.hashes.getD nb 0 % nb := by
      intro j hij hj
      have h1 := hmono hij (show j < s.hashes.length by omega)
      have h2 := hmono hj (show nb < s.hashes.length by omega)
      omega
    rw [hfind, crawl_stuck (show nb < s.hashes.length by omega) hread hend hreject _ hle hbucket]
    rfl

end

end Laid

end Pepp.Elf.GnuHash
