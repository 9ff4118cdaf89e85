import Mathlib.Data.List.GetD
import Pepp.Elf.SymbolTable
import Pepp.Lib.Endian
import Pepp.Lib.HashChains

/-!
# System V hash sections

The section is two counts, the buckets and the chains, 32 bit numbers all of
them. A chain goes through the symbols of a bucket in the order of the table.
-/

namespace Pepp.Elf

open Endian HashChains

/-- `elf_hash`, where `char` is signed. -/
def elfHash (name : List U8) : U32 :=
  name.foldl (fun h c =>
    let h := (h <<< 4) + c.signExtend 32
    let g := h &&& 0xf0000000#32
    let h := if g ≠ 0 then h ^^^ (g >>> 24) else h
    h &&& ~~~g) 0

namespace SysvHash

variable {b : ElfBits} (o : Order) (t : SymbolTable b)

/-- The numbers of the section that `compute_hash_table` appends. -/
def words (nbuckets : Nat) : List Nat :=
  let hashedCount := t.symbolCount
  let nbuckets := if nbuckets = 0 then max 1 (hashedCount / 2) else nbuckets
  let bucketOf i := (elfHash (t.getSymbolName i)).toNat % nbuckets
  let table := fill bucketOf (hashedCount - 1) (List.replicate nbuckets 0, List.replicate hashedCount 0)
  nbuckets :: table.2.length :: (table.1 ++ table.2)

def computeHashTable (nbuckets : U32) : List U8 := (words t nbuckets.toNat).flatMap (encode o 4)

variable (section_ : List U8)

def nbuckets : Nat := if section_.length < 8 then 0 else readAt o 4 section_ 0

def nchains : Nat := if section_.length < 8 then 0 else readAt o 4 section_ 4

/-- An element of a span over the section. There is none where the section does not have the whole span. -/
def element (offset size i : Nat) : Option Nat :=
  if offset + 4 * size ≤ section_.length ∧ i < size then some (readAt o 4 section_ (offset + 4 * i)) else none

def bucket (i : Nat) : Option Nat := element o section_ 8 (nbuckets o section_) i

/-- `(2 + nbuckets()) * sizeof(u32)`: the sum has 32 bits. -/
def chain (i : Nat) : Option Nat :=
  element o section_ ((2 + nbuckets o section_) % 2 ^ 32 * 4) (nchains o section_) i

/-- A walk of more steps than there are indices does not end. -/
def findHashedSymbol (name : List U8) : Option Nat :=
  let nbucket := nbuckets o section_
  if nbucket = 0 ∨ nchains o section_ = 0 then some 0
  else
    match bucket o section_ ((elfHash name).toNat % nbucket) with
    | none => none
    | some i => walk (fun i => decide (t.getSymbolName i = name)) (chain o section_) (2 ^ 32) i

/-! ## Reading a section back -/

variable {o t}

theorem readAt_words {l : List Nat} {k : Nat} (hk : k < l.length) :
    readAt o 4 (l.flatMap (encode o 4)) (4 * k) = l[k] % 2 ^ 32 := by
  have hread := readAt_flatMap o 4 [] [] l hk
  rwa [List.nil_append, List.append_nil, List.length_nil, Nat.zero_add] at hread

theorem element_words {l : List Nat} {k size i : Nat} (hl : k + size ≤ l.length) (hi : i < size) :
    element o (l.flatMap (encode o 4)) (k * 4) size i = some (l.getD (k + i) 0 % 2 ^ 32) := by
  have hlt : k + i < l.length := by omega
  rw [element, if_pos ⟨by rw [length_flatMap_encode]; omega, hi⟩, show k * 4 + 4 * i = 4 * (k + i) by omega,
    readAt_words hlt, List.getD_eq_getElem?_getD, List.getElem?_eq_getElem hlt, Option.getD_some]

/-- The parts of a section with these buckets and chains. -/
theorem section_words {buckets chains : List Nat} (hb : buckets.length < 2 ^ 32) (hc : chains.length < 2 ^ 32) :
    let bytes := (buckets.length :: chains.length :: (buckets ++ chains)).flatMap (encode o 4)
    (nbuckets o bytes = buckets.length ∧ nchains o bytes = chains.length) ∧
      (∀ i < buckets.length, bucket o bytes i = some (buckets.getD i 0 % 2 ^ 32)) ∧
      (buckets.length + 2 < 2 ^ 32 → ∀ i < chains.length, chain o bytes i = some (chains.getD i 0 % 2 ^ 32)) := by
  intro bytes
  have hlength : bytes.length = 4 * (2 + buckets.length + chains.length) := by
    rw [length_flatMap_encode, List.length_cons, List.length_cons, List.length_append]
    omega
  have hnbuckets : nbuckets o bytes = buckets.length := by
    rw [nbuckets, if_neg (by omega)]
    have hread := @readAt_words o (buckets.length :: chains.length :: (buckets ++ chains)) 0 (Nat.zero_lt_succ _)
    exact hread.trans (Nat.mod_eq_of_lt hb)
  have hnchains : nchains o bytes = chains.length := by
    rw [nchains, if_neg (by omega)]
    have hread := @readAt_words o (buckets.length :: chains.length :: (buckets ++ chains)) 1
      (Nat.succ_lt_succ (Nat.zero_lt_succ _))
    exact hread.trans (Nat.mod_eq_of_lt hc)
  refine ⟨⟨hnbuckets, hnchains⟩, fun i hi => ?_, fun hsum i hi => ?_⟩
  · rw [bucket, hnbuckets]
    refine (@element_words o _ 2 _ _ ?_ hi).trans ?_
    · simp only [List.length_cons, List.length_append]
      omega
    · rw [Nat.add_comm 2 i, List.getD_cons_succ, List.getD_cons_succ, List.getD_append _ _ _ _ hi]
  · rw [chain, hnbuckets, hnchains, Nat.mod_eq_of_lt (by omega)]
    refine (@element_words o _ (2 + buckets.length) _ _ ?_ hi).trans ?_
    · simp only [List.length_cons, List.length_append]
      omega
    · rw [show 2 + buckets.length + i = buckets.length + i + 1 + 1 by omega, List.getD_cons_succ, List.getD_cons_succ,
        List.getD_append_right _ _ _ _ (Nat.le_add_right _ _), Nat.add_sub_cancel_left]

/-- A lookup in a section that was computed for the table is a search for the first counted symbol with the name. -/
theorem findHashedSymbol_eq (h : t.WellFormed) {n : U32} (hn : 0 < n.toNat) (hn' : n.toNat + 2 < 2 ^ 32)
    (name : List U8) : findHashedSymbol o t (computeHashTable o t n) name =
      some (firstFrom (fun j => decide (t.getSymbolName j = name)) 1 t.symbolCount) := by
  have hcount := (SymbolTable.symbolCount_le h).2
  let bucketOf := fun i => (elfHash (t.getSymbolName i)).toNat % n.toNat
  have hbucketOf : ∀ i, bucketOf i < n.toNat := fun i => Nat.mod_lt _ hn
  have hsection : computeHashTable o t n =
      let table := fill bucketOf (t.symbolCount - 1) (List.replicate n.toNat 0, List.replicate t.symbolCount 0)
      (n.toNat :: table.2.length :: (table.1 ++ table.2)).flatMap (encode o 4) := by
    rw [computeHashTable, words, if_neg (by omega)]
  rcases Nat.eq_zero_or_pos t.symbolCount with hzero | hpos
  · have hwords := @section_words o (List.replicate n.toNat 0) [] (by rw [List.length_replicate]; omega) (by decide)
    simp only [List.length_replicate, List.append_nil, List.length_nil] at hwords
    simp only [hzero, Nat.zero_sub, fill, List.replicate_zero, List.length_nil, List.append_nil] at hsection
    rw [← hsection] at hwords
    rw [findHashedSymbol, if_pos (.inr hwords.1.2), hzero, firstFrom_of_le _ (by omega)]
  · obtain ⟨hlen, hfilled⟩ := @filled_new bucketOf t.symbolCount n.toNat hpos hbucketOf
    generalize fill bucketOf (t.symbolCount - 1) (List.replicate n.toNat 0, List.replicate t.symbolCount 0) =
      table at hlen hfilled hsection
    obtain ⟨buckets, chains⟩ := table
    have hlength := hfilled.length
    simp only at hlen hfilled hsection hlength
    obtain ⟨⟨hnbuckets, hnchains⟩, hbucket, hchain⟩ := @section_words o buckets chains (by omega) (by omega)
    rw [hlen, ← hsection] at hnbuckets hnchains hbucket hchain
    have hmod : ∀ k j, firstFrom (fun i => bucketOf i == j) k t.symbolCount % 2 ^ 32 =
        firstFrom (fun i => bucketOf i == j) k t.symbolCount := fun k j =>
      Nat.mod_eq_of_lt (lt_trans (firstFrom_lt _ _ hpos) (by omega))
    have hhash : (elfHash name).toNat % n.toNat < n.toNat := Nat.mod_lt _ hn
    rw [findHashedSymbol, hnbuckets, if_neg (by omega)]
    have hfirst := hfilled.bucket _ (hhash.trans_eq hlen.symm)
    simp only [hbucket _ hhash, hfirst, hmod]
    have hnext : ∀ i, 1 ≤ i → i < t.symbolCount → bucketOf i = (elfHash name).toNat % n.toNat →
        chain o (computeHashTable o t n) i =
          some (firstFrom (fun j => bucketOf j == (elfHash name).toNat % n.toNat) (i + 1) t.symbolCount) := by
      intro i hi hilt hbi
      rw [hchain hn' i (by omega), hfilled.chain i hi hilt, hbi, hmod]
    rw [walk_eq hnext le_rfl (by omega)]
    -- Symbols with the name are in its bucket.
    refine congrArg (fun p => some (firstFrom p 1 t.symbolCount)) (funext fun j => ?_)
    by_cases hj : t.getSymbolName j = name
    · have hbj : bucketOf j = (elfHash name).toNat % n.toNat := by rw [← hj]
      simp [hj, hbj]
    · simp [hj]

/-! ## Exact lookups -/

/-- Some symbol other than the null symbol has the name. -/
def Present (t : SymbolTable b) (name : List U8) : Prop := ∃ j, 1 ≤ j ∧ j < t.data.length ∧ t.nameOf j = name

/-- A lookup ends, in a symbol with the name if there is one and in 0 otherwise. -/
def Exact (t : SymbolTable b) (find : List U8 → Option Nat) : Prop :=
  ∀ name, ∃ i, find name = some i ∧
    (Present t name → 1 ≤ i ∧ i < t.data.length ∧ t.nameOf i = name) ∧ (¬ Present t name → i = 0)

/-- Lookups are exact if and only if every symbol that is not counted has the name of one that is. -/
theorem lookup_exact_iff (o : Order) {t : SymbolTable b} (h : t.WellFormed) {n : U32} (hn : 0 < n.toNat)
    (hn' : n.toNat + 2 < 2 ^ 32) : Exact t (findHashedSymbol o t (computeHashTable o t n)) ↔
      ∀ j, 1 ≤ j → t.symbolCount ≤ j → j < t.data.length →
        ∃ i, 1 ≤ i ∧ i < t.symbolCount ∧ t.nameOf i = t.nameOf j := by
  have hle := (SymbolTable.symbolCount_le h).1
  have hname : ∀ {j name}, j < t.symbolCount → (decide (t.getSymbolName j = name) = true ↔ t.nameOf j = name) :=
    fun {j name} hj => by rw [decide_eq_true_iff, SymbolTable.getSymbolName_eq hj]
  constructor
  · intro hexact j hj _ hjlen
    obtain ⟨i, hfind, hpresent, -⟩ := hexact (t.nameOf j)
    obtain ⟨hi, -, heq⟩ := hpresent ⟨j, hj, hjlen, rfl⟩
    rw [findHashedSymbol_eq h hn hn', Option.some.injEq] at hfind
    rcases firstFrom_cases (fun i => decide (t.getSymbolName i = t.nameOf j)) 1 t.symbolCount with ⟨hzero, -⟩ | ⟨-, hlt, -⟩
    · omega
    · exact ⟨i, hi, by omega, heq⟩
  · intro hcovered name
    refine ⟨_, findHashedSymbol_eq h hn hn' name, ?_⟩
    rcases firstFrom_cases (fun i => decide (t.getSymbolName i = name)) 1 t.symbolCount with
      ⟨hzero, hnone⟩ | ⟨hge, hlt, hfound⟩
    · refine ⟨?_, fun _ => hzero⟩
      rintro ⟨j, hj, hjlen, rfl⟩
      obtain ⟨i, hi, hicount, heq⟩ : ∃ i, 1 ≤ i ∧ i < t.symbolCount ∧ t.nameOf i = t.nameOf j := by
        by_cases hjc : j < t.symbolCount
        · exact ⟨j, hj, hjc, rfl⟩
        · exact hcovered j hj (by omega) hjlen
      have hnot := hnone i hi hicount
      rw [(hname hicount).mpr heq] at hnot
      cases hnot
    · have hat := (hname hlt).mp hfound
      exact ⟨fun _ => ⟨hge, by omega, hat⟩, fun habsent => absurd ⟨_, hge, by omega, hat⟩ habsent⟩

/-- Three symbols with two names, whose hashes leave one remainder by four. -/
def repeatedNames : SymbolTable .b64 where
  shSize := 96
  shEntsize := 24
  data := [{}, { stName := 1 }, { stName := 2 }, { stName := 1 }]
  strings offset := if offset = 0 then [] else if offset = 1 then [0x61] else [0x65]

theorem lookup_exact_repeatedNames :
    Exact repeatedNames (findHashedSymbol .big repeatedNames (computeHashTable .big repeatedNames 4)) :=
  (lookup_exact_iff .big ⟨rfl, rfl⟩ (by decide) (by decide)).mpr fun j _ hj hjlen => by
    have hcount : repeatedNames.symbolCount = 4 := by decide
    have hlength : repeatedNames.data.length = 4 := rfl
    omega

/-- A table of 4 GiB and 8 bytes, with the same name throughout. -/
def manySymbols : SymbolTable .b64 where
  shSize := 4294967304
  shEntsize := 24
  data := List.replicate 178956971 {}
  strings _ := [0x61]

/-- Not one of its symbols is counted. -/
theorem lookup_loses_manySymbols : manySymbols.WellFormed ∧
    findHashedSymbol .little manySymbols (computeHashTable .little manySymbols 1) [0x61] = some 0 ∧
    ¬ Exact manySymbols (findHashedSymbol .little manySymbols (computeHashTable .little manySymbols 1)) := by
  have hlength : manySymbols.data.length = 178956971 := List.length_replicate
  have hwell : manySymbols.WellFormed := ⟨rfl, by rw [hlength]; rfl⟩
  have hcount : manySymbols.symbolCount = 0 := by decide
  have hfind : findHashedSymbol .little manySymbols (computeHashTable .little manySymbols 1) [0x61] = some 0 := by
    rw [findHashedSymbol_eq hwell (by decide) (by decide), hcount]
    rfl
  refine ⟨hwell, hfind, fun hexact => ?_⟩
  obtain ⟨i, hi, hpresent, -⟩ := hexact [0x61]
  rw [hfind, Option.some.injEq] at hi
  have hone := (hpresent ⟨1, le_rfl, by rw [hlength]; decide, rfl⟩).1
  omega

end SysvHash

end Pepp.Elf
