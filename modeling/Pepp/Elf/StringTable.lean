import Pepp.Elf.StringStorage
import Pepp.Elf.CombiningAgreement
import Pepp.Elf.SymbolTable

/-!
# String tables

Strings are added behind everything else, each with a terminator, and are read
back from the offset they were given. A symbol is looked up by the place where
its name is first found in the table, wherever that name may end.
-/

namespace Pepp.Elf

open Bts Slabs

/-- A section of strings: its header has the size of the data. -/
structure StringTable (b : ElfBits) where
  storage : StringStorage
  shSize : Word b

namespace StringTable

variable {b : ElfBits} (self : StringTable b)

def getStringSpan (index : Word b) : Option (List U8) :=
  if self.shSize ≤ index ∨ self.storage.size ≤ index.toNat then some []
  else do
    let length ← self.storage.strlen index.toNat
    self.storage.get index.toNat length

def find (needle : List U8) : Word b := if needle.isEmpty then 0 else BitVec.ofNat b.width (self.storage.find needle)

/-- The first byte of a table is always zero. -/
def terminateFirst (fresh : Fresh U8) : Except PoolError Nat × StringStorage :=
  if self.storage.size = 0 then self.storage.append [0] fresh else (.ok 0, self.storage)

/-- Write a string that ends with `last` where room was made for it, and its terminator. -/
def putString (storage : StringStorage) (ret : Word b) (str : List U8) (last : U8) :
    Except StorageError Unit × StringStorage :=
  match storage.set ret.toNat str with
  | (.error e, storage) => (.error e, storage)
  | (.ok (), storage) =>
    if last ≠ 0 then storage.set (addSize ret.toNat str.length) [0] else (.ok (), storage)

/-- What follows the last byte is asked for before anything is allocated: there is none in an empty string. -/
def addString (str : List U8) (fresh₀ fresh : Fresh U8) : Except StorageError (Word b) × StringTable b :=
  match self.terminateFirst fresh₀ with
  | (.error e, storage) => (.error (.pool e), { self with storage := storage })
  | (.ok _, storage) =>
    match str.getLast? with
    | none => (.error .undefined, { self with storage := storage })
    | some last =>
      let newSize := BitVec.ofNat b.width (str.length + if last ≠ 0 then 1 else 0)
      match storage.allocate newSize.toNat 0 fresh with
      | (.error e, storage) => (.error (.pool e), { self with storage := storage })
      | (.ok ret, storage) =>
        let ret := BitVec.ofNat b.width ret
        match putString storage ret str last with
        | (.error e, storage) => (.error e, { self with storage := storage })
        | (.ok (), storage) => (.ok ret, ⟨storage, BitVec.ofNat b.width storage.size⟩)

end StringTable

namespace SymbolTable

variable {b : ElfBits} (t : SymbolTable b)

/-- The first counted symbol whose name is at an index. -/
def namedAt (index : Word b) : Option Nat :=
  (List.range t.symbolCount).find? fun it => (t.getSymbol it).stName.setWidth 64 = index.setWidth 64

def findSymbol (strtab : StringTable b) (name : List U8) : Nat :=
  let strIdx := strtab.find name
  if strIdx = 0 ∧ !name.isEmpty then 0 else (t.namedAt strIdx).getD 0

end SymbolTable

/-! ## Sessions -/

/-- A table, with the offsets that were returned and the strings that were added. -/
structure StringSession (b : ElfBits) where
  table : StringTable b
  added : List (Word b × List U8)

/-- A string that is to be added, and the pages that the host has for it. -/
structure AddString where
  str : List U8
  fresh₀ : Fresh U8
  fresh : Fresh U8

/-- The string without its terminator, if it has one. -/
def textOf (str : List U8) : List U8 := if str.getLast? = some 0 then str.dropLast else str

namespace StringSession

variable {b : ElfBits} (s : StringSession b)

def step (op : AddString) : StringSession b :=
  match s.table.addString op.str op.fresh₀ op.fresh with
  | (.ok ret, table) => ⟨table, (ret, textOf op.str) :: s.added⟩
  | (.error _, table) => { s with table := table }

def run (ops : List AddString) : StringSession b := ops.foldl step s

/-- Every string that was added is read at its offset. -/
def ReadsBack : Prop := ∀ entry ∈ s.added, s.table.getStringSpan entry.1 = some entry.2

end StringSession

/-- How much room a string takes. -/
def storedLength (str : List U8) : Nat := (textOf str).length + 1

/-- There is a last byte, no other is zero, and there is room for the string. -/
structure AddString.Fine {b : ElfBits} (table : StringTable b) (op : AddString) : Prop where
  nonempty : op.str ≠ []
  inner : ∀ c ∈ textOf op.str, c ≠ 0
  room : max 1 table.storage.size + storedLength op.str < 2 ^ b.width

namespace StringSession

variable {b : ElfBits}

/-- Each string is fine where it comes in the run. -/
def FineRun (s : StringSession b) : List AddString → Prop
  | [] => True
  | op :: ops => op.Fine s.table ∧ FineRun (s.step op) ops

/-- The strings are where they were put, and the header has the size of the data. -/
structure Kept (s : StringSession b) : Prop where
  sound : s.table.storage.Sound
  header : s.added ≠ [] → s.table.storage.size < 2 ^ b.width ∧
    s.table.shSize = BitVec.ofNat b.width s.table.storage.size
  held : ∀ entry ∈ s.added, (∀ c ∈ entry.2, c ≠ 0) ∧ s.table.storage.Holds entry.1.toNat (entry.2 ++ [0])

end StringSession

/-! ## Adding a string -/

section Adding

variable {b : ElfBits} {storage : StringStorage} {table : StringTable b} {op : AddString} {str : List U8}

theorem width_le (b : ElfBits) : 2 ^ b.width ≤ 2 ^ 64 := by cases b <;> decide

theorem toNat_word {n : Nat} (h : n < 2 ^ b.width) : (BitVec.ofNat b.width n).toNat = n := by
  rw [BitVec.toNat_ofNat, Nat.mod_eq_of_lt h]

theorem terminated_ne_nil (s : List U8) : s ++ [0] ≠ [] :=
  List.append_ne_nil_of_right_ne_nil _ (List.cons_ne_nil _ _)

theorem terminateFirst_spec (hs : table.storage.Sound) (fresh : Fresh U8) :
    ∃ n st, table.terminateFirst fresh = (.ok n, st) ∧ st.Sound ∧ st.size = max 1 table.storage.size ∧
      (∀ offset data, data ≠ [] → table.storage.Holds offset data → st.Holds offset data) ∧
      (0 < table.storage.size → st = table.storage) ∧
      ∀ request, st.Refuses request ↔ table.storage.Refuses request := by
  rw [StringTable.terminateFirst]
  split
  · next hzero =>
    obtain ⟨st, happend, hlonger⟩ := StringStorage.append_longer hs 0 fresh
    exact ⟨_, st, happend, hlonger.sound, by rw [hlonger.size]; omega, hlonger.kept, fun h => by omega,
      hlonger.refuses⟩
  · next hpos => exact ⟨0, _, rfl, hs, by omega, fun _ _ _ h => h, fun _ => rfl, fun _ => Iff.rfl⟩

variable {last : U8}

/-- A string with its terminator, as it was given or with one more byte. -/
theorem textOf_cases (h : str.getLast? = some last) :
    last = 0 ∧ str = textOf str ++ [0] ∨ last ≠ 0 ∧ str = textOf str := by
  obtain ⟨front, rfl⟩ := List.getLast?_eq_some_iff.mp h
  by_cases hlast : last = 0
  · subst hlast
    refine .inl ⟨rfl, ?_⟩
    rw [textOf, if_pos h, List.dropLast_concat]
  · refine .inr ⟨hlast, ?_⟩
    rw [textOf, if_neg (by rw [h]; exact fun heq => hlast (Option.some.inj heq))]

theorem length_stored (h : str.getLast? = some last) : (str.length + if last ≠ 0 then 1 else 0) = storedLength str := by
  rcases textOf_cases h with ⟨hlast, heq⟩ | ⟨hlast, heq⟩
  · rw [if_neg (not_not.mpr hlast), storedLength, Nat.add_zero]
    exact (congrArg List.length heq).trans List.length_append
  · rw [if_pos hlast, storedLength, ← heq]

theorem putString_spec (hs : storage.Sound) {ret : Word b} (hlast : str.getLast? = some last)
    (hheld : storage.Holds ret.toNat (List.replicate (storedLength str) 0)) (hroom : storage.size < 2 ^ 64) :
    ∃ st, StringTable.putString storage ret str last = (.ok (), st) ∧ st.Sound ∧ st.size = storage.size ∧
      st.Holds ret.toNat (textOf str ++ [0]) ∧
      ∀ offset data, data ≠ [] → offset + data.length ≤ ret.toNat → storage.Holds offset data →
        st.Holds offset data := by
  have hne : str ≠ [] := fun h => by rw [h] at hlast; exact absurd hlast (Option.some_ne_none _).symm
  rcases textOf_cases hlast with ⟨hzero, htext⟩ | ⟨hnonzero, htext⟩
  · have hlen : storedLength str = str.length := by
      rw [storedLength]
      exact (List.length_append.symm.trans (congrArg List.length htext.symm))
    have hsplit : List.replicate (storedLength str) (0 : U8) = [] ++ List.replicate str.length 0 ++ [] := by
      rw [hlen, List.nil_append, List.append_nil]
    rw [hsplit] at hheld
    obtain ⟨st, hset, h⟩ := StringStorage.set_spec hs hheld List.length_replicate.symm hne hroom
    rw [List.length_nil, Nat.add_zero] at hset
    rw [StringTable.putString, hset]
    dsimp only
    rw [if_neg (not_not.mpr hzero), ← htext]
    refine ⟨st, rfl, h.sound, h.size, ?_, h.kept⟩
    have hhere := h.here
    rw [List.nil_append, List.append_nil] at hhere
    exact hhere
  · have hsplit : List.replicate (storedLength str) (0 : U8) = [] ++ List.replicate str.length 0 ++ [0] := by
      rw [storedLength, ← htext, List.replicate_succ', List.nil_append]
    rw [hsplit] at hheld
    obtain ⟨st, hset, h⟩ := StringStorage.set_spec hs hheld List.length_replicate.symm hne hroom
    rw [List.length_nil, Nat.add_zero] at hset
    have hend := h.here.le_size h.sound (terminated_ne_nil _)
    have hhere := h.here
    rw [List.nil_append, ← List.append_nil (str ++ [0])] at hhere
    obtain ⟨st', hset', h'⟩ :=
      StringStorage.set_spec h.sound hhere rfl (List.cons_ne_nil 0 []) (by rw [h.size]; exact hroom)
    rw [List.nil_append, List.length_append, h.size] at hend
    rw [StringTable.putString, hset]
    dsimp only
    rw [if_pos hnonzero, addSize_eq (by omega), hset', ← htext]
    refine ⟨st', rfl, h'.sound, h'.size.trans h.size, ?_, ?_⟩
    · have hhere' := h'.here
      rw [List.append_nil] at hhere'
      exact hhere'
    · intro offset data hdata hle hold
      exact h'.kept offset data hdata (by omega) (h.kept offset data hdata (by rw [List.length_nil]; omega) hold)

/-- Either the string is refused, which leaves at most the first byte behind, or it is in the table. -/
theorem addString_spec (hs : table.storage.Sound) (hop : op.Fine table) :
    (table.storage.Refuses (storedLength op.str) ∧
      ∃ e st, table.addString op.str op.fresh₀ op.fresh = (.error e, { table with storage := st }) ∧ st.Sound ∧
      (0 < table.storage.size → st = table.storage)) ∨
    ∃ ret st, table.addString op.str op.fresh₀ op.fresh = (.ok ret, ⟨st, BitVec.ofNat b.width st.size⟩) ∧ st.Sound ∧
      st.size < 2 ^ b.width ∧ st.Holds ret.toNat (textOf op.str ++ [0]) ∧
      ∀ offset data, data ≠ [] → table.storage.Holds offset data → st.Holds offset data := by
  obtain ⟨n, st₀, hfirst, hs₀, hsize₀, hkept₀, hsame₀, hrefuses₀⟩ := terminateFirst_spec hs op.fresh₀
  have hroom := hop.room
  have hwidth := width_le b
  obtain ⟨last, hlast⟩ := Option.ne_none_iff_exists'.mp fun h => hop.nonempty (List.getLast?_eq_none_iff.mp h)
  have hlen : (BitVec.ofNat b.width (op.str.length + if last ≠ 0 then 1 else 0)).toNat = storedLength op.str := by
    rw [length_stored hlast]
    exact toNat_word (by omega)
  rw [StringTable.addString, hfirst]
  dsimp only
  rw [hlast]
  dsimp only
  rw [hlen]
  by_cases hrefused : st₀.Refuses (storedLength op.str)
  · rw [StringStorage.allocate_refused hs₀ hrefused]
    exact .inl ⟨(hrefuses₀ _).mp hrefused, _, st₀, rfl, hs₀, hsame₀⟩
  · obtain ⟨st₁, hallocate, hlonger, hheld⟩ := StringStorage.allocate_longer hs₀ hrefused 0 op.fresh
    have hret : (BitVec.ofNat b.width st₀.size).toNat = st₀.size := toNat_word (by omega)
    rw [← hret] at hheld
    obtain ⟨st₂, hput, hs₂, hsize₂, hheld₂, hkept₂⟩ := putString_spec hlonger.sound hlast hheld
      (by rw [hlonger.size]; omega)
    rw [hallocate]
    dsimp only
    rw [hput]
    refine .inr ⟨_, st₂, rfl, hs₂, by rw [hsize₂, hlonger.size]; omega, hheld₂, ?_⟩
    intro offset data hdata hold
    have hold₀ := hkept₀ offset data hdata hold
    have hend := hold₀.le_size hs₀ hdata
    exact hkept₂ offset data hdata (by rw [hret]; exact hend) (hlonger.kept offset data hdata hold₀)

end Adding

namespace StringSession

variable {b : ElfBits} {s : StringSession b} {op : AddString}

theorem Kept.step (h : s.Kept) (hop : op.Fine s.table) : (s.step op).Kept := by
  rcases addString_spec h.sound hop with ⟨-, e, st, hadd, hs, hsame⟩ | ⟨ret, st, hadd, hs, hroom, hheld, hkept⟩
  · rw [StringSession.step, hadd]
    -- a string in the table says that it is not empty
    have hstorage : s.added ≠ [] → st = s.table.storage := fun hne => by
      obtain ⟨entry, hentry⟩ := List.exists_mem_of_ne_nil _ hne
      have hend := (h.held entry hentry).2.le_size h.sound (terminated_ne_nil _)
      rw [List.length_append, List.length_singleton] at hend
      exact hsame (by omega)
    refine ⟨hs, fun hne => ?_, fun entry hentry => ?_⟩
    · dsimp only
      rw [hstorage hne]
      exact h.header hne
    · dsimp only
      rw [hstorage (List.ne_nil_of_mem hentry)]
      exact h.held entry hentry
  · rw [StringSession.step, hadd]
    refine ⟨hs, fun _ => ⟨hroom, rfl⟩, ?_⟩
    intro entry hentry
    rcases List.mem_cons.mp hentry with rfl | hentry
    · exact ⟨hop.inner, hheld⟩
    · obtain ⟨hinner, hold⟩ := h.held entry hentry
      exact ⟨hinner, hkept _ _ (terminated_ne_nil _) hold⟩

theorem fineRun_append {ops ops' : List AddString} (h : s.FineRun (ops ++ ops')) :
    s.FineRun ops ∧ (s.run ops).FineRun ops' := by
  induction ops generalizing s with
  | nil => exact ⟨trivial, h⟩
  | cons op ops ih =>
    obtain ⟨hdone, hrest⟩ := ih h.2
    exact ⟨⟨h.1, hdone⟩, hrest⟩

theorem Kept.run (h : s.Kept) {ops : List AddString} (hfine : s.FineRun ops) : (s.run ops).Kept := by
  induction ops generalizing s with
  | nil => exact h
  | cons op ops ih => exact ih (h.step hfine.1) hfine.2

/-- A string is given an offset, unless no page can be made for it. -/
def Served (s : StringSession b) (op : AddString) : Prop :=
  s.table.storage.Refuses (storedLength op.str) ∨
    ∃ ret table, s.table.addString op.str op.fresh₀ op.fresh = (.ok ret, table)

theorem Kept.served (h : s.Kept) (hop : op.Fine s.table) : s.Served op := by
  rcases addString_spec h.sound hop with ⟨hrefused, -⟩ | ⟨ret, st, hadd, -⟩
  · exact .inl hrefused
  · exact .inr ⟨ret, _, hadd⟩

theorem Kept.readsBack (h : s.Kept) : s.ReadsBack := by
  intro entry hentry
  obtain ⟨hinner, hheld⟩ := h.held entry hentry
  obtain ⟨hroom, hheader⟩ := h.header (List.ne_nil_of_mem hentry)
  have hend := hheld.le_size h.sound (terminated_ne_nil _)
  rw [List.length_append, List.length_singleton] at hend
  obtain ⟨hstrlen, hget⟩ := StringStorage.read_spec h.sound hinner hheld (hroom.trans_le (width_le b))
  have hin : ¬ (s.table.shSize ≤ entry.1 ∨ s.table.storage.size ≤ entry.1.toNat) := by
    rw [hheader, BitVec.le_def, toNat_word hroom]
    omega
  rw [StringTable.getStringSpan, if_neg hin, hstrlen]
  exact hget

/-- In a run of fine strings all are served, and are read at their offsets from then on. -/
theorem run_readsBack {table : StringTable b} (hs : table.storage.Sound) {ops : List AddString}
    (hfine : FineRun ⟨table, []⟩ ops) :
    (run ⟨table, []⟩ ops).ReadsBack ∧
      ∀ (done : List AddString) (op : AddString), done ++ [op] <+: ops → (run ⟨table, []⟩ done).Served op := by
  have hstart : Kept ⟨table, []⟩ := ⟨hs, fun hne => absurd rfl hne, List.forall_mem_nil _⟩
  refine ⟨(hstart.run hfine).readsBack, ?_⟩
  rintro done op ⟨rest, rfl⟩
  rw [List.append_assoc] at hfine
  obtain ⟨hdone, hrest⟩ := fineRun_append hfine
  exact (hstart.run hdone).served hrest.1

end StringSession

/-! ## Looking a symbol up -/

namespace Leaf

theorem search_first {needle bytes : List U8} {k : Nat} (hk : k < bytes.length) (h : needle <+: bytes.drop k) :
    search needle bytes ≤ k := by
  induction bytes generalizing k with
  | nil => exact Nat.zero_le _
  | cons b bytes ih =>
    rw [search]
    split
    · exact Nat.zero_le _
    · next hprefix =>
      cases k with
      | zero => exact absurd (List.isPrefixOf_iff_prefix.mpr h) hprefix
      | succ k => exact Nat.succ_le_succ (ih (Nat.lt_of_succ_lt_succ hk) h)

theorem findPage_first {needle page : List U8} (pre post : List (List U8)) {k : Nat} (offset : Nat)
    (hk : k < page.length) (h : needle <+: page.drop k) :
    findPage needle offset (pre ++ page :: post) ≤ offset + (pre.flatten.length + k) := by
  induction pre generalizing offset with
  | nil =>
    have hfirst := search_first hk h
    rw [List.nil_append, findPage, if_pos (by omega), List.flatten_nil, List.length_nil]
    omega
  | cons page₀ pre ih =>
    rw [List.cons_append, findPage, List.flatten_cons, List.length_append]
    split
    · have hle := search_le needle page₀
      omega
    · have hrest := ih (offset + page₀.length)
      omega

/-- The search answers with the first place. -/
theorem find_first {data : Leaf} {needle : List U8} {l : Nat} (h : data.Has needle l) : data.find needle ≤ l := by
  obtain ⟨pre, page, post, k, hpages, rfl, hk, hprefix⟩ := h
  have hsingle : ∀ bytes : List U8, [bytes] = pre ++ page :: post →
      (if search needle bytes = bytes.length then 0 else search needle bytes) ≤ pre.flatten.length + k := by
    intro bytes heq
    have hpage := findPage_first pre post 0 hk hprefix
    rw [← heq, findPage] at hpage
    split
    · exact Nat.zero_le _
    · next hne =>
      rw [if_pos hne] at hpage
      omega
  cases data with
  | block bytes => exact hsingle bytes hpages
  | mapped bytes => exact hsingle bytes hpages
  | null => exact Nat.zero_le _
  | paged pages =>
    change pages = _ at hpages
    have hpage := findPage_first pre post 0 hk hprefix
    rw [← hpages] at hpage
    rw [Nat.zero_add] at hpage
    exact hpage

end Leaf

section Lookup

variable {b : ElfBits}

/-- Where the bytes of a name are first found, and where they are taken to be if they are not. The empty name is
at the start. -/
def StringTable.FoundAt (strtab : StringTable b) (name : List U8) (p : Word b) : Prop :=
  name = [] ∧ p = 0 ∨
    name ≠ [] ∧ p ≠ 0 ∧
      ((∃ l, strtab.storage.toLeaf.Has name l ∧ (∀ k, strtab.storage.toLeaf.Has name k → l ≤ k) ∧
          p = BitVec.ofNat b.width l) ∨
        (∀ l, ¬ strtab.storage.toLeaf.Has name l) ∧ p = BitVec.ofNat b.width strtab.storage.toLeaf.miss)

namespace SymbolTable

variable (t : SymbolTable b)

/-- The name of a symbol is at an index. -/
def NamedFrom (it : Nat) (p : Word b) : Prop := (t.getSymbol it).stName.setWidth 64 = p.setWidth 64

instance (it : Nat) (p : Word b) : Decidable (t.NamedFrom it p) := inferInstanceAs (Decidable (_ = _))

/-- A symbol that is found has the name that was looked up. -/
def FindsWhole (strtab : StringTable b) (name : List U8) : Prop :=
  t.findSymbol strtab name ≠ 0 →
    strtab.getStringSpan ((t.getSymbol (t.findSymbol strtab name)).stName.setWidth b.width) = some name

/-- At the place where a name is found, a symbol behind the first has its name only if it is that name. -/
def WholeAt (strtab : StringTable b) (name : List U8) : Prop :=
  ∀ p, strtab.FoundAt name p → ¬ t.NamedFrom 0 p → (∃ it < t.symbolCount, t.NamedFrom it p) →
    strtab.getStringSpan p = some name

variable {t} {strtab : StringTable b} {name : List U8} {p : Word b} {it : Nat}

theorem foundAt_iff : strtab.FoundAt name p ↔ p = strtab.find name ∧ (name = [] ∨ p ≠ 0) := by
  cases name with
  | nil => simp [StringTable.FoundAt, StringTable.find]
  | cons c name =>
    have hfind : strtab.find (c :: name) = BitVec.ofNat b.width (strtab.storage.toLeaf.find (c :: name)) := rfl
    rw [StringTable.FoundAt, hfind]
    constructor
    · rintro (⟨hnil, -⟩ | ⟨-, hp, ⟨l, hl, hfirst, rfl⟩ | ⟨hnone, rfl⟩⟩)
      · exact absurd hnil (List.cons_ne_nil _ _)
      · refine ⟨?_, .inr hp⟩
        rcases strtab.storage.toLeaf.find_spec (c :: name) with hhas | ⟨-, hnone⟩
        · rw [Nat.le_antisymm (hfirst _ hhas) (Leaf.find_first hl)]
        · exact absurd hl (hnone l)
      · refine ⟨?_, .inr hp⟩
        rcases strtab.storage.toLeaf.find_spec (c :: name) with hhas | ⟨hmiss, -⟩
        · exact absurd hhas (hnone _)
        · rw [hmiss]
    · rintro ⟨rfl, hnil | hp⟩
      · exact absurd hnil (List.cons_ne_nil _ _)
      · refine .inr ⟨List.cons_ne_nil _ _, hp, ?_⟩
        rcases strtab.storage.toLeaf.find_spec (c :: name) with hhas | ⟨hmiss, hnone⟩
        · exact .inl ⟨_, hhas, fun k hk => Leaf.find_first hk, rfl⟩
        · exact .inr ⟨hnone, by rw [hmiss]⟩

theorem NamedFrom.setWidth_eq (h : t.NamedFrom it p) : (t.getSymbol it).stName.setWidth b.width = p := by
  cases b with
  | b32 =>
    apply BitVec.eq_of_toNat_eq
    have heq := congrArg BitVec.toNat h
    rw [BitVec.toNat_setWidth_of_le (by decide), BitVec.toNat_setWidth_of_le (by decide)] at heq
    rw [BitVec.toNat_setWidth_of_le (by decide)]
    exact heq
  | b64 => exact h.trans (BitVec.setWidth_eq p)

/-- The first symbol with its name at an index, or the first symbol of all. -/
theorem namedAt_spec (t : SymbolTable b) (p : Word b) :
    ((t.namedAt p).getD 0 ≠ 0 → t.NamedFrom ((t.namedAt p).getD 0) p) ∧
      ((t.namedAt p).getD 0 ≠ 0 ↔ ¬ t.NamedFrom 0 p ∧ ∃ it < t.symbolCount, t.NamedFrom it p) := by
  cases hfind : t.namedAt p with
  | none =>
    refine ⟨fun h => absurd rfl h, iff_of_false (fun h => h rfl) ?_⟩
    rintro ⟨-, it, hit, hnamed⟩
    have hnone := List.find?_eq_none.mp hfind it (List.mem_range.mpr hit)
    exact hnone (decide_eq_true hnamed)
  | some it =>
    obtain ⟨hnamed, hit, hfirst⟩ := List.find?_range_eq_some.mp hfind
    have hnamed : t.NamedFrom it p := of_decide_eq_true hnamed
    refine ⟨fun _ => hnamed, ?_⟩
    rw [Option.getD_some]
    constructor
    · intro hne
      refine ⟨fun hzero => ?_, it, List.mem_range.mp hit, hnamed⟩
      have hnot := hfirst 0 (Nat.pos_of_ne_zero hne)
      rw [Bool.not_eq_true', decide_eq_false_iff_not] at hnot
      exact hnot hzero
    · rintro ⟨hzero, -⟩ rfl
      exact hzero hnamed

/-- The name of what is found is the one looked up just where that is the string at the place of its first bytes. -/
theorem findsWhole_iff (t : SymbolTable b) (strtab : StringTable b) (name : List U8) :
    t.FindsWhole strtab name ↔ t.WholeAt strtab name := by
  obtain ⟨hnamed, hiff⟩ := namedAt_spec t (strtab.find name)
  rw [FindsWhole, WholeAt]
  simp only [foundAt_iff]
  by_cases hmiss : strtab.find name = 0 ∧ (!name.isEmpty) = true
  · have hzero : t.findSymbol strtab name = 0 := if_pos hmiss
    refine iff_of_true (fun h => absurd hzero h) ?_
    rintro p ⟨rfl, hnil | hne⟩
    · rw [hnil] at hmiss
      exact absurd hmiss.2 (by decide)
    · exact absurd hmiss.1 hne
  · have hfind : t.findSymbol strtab name = (t.namedAt (strtab.find name)).getD 0 := if_neg hmiss
    rw [hfind]
    constructor
    · rintro h p ⟨rfl, -⟩ hhead hsome
      have hne := hiff.mpr ⟨hhead, hsome⟩
      have hwhole := h hne
      rw [(hnamed hne).setWidth_eq] at hwhole
      exact hwhole
    · intro h hne
      rw [(hnamed hne).setWidth_eq]
      obtain ⟨hhead, hsome⟩ := hiff.mp hne
      refine h _ ⟨rfl, ?_⟩ hhead hsome
      by_contra hnot
      obtain ⟨hnil, hzero⟩ := not_or.mp hnot
      refine hmiss ⟨not_not.mp hzero, ?_⟩
      rw [List.isEmpty_eq_false_iff.mpr hnil]
      rfl

end SymbolTable

end Lookup

/-- In runs that add no empty span and no string with a zero inside it, every string that is added is read at its
offset from then on. A symbol that is found by name has that name just where the first occurrence of its bytes is a
whole string, or no symbol behind the first is named from there. -/
theorem strings_kept (b : ElfBits) :
    (∀ table : StringTable b, table.storage.Sound → ∀ ops, StringSession.FineRun ⟨table, []⟩ ops →
      (StringSession.run ⟨table, []⟩ ops).ReadsBack ∧ ∀ (done : List AddString) (op : AddString), done ++ [op] <+: ops →
        (StringSession.run ⟨table, []⟩ done).Served op) ∧
      ∀ (t : SymbolTable b) (strtab : StringTable b) (name : List U8),
        t.FindsWhole strtab name ↔ t.WholeAt strtab name :=
  ⟨fun _ hs _ hfine => StringSession.run_readsBack hs hfine, SymbolTable.findsWhole_iff⟩

/-- "foobar", and then "foo" with its terminator. -/
def twoStrings : List AddString :=
  [⟨[102, 111, 111, 98, 97, 114], ⟨0, fun _ => 0⟩, ⟨0, fun _ => 0⟩⟩,
    ⟨[102, 111, 111, 0], ⟨0, fun _ => 0⟩, ⟨0, fun _ => 0⟩⟩]

theorem strings_kept_two :
    (StringSession.run ⟨(⟨.block [], 0⟩ : StringTable .b32), []⟩ twoStrings).added.map Prod.snd =
        [[102, 111, 111], [102, 111, 111, 98, 97, 114]] ∧
      (StringSession.run ⟨(⟨.block [], 0⟩ : StringTable .b32), []⟩ twoStrings).ReadsBack := by
  refine ⟨by decide,
    ((strings_kept .b32).1 ⟨.block [], 0⟩ trivial twoStrings ⟨⟨?_, ?_, ?_⟩, ⟨?_, ?_, ?_⟩, trivial⟩).1⟩ <;> decide

/-- A table with the string "foobar" and a symbol of that name. -/
def foobar : SymbolTable .b32 × StringTable .b32 :=
  let strtab : StringTable .b32 := ⟨.block [0, 102, 111, 111, 98, 97, 114, 0], 8⟩
  (⟨32, 16, [{}, { stName := 1 }], fun index => (strtab.getStringSpan index).getD []⟩, strtab)

/-- Looking "foo" up finds it, and an empty span has no last byte to look at. -/
theorem foo_finds_foobar :
    foobar.1.findSymbol foobar.2 [102, 111, 111] = 1 ∧
      foobar.1.getSymbolName 1 = [102, 111, 111, 98, 97, 114] ∧ ¬ foobar.1.FindsWhole foobar.2 [102, 111, 111] ∧
      (foobar.2.addString [] ⟨0, fun _ => 0⟩ ⟨0, fun _ => 0⟩).1 = .error .undefined := by
  have hfind : foobar.1.findSymbol foobar.2 [102, 111, 111] = 1 := by decide
  refine ⟨hfind, by decide, fun h => ?_, by decide⟩
  have hwhole := h (by rw [hfind]; decide)
  rw [hfind] at hwhole
  exact absurd hwhole (by decide)

end Pepp.Elf
