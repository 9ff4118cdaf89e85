import Mathlib.Data.List.Chain
import Pepp.Asmb.Lexer
import Pepp.Microcode.Lexemes

/-!
# Where tokens are

The offsets that a call of the lexer covers, and what its locations say of them.
Rows and columns are exact as long as they fit and no token but a line break
takes a line break; a literal may, and the rows after it are too low.
-/

namespace Pepp.Tc

open Ucode (Text isSpace matchSome_spec matchSymbol_spec matchDecimal)

/-! ## What patterns take -/

/-- What a pattern matches is in front of what it leaves. -/
def Splits (text : Text) (m : Option (Text × Text)) : Prop := ∀ taken rest, m = some (taken, rest) → text = taken ++ rest

variable (text : Text) (opts : AsmbOptions)

theorem Splits.none : Splits text none := fun _ _ h => nomatch h

theorem Splits.some (taken rest : Text) : Splits (taken ++ rest) (some (taken, rest)) := by
  rintro _ _ ⟨⟩
  rfl

theorem Splits.withPrefix {text : Text} {m : Option (Text × Text)} (h : Splits text m) (pre : Text) :
    Splits (pre ++ text) (withPrefix pre m) := by
  intro taken rest hm
  obtain ⟨⟨taken', rest'⟩, hm', hr⟩ := Option.map_eq_some_iff.mp hm
  obtain ⟨rfl, rfl⟩ := Prod.mk.inj hr
  rw [h _ _ hm', List.append_assoc]

theorem matchWord_splits (first following : Char → Bool) (text : Text) : Splits text (matchWord first following text) := by
  match text with
  | [] => exact .none _
  | c :: text =>
    rw [matchWord]
    split
    · intro taken rest h
      cases h
      rw [List.cons_append, List.takeWhile_append_dropWhile]
    · exact .none _

theorem matchMacroArg_splits : Splits text (matchMacroArg text) := by
  rw [matchMacroArg.eq_def]
  split
  · exact .some ['\\', '(', ')'] _
  · exact (matchWord_splits _ _ _).withPrefix ['\\']
  · exact .none _

theorem matchDirective_splits : Splits text (matchDirective text) := by
  rw [matchDirective.eq_def]
  split
  · exact (matchWord_splits _ _ _).withPrefix ['.']
  · exact .none _

theorem matchHexadecimal_splits : Splits text (matchHexadecimal text) := by
  rw [matchHexadecimal.eq_def]
  split
  · split
    · exact Splits.withPrefix (fun _ _ h => (matchSome_spec h).1) _
    · exact .none _
  · exact .none _

theorem matchBadHex_splits : Splits text (matchBadHex text) := by
  rw [matchBadHex.eq_def]
  split
  · split
    · exact .some [_, _] _
    · exact .none _
  · exact .none _

theorem matchCharacter_splits (quote : Char) (text : Text) : Splits text (matchCharacter quote text) := by
  rw [matchCharacter.eq_def]
  split
  · exact .none _
  · split
    · exact .none _
    · split
      · exact .some [_] _
      · split
        · exact .none _
        · split
          · exact .some [_, _] _
          · split
            · split
              · split
                · exact .some [_, _, _, _] _
                · exact .none _
              · exact .none _
            · exact .none _

theorem matchCharConstant_splits : Splits text (matchCharConstant text) := by
  rw [matchCharConstant.eq_def]
  split
  · split
    · next h =>
      rw [matchCharacter_splits _ _ _ _ h]
      intro taken rest hm
      cases hm
      simp
    · exact .none _
  · exact .none _

theorem matchCharacters_splits (fuel : Nat) (text : Text) :
    text = (matchCharacters fuel text).1 ++ (matchCharacters fuel text).2 := by
  induction fuel generalizing text with
  | zero => rfl
  | succ fuel ih =>
    rw [matchCharacters]
    split
    · next m rest h =>
      rw [matchCharacter_splits _ _ _ _ h, List.append_assoc, ← ih rest]
    · rfl

theorem matchStrConstant_splits : Splits text (matchStrConstant text) := by
  rw [matchStrConstant.eq_def]
  split
  · next text =>
    split
    · next m rest h =>
      have hsplit := matchCharacters_splits text.length text
      rw [h] at hsplit
      intro taken rest' hm
      cases hm
      rw [hsplit]
      simp
    · exact .none _
  · exact .none _

theorem matchLineComment_splits (text : Text) : Splits text (matchLineComment opts text) := by
  rw [matchLineComment]
  split
  · next h =>
    obtain ⟨rest, rfl⟩ := List.isPrefixOf_iff_prefix.mp h
    intro taken rest' hm
    cases hm
    rw [List.append_assoc, List.takeWhile_append_dropWhile, List.drop_left]
  · exact .none _

/-- A token takes its characters off the front of the source. -/
theorem scan_prefix (c : Char) (text : Text) : (scan opts c text).2 <+: c :: text := by
  have hone : [c] <+: c :: text := ⟨text, rfl⟩
  have htaken : ∀ {m : Option (Text × Text)} {taken rest : Text}, Splits (c :: text) m → m = some (taken, rest) →
      taken <+: c :: text := fun h hm => ⟨_, (h _ _ hm).symm⟩
  rw [scan]
  split
  · exact hone
  · split
    · split
      · next digits rest h =>
        obtain ⟨rfl, -⟩ := matchSome_spec h
        exact ⟨rest, rfl⟩
      · exact hone
    · split
      · next h => exact htaken (matchMacroArg_splits _) h
      · split
        · next h => exact ⟨_, (matchSymbol_spec h).1.symm⟩
        · split
          · next h => exact htaken (matchWord_splits _ _ _) h
          · split
            · next h => exact htaken (matchDirective_splits _) h
            · split
              · exact hone
              · split
                · next h => exact htaken (matchHexadecimal_splits _) h
                · split
                  · next h => exact htaken (matchBadHex_splits _) h
                  · split
                    · next h => exact ⟨_, (matchSome_spec h).1.symm⟩
                    · split
                      · next h => exact htaken (matchLineComment_splits _ _) h
                      · split
                        · next h => exact htaken (matchCharConstant_splits _) h
                        · split
                          · next h => exact htaken (matchStrConstant_splits _) h
                          · exact hone

theorem scanned_prefix (text : Text) : (AsmbLexer.scanned opts text).2 <+: text := by
  match text with
  | [] => exact List.nil_prefix
  | c :: text =>
    rw [AsmbLexer.scanned]
    split
    · exact ⟨text, rfl⟩
    · exact scan_prefix opts c text

/-! ## One call -/

/-- A location further on in the same row. -/
def Location.shift (loc : Location) (n : Nat) : Location := ⟨loc.row, loc.column + BitVec.ofNat 16 n⟩

theorem Location.shift_shift (loc : Location) (m n : Nat) : (loc.shift m).shift n = loc.shift (m + n) := by
  rw [shift, shift, shift, BitVec.ofNat_add, BitVec.add_assoc]

theorem Location.shift_zero (loc : Location) : loc.shift 0 = loc := by
  rw [shift]
  simp

theorem skip_zero_loc (cursor : SeekableData) : (cursor.skip 0).loc = cursor.loc := cursor.loc.shift_zero

/-- White space that is skipped. -/
def isBlank (c : Char) : Bool := isSpace c && c != '\n'

namespace AsmbLexer

variable {l : AsmbLexer}

theorem skipBlanks_spec (text : Text) (cursor : SeekableData) (current : Option Location) :
    (skipBlanks cursor current text).1.data = cursor.data ∧
    (skipBlanks cursor current text).1.end_ = cursor.end_ + (text.takeWhile isBlank).length ∧
    (skipBlanks cursor current text).1.loc = cursor.loc.shift (text.takeWhile isBlank).length ∧
    ∀ loc ∈ (skipBlanks cursor current text).2,
      current = some loc ∨ ∃ k ≤ (text.takeWhile isBlank).length, loc = cursor.loc.shift k := by
  have hstay : ∀ (cursor : SeekableData) (current : Option Location), cursor.loc = cursor.loc.shift 0 ∧
      ∀ loc ∈ current, current = some loc ∨ ∃ k ≤ 0, loc = cursor.loc.shift k := fun cursor current =>
    ⟨cursor.loc.shift_zero.symm, fun loc h => .inl h⟩
  induction text generalizing cursor current with
  | nil => exact ⟨rfl, rfl, hstay cursor current⟩
  | cons c text ih =>
    have hskip : ∀ current', (∀ loc ∈ current', current = some loc ∨ loc = cursor.loc.shift 1) → isBlank c = true →
        skipBlanks cursor current (c :: text) = skipBlanks (cursor.skip 1) current' text →
        (skipBlanks cursor current (c :: text)).1.data = cursor.data ∧
        (skipBlanks cursor current (c :: text)).1.end_ = cursor.end_ + ((c :: text).takeWhile isBlank).length ∧
        (skipBlanks cursor current (c :: text)).1.loc = cursor.loc.shift ((c :: text).takeWhile isBlank).length ∧
        ∀ loc ∈ (skipBlanks cursor current (c :: text)).2,
          current = some loc ∨ ∃ k ≤ ((c :: text).takeWhile isBlank).length, loc = cursor.loc.shift k := by
      intro current' hcurrent hblank heq
      obtain ⟨hdata, hend, hloc, hsome⟩ := ih (cursor.skip 1) current'
      have hlen : ((c :: text).takeWhile isBlank).length = (text.takeWhile isBlank).length + 1 := by
        rw [List.takeWhile_cons_of_pos hblank, List.length_cons]
      have hshift : ∀ k, (cursor.skip 1).loc.shift k = cursor.loc.shift (k + 1) := fun k => by
        rw [Nat.add_comm, ← Location.shift_shift]
        rfl
      rw [heq, hlen, hend, hloc, hshift]
      refine ⟨hdata, ?_, rfl, fun loc hl => ?_⟩
      · change cursor.end_ + 1 + _ = _
        omega
      · rcases hsome loc hl with h | ⟨k, hk, rfl⟩
        · rcases hcurrent loc h with h | rfl
          · exact .inl h
          · exact .inr ⟨1, by omega, rfl⟩
        · exact .inr ⟨k + 1, by omega, hshift k⟩
    by_cases hn : c = '\n'
    · have hstop : (c :: text).takeWhile isBlank = [] := by simp [hn, isBlank]
      rw [skipBlanks, if_pos hn, hstop]
      exact ⟨rfl, rfl, hstay cursor current⟩
    · have hblank : isSpace c = true → isBlank c = true := fun h => by simp [isBlank, h, hn]
      by_cases hr : c = '\r'
      · refine hskip (some (cursor.skip 1).loc) ?_ (hblank (by rw [hr]; rfl)) (by rw [skipBlanks, if_neg hn, if_pos hr])
        intro loc hl
        cases hl
        exact .inr rfl
      · by_cases hs : isSpace c = true
        · refine hskip current (fun loc h => .inl h) (hblank hs) ?_
          rw [skipBlanks, if_neg hn, if_neg hr, if_pos hs]
        · have hstop : (c :: text).takeWhile isBlank = [] := by simp [isBlank, hs]
          rw [skipBlanks, if_neg hn, if_neg hr, if_neg hs, hstop]
          exact ⟨rfl, rfl, hstay cursor current⟩

/-- The white space in front of the next token. -/
def blanks (l : AsmbLexer) : Text := l.cursor.rest.takeWhile isBlank

/-- The characters of the next token. -/
def taken (l : AsmbLexer) : Text := (scanned l.opts (l.cursor.rest.dropWhile isBlank)).2

theorem recordRow_cursor (l : AsmbLexer) : l.recordRow.cursor = l.cursor ∧ l.recordRow.opts = l.opts := by
  rw [recordRow]
  split <;> exact ⟨rfl, rfl⟩

/-- The source in front of the cursor: white space, the next token and what is behind it. -/
theorem rest_split (l : AsmbLexer) : ∃ behind, l.cursor.rest = l.blanks ++ (l.taken ++ behind) := by
  obtain ⟨behind, h⟩ := scanned_prefix l.opts (l.cursor.rest.dropWhile isBlank)
  exact ⟨behind, by rw [blanks, taken, h, List.takeWhile_append_dropWhile]⟩

/-- Where a call takes its token from, and what it leaves. -/
structure Step (l : AsmbLexer) (t : Token) (l' : AsmbLexer) : Prop where
  token : t.token = (scanned l.opts (l.cursor.rest.dropWhile isBlank)).1
  opts : l'.opts = l.opts
  data : l'.cursor.data = l.cursor.data
  stop : l'.cursor.end_ = l.cursor.end_ + l.blanks.length + l.taken.length
  rows : l'.rowToStreampos = l.recordRow.rowToStreampos
  newline : l.taken = ['\n'] →
    l'.cursor.loc = ⟨l.cursor.loc.row + 1, 0⟩ ∧ t.loc = ⟨l.cursor.loc.shift l.blanks.length, l'.cursor.loc⟩
  inside : l.taken ≠ ['\n'] → l'.cursor.loc = l.cursor.loc.shift (l.blanks.length + l.taken.length) ∧
    (t.loc = ⟨l.cursor.loc.shift l.blanks.length, l'.cursor.loc⟩ ∨
      l.taken = [] ∧ ∃ k ≤ l.blanks.length, t.loc = ⟨l.cursor.loc.shift k, l.cursor.loc.shift k⟩)

theorem nextToken_step (l : AsmbLexer) : l.Step l.nextToken.1 l.nextToken.2 := by
  obtain ⟨hcursor, hopts⟩ := l.recordRow_cursor
  have hspec := skipBlanks_spec l.cursor.rest l.cursor none
  rcases hskip : skipBlanks l.cursor none l.cursor.rest with ⟨cursor, current⟩
  rw [hskip] at hspec
  obtain ⟨hdata, hend, hloc, hcurrent⟩ := hspec
  have hrest : cursor.rest = l.cursor.rest.dropWhile isBlank := by
    rw [SeekableData.rest, hdata, hend, ← List.drop_drop]
    calc l.cursor.rest.drop (l.cursor.rest.takeWhile isBlank).length
        = (l.cursor.rest.takeWhile isBlank ++ l.cursor.rest.dropWhile isBlank).drop
            (l.cursor.rest.takeWhile isBlank).length := by rw [List.takeWhile_append_dropWhile]
      _ = l.cursor.rest.dropWhile isBlank := List.drop_left
  rw [nextToken, hcursor, hskip, hopts]
  match htext : cursor.rest with
  | [] =>
    have htaken : l.taken = [] := by rw [taken, ← hrest, htext, scanned]
    simp only [htext]
    have hstay : (cursor.skip 0).loc = l.cursor.loc.shift (l.blanks.length + l.taken.length) := by
      rw [htaken, ← Location.shift_shift, blanks, ← hloc]
      rfl
    refine ⟨by rw [← hrest, htext]; rfl, rfl, hdata, by rw [htaken]; exact hend, rfl,
      fun h => absurd (htaken.symm.trans h) (by decide),
      fun _ => ⟨hstay, .inr ⟨htaken, ?_⟩⟩⟩
    cases current with
    | none => exact ⟨_, Nat.le_refl _, by rw [blanks, ← hloc]; rfl⟩
    | some loc =>
      obtain ⟨k, hk, rfl⟩ := (hcurrent loc rfl).resolve_left nofun
      exact ⟨k, hk, rfl⟩
  | c :: text =>
    have htaken : l.taken = (scanned l.opts (c :: text)).2 := by rw [taken, ← hrest, htext]
    simp only [htext]
    by_cases hn : c = '\n'
    · have htaken : l.taken = ['\n'] := by rw [htaken, scanned, if_pos hn, hn]
      rw [if_pos hn]
      have hrow : ((cursor.advance 1).newline.skip 0).loc = ⟨l.cursor.loc.row + 1, 0⟩ := by
        change (⟨cursor.loc.row + 1, 0 + 0⟩ : Location) = _
        rw [hloc]
        rfl
      refine ⟨by rw [← hrest, htext, scanned, if_pos hn], rfl, hdata, ?_, rfl, fun _ => ⟨hrow, ?_⟩,
        fun h => absurd htaken h⟩
      · rw [htaken]
        exact congrArg (· + 1) hend
      · rw [blanks, ← hloc]
        rfl
    · have htaken : l.taken = (scan l.opts c text).2 := by rw [htaken, scanned, if_neg hn]
      have hne : l.taken ≠ ['\n'] := by
        rw [htaken]
        intro h
        obtain ⟨rest, hpre⟩ := scan_prefix l.opts c text
        rw [h] at hpre
        exact hn (List.cons.inj hpre).1.symm
      rw [if_neg hn]
      have hshift : ((cursor.advance (scan l.opts c text).2.length).skip 0).loc =
          l.cursor.loc.shift (l.blanks.length + l.taken.length) := by
        rw [← Location.shift_shift, blanks, ← hloc, htaken]
        rw [skip_zero_loc]
        rfl
      refine ⟨by rw [← hrest, htext, scanned, if_neg hn], rfl, hdata, ?_, rfl, fun h => absurd h hne,
        fun _ => ⟨hshift, .inl ?_⟩⟩
      · rw [htaken, blanks, ← hend]
        rfl
      · rw [blanks, ← hloc, skip_zero_loc]

/-- A call stays within the 16 bits of its locations, and no token but a line break takes a line break. -/
structure Fits (l : AsmbLexer) : Prop where
  column : l.cursor.loc.column.toNat + l.blanks.length + l.taken.length < 2 ^ 16
  row : l.taken = ['\n'] → l.cursor.loc.row.toNat + 1 < 2 ^ 16
  newline : '\n' ∈ l.taken → l.taken = ['\n']

/-- The cursor's location is that of its offset. -/
structure Placed (l : AsmbLexer) : Prop where
  bound : l.cursor.end_ ≤ l.cursor.data.length
  row : l.cursor.loc.row.toNat = (l.cursor.data.take l.cursor.end_).count '\n'
  base : ∃ base, base + l.cursor.loc.column.toNat = l.cursor.end_ ∧
    (l.rowToStreampos l.cursor.loc.row = some base ∨
      l.rowToStreampos l.cursor.loc.row = none ∧ l.cursor.loc.column = 0)
  fresh : ∀ r, l.cursor.loc.row < r → l.rowToStreampos r = none

/-- The same source, with no row forgotten. -/
structure Extends (l l' : AsmbLexer) : Prop where
  data : l'.cursor.data = l.cursor.data
  rows : ∀ r p, l.rowToStreampos r = some p → l'.rowToStreampos r = some p

theorem Extends.refl (l : AsmbLexer) : l.Extends l := ⟨rfl, fun _ _ h => h⟩

theorem Extends.trans {l₁ l₂ l₃ : AsmbLexer} (h : l₁.Extends l₂) (h' : l₂.Extends l₃) : l₁.Extends l₃ :=
  ⟨h'.data.trans h.data, fun r p hp => h'.rows r p (h.rows r p hp)⟩

theorem recordRow_rows (l : AsmbLexer) (r : U16) (p : Nat) (h : l.rowToStreampos r = some p) :
    l.recordRow.rowToStreampos r = some p := by
  rw [recordRow]
  split
  · next hnone =>
    have hne : r ≠ l.cursor.loc.row := by
      rintro rfl
      rw [hnone.2] at h
      cases h
    exact (Function.update_of_ne hne _ _).trans h
  · exact h

theorem extends_nextToken (l : AsmbLexer) : l.Extends l.nextToken.2 := by
  have hstep := l.nextToken_step
  refine ⟨hstep.data, fun r p h => ?_⟩
  rw [hstep.rows]
  exact l.recordRow_rows r p h

variable {l' : AsmbLexer} {t : Token}

/-- The row of the cursor is known once a token is asked for. -/
theorem Placed.record (h : l.Placed) :
    ∃ base, base + l.cursor.loc.column.toNat = l.cursor.end_ ∧
      l.recordRow.rowToStreampos l.cursor.loc.row = some base ∧
      ∀ r, l.cursor.loc.row < r → l.recordRow.rowToStreampos r = none := by
  obtain ⟨base, hbase, hrow⟩ := h.base
  refine ⟨base, hbase, ?_, fun r hr => ?_⟩
  · rcases hrow with hrow | ⟨hnone, hcolumn⟩
    · exact l.recordRow_rows _ _ hrow
    · rw [recordRow, if_pos ⟨hcolumn, hnone⟩, ← hbase, hcolumn]
      exact Function.update_self _ _ _
  · have hne : r ≠ l.cursor.loc.row := by
      rintro rfl
      exact absurd hr (BitVec.lt_irrefl _)
    rw [recordRow]
    split
    · exact (Function.update_of_ne hne _ _).trans (h.fresh r hr)
    · exact h.fresh r hr

theorem toNat_shift {loc : Location} {n : Nat} (h : loc.column.toNat + n < 2 ^ 16) :
    (loc.shift n).column.toNat = loc.column.toNat + n := by
  rw [Location.shift, BitVec.toNat_add, BitVec.toNat_ofNat, Nat.mod_eq_of_lt (a := n) (by omega), Nat.mod_eq_of_lt h]

theorem count_blanks (l : AsmbLexer) : l.blanks.count '\n' = 0 := by
  rw [List.count_eq_zero]
  intro h
  have := List.mem_takeWhile_imp h
  exact absurd this (by decide)

/-- The offsets of a call lie in the source. -/
theorem take_stop (l : AsmbLexer) (h : l.cursor.end_ ≤ l.cursor.data.length) :
    l.cursor.end_ + l.blanks.length + l.taken.length ≤ l.cursor.data.length ∧
    l.cursor.data.take (l.cursor.end_ + l.blanks.length + l.taken.length) =
      l.cursor.data.take l.cursor.end_ ++ l.blanks ++ l.taken := by
  obtain ⟨behind, hrest⟩ := l.rest_split
  have hdata : l.cursor.data = l.cursor.data.take l.cursor.end_ ++ (l.blanks ++ (l.taken ++ behind)) := by
    rw [← hrest, SeekableData.rest, List.take_append_drop]
  have hlen : (l.cursor.data.take l.cursor.end_).length = l.cursor.end_ := List.length_take_of_le h
  have htotal := congrArg List.length hdata
  simp only [List.length_append, hlen] at htotal
  refine ⟨by omega, ?_⟩
  conv_lhs => rw [hdata]
  have hprefix : (l.cursor.data.take l.cursor.end_ ++ l.blanks ++ l.taken).length =
      l.cursor.end_ + l.blanks.length + l.taken.length := by
    rw [List.length_append, List.length_append, hlen]
  rw [← List.append_assoc, ← List.append_assoc, ← hprefix, List.take_left]

theorem slice_taken (l : AsmbLexer) :
    (l.cursor.data.drop (l.cursor.end_ + l.blanks.length)).take l.taken.length = l.taken := by
  obtain ⟨behind, hrest⟩ := l.rest_split
  rw [← List.drop_drop]
  change ((l.cursor.rest).drop _).take _ = _
  rw [hrest, List.drop_left, List.take_left]

theorem Placed.step (h : l.Placed) (hfits : l.Fits) (hstep : l.Step t l') : l'.Placed := by
  obtain ⟨base, hbase, hrecorded, hfresh⟩ := h.record
  obtain ⟨hbound, htake⟩ := l.take_stop h.bound
  have hcount : (l'.cursor.data.take l'.cursor.end_).count '\n' = l.cursor.loc.row.toNat + l.taken.count '\n' := by
    rw [hstep.data, hstep.stop, htake, List.count_append, List.count_append, count_blanks, h.row, Nat.add_zero]
  have hend : l'.cursor.end_ ≤ l'.cursor.data.length := by rw [hstep.data, hstep.stop]; exact hbound
  by_cases hn : l.taken = ['\n']
  · obtain ⟨hloc, -⟩ := hstep.newline hn
    have hrow : (l.cursor.loc.row + 1).toNat = l.cursor.loc.row.toNat + 1 := by
      rw [BitVec.toNat_add]
      exact Nat.mod_eq_of_lt (hfits.row hn)
    have hlt : l.cursor.loc.row < l.cursor.loc.row + 1 := by
      rw [BitVec.lt_def, hrow]
      omega
    refine ⟨hend, ?_, ⟨l'.cursor.end_, ?_, .inr ⟨?_, ?_⟩⟩, fun r hr => ?_⟩
    · rw [hcount, hloc, hrow, hn]
      rfl
    · rw [hloc]
      rfl
    · rw [hstep.rows, hloc]
      exact hfresh _ hlt
    · rw [hloc]
    · rw [hloc] at hr
      rw [hstep.rows]
      exact hfresh r (BitVec.lt_trans hlt hr)
  · obtain ⟨hloc, -⟩ := hstep.inside hn
    have hcolumn := @toNat_shift l.cursor.loc (l.blanks.length + l.taken.length) (by
      have := hfits.column
      omega)
    refine ⟨hend, ?_, ⟨base, ?_, .inl ?_⟩, fun r hr => ?_⟩
    · rw [hcount, hloc, List.count_eq_zero.mpr (fun hmem => hn (hfits.newline hmem))]
      rfl
    · rw [hloc, hcolumn, hstep.stop]
      omega
    · rw [hstep.rows, hloc]
      exact hrecorded
    · rw [hloc] at hr
      rw [hstep.rows]
      exact hfresh r hr

/-- The location of a token gives its characters back, as long as its rows are known. -/
theorem view_step {late : AsmbLexer} (h : l.Placed) (hfits : l.Fits) (hstep : l.Step t l') (hlate : l'.Extends late)
    (hnext : l.taken = ['\n'] → late.rowToStreampos (l.cursor.loc.row + 1) = some l'.cursor.end_) :
    late.view t.loc = some l.taken := by
  obtain ⟨base, hbase, hrecorded, -⟩ := h.record
  obtain ⟨hbound, htake⟩ := l.take_stop h.bound
  have hrow : late.rowToStreampos l.cursor.loc.row = some base := hlate.rows _ _ (by rw [hstep.rows]; exact hrecorded)
  have hcolumn := hfits.column
  have hview : ∀ start stop, start ≤ l.cursor.data.length →
      late.cursor.viewBetween start stop = some ((l.cursor.data.drop start).take (stop - start)) := by
    intro start stop hle
    rw [SeekableData.viewBetween, hlate.data, hstep.data, if_pos hle]
  have hstart := @toNat_shift l.cursor.loc l.blanks.length (by omega)
  have hlower : base + (l.cursor.loc.column.toNat + l.blanks.length) = l.cursor.end_ + l.blanks.length := by omega
  by_cases hn : l.taken = ['\n']
  · obtain ⟨hloc, ht⟩ := hstep.newline hn
    rw [view, ht, hloc]
    simp only [Location.shift, hrow, hnext hn]
    change late.cursor.viewBetween (base + (l.cursor.loc.shift l.blanks.length).column.toNat) (l'.cursor.end_ + 0) = _
    rw [hstart, hlower, hview _ _ (by omega), hstep.stop, Nat.add_zero, Nat.add_sub_cancel_left, slice_taken l]
  · obtain ⟨hloc, ht | ⟨hempty, k, hk, ht⟩⟩ := hstep.inside hn
    · have hstop := @toNat_shift l.cursor.loc (l.blanks.length + l.taken.length) (by omega)
      rw [view, ht, hloc]
      simp only [Location.shift, hrow]
      change late.cursor.viewBetween (base + (l.cursor.loc.shift l.blanks.length).column.toNat)
        (base + (l.cursor.loc.shift (l.blanks.length + l.taken.length)).column.toNat) = _
      have hupper : base + (l.cursor.loc.column.toNat + (l.blanks.length + l.taken.length)) =
          l.cursor.end_ + l.blanks.length + l.taken.length := by omega
      rw [hstart, hstop, hlower, hupper, hview _ _ (by omega), Nat.add_sub_cancel_left, slice_taken l]
    · have hk' := @toNat_shift l.cursor.loc k (by omega)
      rw [view, ht]
      simp only [Location.shift, hrow]
      change late.cursor.viewBetween (base + (l.cursor.loc.shift k).column.toNat)
        (base + (l.cursor.loc.shift k).column.toNat) = _
      rw [hk', hview _ _ (by omega), Nat.sub_self, hempty, List.take_zero]

end AsmbLexer

/-! ## Runs -/

/-- Locations are ordered as they are read. -/
def Location.Le (a b : Location) : Prop := a.row < b.row ∨ a.row = b.row ∧ a.column ≤ b.column

instance (a b : Location) : Decidable (a.Le b) := inferInstanceAs (Decidable (_ ∨ _))

theorem Location.Le.refl (a : Location) : a.Le a := .inr ⟨rfl, BitVec.le_refl _⟩

theorem Location.Le.trans {a b c : Location} (h : a.Le b) (h' : b.Le c) : a.Le c := by
  rcases h with h | ⟨hr, hc⟩ <;> rcases h' with h' | ⟨hr', hc'⟩
  · exact .inl (BitVec.lt_trans h h')
  · exact .inl (hr' ▸ h)
  · exact .inl (hr ▸ h')
  · exact .inr ⟨hr.trans hr', BitVec.le_trans hc hc'⟩

theorem Location.le_shift {loc : Location} {m n : Nat} (hle : m ≤ n) (h : loc.column.toNat + n < 2 ^ 16) :
    (loc.shift m).Le (loc.shift n) := by
  refine .inr ⟨rfl, ?_⟩
  rw [BitVec.le_def, AsmbLexer.toNat_shift (by omega), AsmbLexer.toNat_shift h]
  omega

/-- A token that was yielded, with the offsets of the call and of its characters. -/
structure Yield where
  token : Token
  before : Nat
  start : Nat
  stop : Nat
  taken : Text

namespace AsmbLexer

def yield (l : AsmbLexer) : Yield :=
  ⟨l.nextToken.1, l.cursor.end_, l.cursor.end_ + l.blanks.length, l.nextToken.2.cursor.end_, l.taken⟩

theorem yield_token (l : AsmbLexer) : l.yield.token = l.nextToken.1 := by rw [yield]

theorem yield_before (l : AsmbLexer) : l.yield.before = l.cursor.end_ := by rw [yield]

theorem yield_stop (l : AsmbLexer) : l.yield.stop = l.nextToken.2.cursor.end_ := by rw [yield]

/-- So many calls in a row. -/
def yields : Nat → AsmbLexer → List Yield × AsmbLexer
  | 0, l => ([], l)
  | n + 1, l => (l.yield :: (yields n l.nextToken.2).1, (yields n l.nextToken.2).2)

/-- What a token's location and offsets say about a source. -/
structure Exact (data : Text) (y : Yield) : Prop where
  slice : (data.drop y.start).take (y.stop - y.start) = y.taken
  blanks : ∀ c ∈ (data.drop y.before).take (y.start - y.before), isSpace c = true ∧ c ≠ '\n'
  row : y.token.loc.lower.row.toNat = (data.take y.start).count '\n'
  ordered : y.token.loc.lower.Le y.token.loc.upper

variable {l : AsmbLexer}

theorem location_bounds (hfits : l.Fits) :
    l.cursor.loc.Le l.nextToken.1.loc.lower ∧ l.nextToken.1.loc.lower.Le l.nextToken.1.loc.upper ∧
      l.nextToken.1.loc.upper.Le l.nextToken.2.cursor.loc := by
  have hstep := l.nextToken_step
  have hcolumn := hfits.column
  have hzero : ∀ n, l.cursor.loc.column.toNat + n < 2 ^ 16 → l.cursor.loc.Le (l.cursor.loc.shift n) := fun n hn => by
    have := Location.le_shift (Nat.zero_le n) hn
    rwa [Location.shift_zero] at this
  by_cases hn : l.taken = ['\n']
  · obtain ⟨hloc, ht⟩ := hstep.newline hn
    rw [ht]
    refine ⟨hzero _ (by omega), .inl ?_, .refl _⟩
    rw [hloc, Location.shift, BitVec.lt_def, BitVec.toNat_add]
    have := hfits.row hn
    change l.cursor.loc.row.toNat < (l.cursor.loc.row.toNat + 1) % 2 ^ 16
    omega
  · obtain ⟨hloc, ht | ⟨-, k, hk, ht⟩⟩ := hstep.inside hn
    · rw [ht, hloc]
      exact ⟨hzero _ (by omega), Location.le_shift (by omega) (by omega), .refl _⟩
    · rw [ht, hloc]
      exact ⟨hzero _ (by omega), .refl _, Location.le_shift (by omega) (by omega)⟩

theorem yield_exact (h : l.Placed) (hfits : l.Fits) : Exact l.cursor.data l.yield := by
  have hstep := l.nextToken_step
  obtain ⟨-, hordered, -⟩ := location_bounds hfits
  refine ⟨?_, fun c hc => ?_, ?_, hordered⟩
  · change (l.cursor.data.drop (l.cursor.end_ + l.blanks.length)).take
      (l.nextToken.2.cursor.end_ - (l.cursor.end_ + l.blanks.length)) = l.taken
    rw [hstep.stop, Nat.add_sub_cancel_left, slice_taken]
  · obtain ⟨behind, hrest⟩ := l.rest_split
    change c ∈ l.cursor.rest.take (l.cursor.end_ + l.blanks.length - l.cursor.end_) at hc
    rw [Nat.add_sub_cancel_left, hrest, List.take_left] at hc
    have := List.mem_takeWhile_imp hc
    simpa [isBlank] using this
  · obtain ⟨behind, hrest⟩ := l.rest_split
    have hrow : l.nextToken.1.loc.lower.row = l.cursor.loc.row := by
      by_cases hn : l.taken = ['\n']
      · rw [(hstep.newline hn).2]
        rfl
      · rcases (hstep.inside hn).2 with ht | ⟨-, k, -, ht⟩ <;> rw [ht] <;> rfl
    have hblanks : (l.cursor.data.drop l.cursor.end_).take l.blanks.length = l.blanks := by
      change l.cursor.rest.take _ = _
      rw [hrest, List.take_left]
    change l.nextToken.1.loc.lower.row.toNat = (l.cursor.data.take (l.cursor.end_ + l.blanks.length)).count '\n'
    rw [hrow, List.take_add, hblanks, List.count_append, count_blanks, h.row, Nat.add_zero]

/-- A row that a line break ends in is known to the call after it. -/
theorem view_yield {late : AsmbLexer} (h : l.Placed) (hfits : l.Fits) (hlate : l.nextToken.2.Extends late)
    (hnext : l.taken ≠ ['\n'] ∨ l.nextToken.2.nextToken.2.Extends late) :
    late.view l.yield.token.loc = some l.taken := by
  have hstep := l.nextToken_step
  refine view_step h hfits hstep hlate fun hn => ?_
  obtain ⟨hloc, -⟩ := hstep.newline hn
  obtain ⟨base, hbase, hrecorded, -⟩ := (h.step hfits hstep).record
  rw [hloc] at hbase hrecorded
  have hrows := l.nextToken.2.nextToken_step.rows
  rw [(hnext.resolve_left (· hn)).rows _ base (by rw [hrows]; exact hrecorded)]
  exact congrArg some hbase

variable (n : Nat)

theorem extends_yields (l : AsmbLexer) : l.Extends (yields n l).2 := by
  induction n generalizing l with
  | zero => exact .refl l
  | succ n ih => exact l.extends_nextToken.trans (ih l.nextToken.2)

theorem extends_next_yields (l : AsmbLexer) : l.nextToken.2.Extends (yields n l).2.nextToken.2 := by
  cases n with
  | zero => exact .refl _
  | succ n => exact (extends_yields n l.nextToken.2).trans (extends_nextToken _)

/-- A run of the lexer from any place. -/
theorem yields_exact (h : l.Placed) (hfits : ∀ k < n, (yields k l).2.Fits) :
    (yields n l).1.IsChain (fun y y' => y'.before = y.stop ∧ y.token.loc.upper.Le y'.token.loc.lower) ∧
    ∀ y ∈ (yields n l).1, Exact l.cursor.data y ∧
      (y.taken ≠ ['\n'] → (yields n l).2.view y.token.loc = some y.taken) ∧
      (yields n l).2.nextToken.2.view y.token.loc = some y.taken := by
  induction n generalizing l with
  | zero => exact ⟨.nil, fun y hy => nomatch hy⟩
  | succ n ih =>
    have hfirst : l.Fits := hfits 0 (Nat.succ_pos n)
    have hstep := l.nextToken_step
    obtain ⟨hchain, hrest⟩ := ih (h.step hfirst hstep) fun k hk => hfits (k + 1) (Nat.succ_lt_succ hk)
    have hextends := extends_yields n l.nextToken.2
    rw [hstep.data] at hrest
    have hexact := yield_exact h hfirst
    have hview := fun hn => view_yield h hfirst hextends (.inl hn)
    have hlater := view_yield h hfirst (hextends.trans (extends_nextToken _)) (.inr (extends_next_yields n l.nextToken.2))
    rw [yields]
    refine ⟨?_, List.forall_mem_cons.mpr ⟨⟨hexact, hview, hlater⟩, hrest⟩⟩
    cases n with
    | zero => exact .singleton _
    | succ n =>
      have hsecond : l.nextToken.2.Fits := hfits 1 (by omega)
      have hnext : l.nextToken.2.yield.before = l.yield.stop ∧
          l.yield.token.loc.upper.Le l.nextToken.2.yield.token.loc.lower := by
        rw [yield_before, yield_stop, yield_token, yield_token]
        exact ⟨rfl, (location_bounds hfirst).2.2.trans (location_bounds hsecond).1⟩
      rw [yields] at hchain ⊢
      exact List.isChain_cons_cons.mpr ⟨hnext, hchain⟩

/-- The first tokens of a source are where their locations say: in order and apart, with nothing but white space between
them, in the row that line breaks put them in; and each is what the lexer shows there, a line break once the token
after it is asked for. -/
def Located (opts : AsmbOptions) (data : Text) (n : Nat) : Prop :=
  (yields n (ofText opts data)).1.IsChain
    (fun y y' => y'.before = y.stop ∧ y.token.loc.upper.Le y'.token.loc.lower) ∧
  ∀ y ∈ (yields n (ofText opts data)).1, Exact data y ∧
    (y.taken ≠ ['\n'] → (yields n (ofText opts data)).2.view y.token.loc = some y.taken) ∧
    (yields n (ofText opts data)).2.nextToken.2.view y.token.loc = some y.taken

/-- Tokens are located in every run whose calls stay within 16 bits and take no line break but as a token of its own. -/
theorem token_locations (opts : AsmbOptions) (data : Text) (n : Nat)
    (hfits : ∀ k < n, (yields k (ofText opts data)).2.Fits) : Located opts data n :=
  yields_exact n ⟨Nat.zero_le _, rfl, ⟨0, rfl, .inr ⟨rfl, rfl⟩⟩, fun _ _ => rfl⟩ hfits

instance (l : AsmbLexer) : Decidable l.Fits :=
  decidable_of_iff (l.cursor.loc.column.toNat + l.blanks.length + l.taken.length < 2 ^ 16 ∧
      (l.taken = ['\n'] → l.cursor.loc.row.toNat + 1 < 2 ^ 16) ∧ ('\n' ∈ l.taken → l.taken = ['\n']))
    ⟨fun h => ⟨h.1, h.2.1, h.2.2⟩, fun h => ⟨h.column, h.row, h.newline⟩⟩

/-- A symbol, a character, a carriage return, a line break and a comment. -/
theorem token_locations_two_rows :
    Located PepLexer.options ['a', ':', ' ', '\'', 'b', '\'', '\r', '\n', '\t', ';', 'c'] 4 :=
  token_locations _ _ 4 (by decide +kernel)

/-- A literal with a line break, and an identifier in the row after it. -/
def brokenLiteral : Text := ['\'', '\n', '\'', ' ', 'A']

/-- A row in which a literal ends is not counted. -/
theorem not_token_locations : ¬ ∀ (opts : AsmbOptions) (data : Text) (n : Nat), Located opts data n := by
  intro h
  have hbad : ∃ y ∈ (yields 2 (ofText PepLexer.options brokenLiteral)).1,
      y.token.loc.lower.row.toNat ≠ (brokenLiteral.take y.start).count '\n' := by decide +kernel
  obtain ⟨y, hy, hrow⟩ := hbad
  exact hrow ((h PepLexer.options brokenLiteral 2).2 y hy).1.row

end AsmbLexer

end Pepp.Tc
