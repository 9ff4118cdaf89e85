import Pepp.Microcode.Rebuilding

/-!
# Formatting a microprogram and parsing it again

A program without errors is formatted, and its text is parsed. The lines come
back in turn, each as it was if it is legible. A line that is not readable is
an error; a test that is not legible comes back as another test.
-/

namespace Pepp.Ucode

/-! ## Programs without errors -/

theorem report_errors {S : Type} (a : Assembly S) (row : Nat) (message : String) :
    (a.report row message).result.errors ≠ [] := by
  simp [Assembly.report]

variable {S : Type} [Uarch S]

variable {a a' : Assembly S}

theorem parseLine_errors {l l' : MicroLexer} (h : parseLine a l = .ok (a', l')) (herrors : a'.result.errors = []) :
    ∃ row line, nextLine l = (.ok line, l') ∧ a' = a.add row line := by
  rw [parseLine] at h
  split at h
  · next line l'' hnext =>
    obtain ⟨rfl, rfl⟩ := Prod.mk.inj (Except.ok.inj h)
    exact ⟨_, line, hnext, rfl⟩
  · next message l'' hnext =>
    obtain ⟨rfl, -⟩ := Prod.mk.inj (Except.ok.inj h)
    exact absurd herrors (report_errors _ _ _)
  · exact absurd h nofun

/-- The lines that are read in turn, when all are complete. -/
def readLines : Nat → MicroLexer → List (Line S)
  | 0, _ => []
  | turns + 1, l =>
    if l.rest = [] then []
    else match nextLine l with
      | (.ok line, l') => line :: readLines turns l'
      | (.error _, l') => readLines turns l'.synchronize

def sourceLines (source : Text) : List (Line S) := readLines (source.length + 1) ⟨0, source⟩

theorem parseLoop_succ (turns : Nat) (a : Assembly S) (l : MicroLexer) :
    parseLoop (turns + 1) a l = if l.rest = [] then .ok a else
      match parseLine a l with
      | .ok (a', l') => parseLoop turns a' l'
      | .error e => .error e := by
  rw [parseLoop]
  split
  · rfl
  · cases parseLine a l <;> rfl

/-- Errors that have been found stay. -/
theorem parseLoop_errors {turns : Nat} {l : MicroLexer} (h : parseLoop turns a l = .ok a')
    (herrors : a'.result.errors = []) : a.result.errors = [] := by
  induction turns generalizing a l with
  | zero => exact absurd h nofun
  | succ turns ih =>
    rw [parseLoop_succ] at h
    split at h
    · rw [Except.ok.inj h]
      exact herrors
    · split at h
      · next a'' l'' hline =>
        obtain ⟨row, line, -, rfl⟩ := parseLine_errors hline (ih h)
        exact (add_errors (ih h)).1
      · exact absurd h nofun

/-- A program without errors is made of lines that the parser completes. -/
theorem parseLoop_lines [Uarch.Lawful S] {turns : Nat} {l : MicroLexer} (h : parseLoop turns a l = .ok a')
    (herrors : a'.result.errors = []) :
    ∃ lines : List (Nat × Line S), a' = a.addAll lines ∧ lines.map Prod.snd = readLines turns l ∧
      ∀ line ∈ lines, line.2.Kept := by
  induction turns generalizing a l with
  | zero => exact absurd h nofun
  | succ turns ih =>
    rw [parseLoop_succ] at h
    rw [readLines]
    split at h
    · next hrest =>
      exact ⟨[], (Except.ok.inj h).symm, (if_pos hrest).symm, fun line hline => absurd hline List.not_mem_nil⟩
    · next hrest =>
      split at h
      · next a'' l'' hline =>
        obtain ⟨row, line, hnext, rfl⟩ := parseLine_errors hline (parseLoop_errors h herrors)
        obtain ⟨lines, hlines, hread, hkept⟩ := ih h
        refine ⟨(row, line) :: lines, hlines, ?_, List.forall_mem_cons.mpr ⟨?_, hkept⟩⟩
        · rw [if_neg hrest, hnext, List.map_cons, hread]
        · have hspec := (nextLine_spec (S := S) l).2
          rwa [hnext] at hspec
      · exact absurd h nofun

/-! ## Symbols of signals -/

section Resolving

variable {symbols : List (Text × U16)} {line : Line S}

theorem resolveLine_plain (h : ∀ s, line.deferredValues s = none) : resolveLine symbols line = ([], line) := by
  rw [resolveLine]
  induction (Uarch.signals : List S) with
  | nil => rfl
  | cons s signals ih => rwa [List.foldl_cons, resolveSignal, h s]

/-- Giving a line the values of its symbols leaves its signals on it. -/
theorem resolveLine_spec [Uarch.Lawful S] (hcontrols : line.controls.Sound)
    (hdeferred : ∀ s, line.deferredValues s ≠ none → line.controls.enabled s = true ∧ Uarch.isClock s = false) :
    ∃ c : CodeWithEnables S, (resolveLine symbols line).2 = { line with controls := c } ∧ c.Sound ∧
      c.enabled = line.controls.enabled := by
  rw [resolveLine]
  suffices h : ∀ (signals : List S) (state : List (Nat × String) × Line S),
      (∃ c : CodeWithEnables S, state.2 = { line with controls := c } ∧ c.Sound ∧ c.enabled = line.controls.enabled) →
      ∃ c : CodeWithEnables S, (signals.foldl (resolveSignal symbols) state).2 = { line with controls := c } ∧ c.Sound ∧
        c.enabled = line.controls.enabled from h _ _ ⟨_, rfl, hcontrols, rfl⟩
  intro signals
  induction signals with
  | nil => exact fun _ h => h
  | cons s signals ih =>
    rintro ⟨errors, line'⟩ ⟨c, rfl, hc, hon⟩
    refine ih _ ?_
    rw [resolveSignal]
    split
    · exact ⟨c, rfl, hc, hon⟩
    · next symbol hsymbol =>
      obtain ⟨hs, hclock⟩ := hdeferred s (by rw [show line.deferredValues s = some symbol from hsymbol]; exact nofun)
      split
      · next address _ =>
        have hvalue : ∀ {P : Prop}, Uarch.isClock s = true → P := fun h => absurd (hclock.symm.trans h) Bool.false_ne_true
        refine ⟨_, rfl, hc.set fun h => hvalue h, ?_⟩
        funext s'
        rw [CodeWithEnables.enabled_set fun h => hvalue h, hon]
        split
        · next heq => rw [heq, hs]
        · rfl
      · exact ⟨c, rfl, hc, hon⟩

end Resolving

/-! ## Lines that are read again -/

/-- What a line keeps when it is written and read. -/
def Line.back (line : Line S) : Line S :=
  { line with
    deferredValues := fun _ => none
    comment := if line.type = .Code then line.comment else none
    tests := line.tests.map Test.reread }

/-- The line as it is read, before it has a place. -/
def Line.reread (line : Line S) : Line S := { line.back with address := -1 }

theorem row_ne_nil {line : Line S} {rest : Text} (style : FormatStyle) : line.row style ++ rest ≠ [] := by
  simp [Line.row]

section Reading

variable [Uarch.Layout S] {line : Line S} {row : Nat} {rest : Text}

/-- Reading the text of a line gives a line. -/
def Line.Readable (line : Line S) : Prop := if line.type = .Code then Accepted line.controls else line.tests ≠ []

variable [Uarch.Lawful S]

theorem nextLine_readable (h : line.Fine) (hread : line.Readable) (style : FormatStyle) :
    nextLine ⟨row, line.row style ++ rest⟩ = (.ok line.reread, ⟨row + 1, rest⟩) := by
  rw [Line.Readable] at hread
  split at hread
  · next htype =>
    have hnext := @nextLine_code _ _ _ _ row rest _ h htype style
    obtain ⟨place, hplace⟩ := Option.isSome_iff_exists.mp hread
    rw [hplace] at hnext
    have htests := h.code htype
    rw [hnext, Line.reread, Line.back, if_pos htype, htests]
    cases line
    simp_all [Line.bare]
  · next htype =>
    have hnext := @nextLine_test _ _ row rest _ _ h htype style
    rw [if_neg hread] at hnext
    rw [hnext, Line.reread, Line.back, if_neg htype]
    rfl

theorem nextLine_unreadable (h : line.Fine) (hread : ¬line.Readable) (style : FormatStyle) :
    ∃ message l, nextLine (S := S) ⟨row, line.row style ++ rest⟩ = (.error (.error message), l) := by
  rw [Line.Readable] at hread
  split at hread
  · next htype =>
    have hnext := @nextLine_code _ _ _ _ row rest _ h htype style
    rw [Option.not_isSome_iff_eq_none.mp hread] at hnext
    exact hnext
  · next htype =>
    have hnext := @nextLine_test _ _ row rest _ _ h htype style
    rwa [if_pos (not_not.mp hread)] at hnext

/-- Readable lines are read one after the other. -/
theorem parseLoop_rows {lines : List (Line S)} {style : FormatStyle} (hfine : ∀ line ∈ lines, line.Fine)
    (hread : ∀ line ∈ lines, line.Readable) {turns : Nat} (hturns : lines.length < turns) (a : Assembly S) :
    ∃ numbered : List (Nat × Line S), parseLoop turns a ⟨row, lines.flatMap (Line.row style)⟩ = .ok (a.addAll numbered) ∧
      numbered.map Prod.snd = lines.map Line.reread := by
  induction lines generalizing turns a row with
  | nil =>
    obtain ⟨turns, rfl⟩ : ∃ n, turns = n + 1 := ⟨turns - 1, by omega⟩
    exact ⟨[], rfl, rfl⟩
  | cons line lines ih =>
    obtain ⟨turns, rfl⟩ : ∃ n, turns = n + 1 := ⟨turns - 1, by omega⟩
    obtain ⟨hline, hfine⟩ := List.forall_mem_cons.mp hfine
    obtain ⟨hlineRead, hread⟩ := List.forall_mem_cons.mp hread
    have hnext := @nextLine_readable _ _ _ _ row (lines.flatMap (Line.row style)) _ hline hlineRead style
    obtain ⟨numbered, hloop, hnumbered⟩ := @ih (row + 1) hfine hread turns (by simpa using hturns)
      (a.add (row + 1) line.reread)
    refine ⟨(row + 1, line.reread) :: numbered, ?_, ?_⟩
    · rw [List.flatMap_cons, parseLoop_succ, if_neg (row_ne_nil style), parseLine, hnext]
      exact hloop
    · rw [List.map_cons, List.map_cons, hnumbered]

/-- One line that is not readable is enough for an error. -/
theorem parseLoop_unreadable {lines : List (Line S)} {style : FormatStyle} (hfine : ∀ line ∈ lines, line.Fine)
    (hread : ¬∀ line ∈ lines, line.Readable) {turns : Nat} {a a' : Assembly S}
    (h : parseLoop turns a ⟨row, lines.flatMap (Line.row style)⟩ = .ok a') : a'.result.errors ≠ [] := by
  induction lines generalizing turns a row with
  | nil => exact absurd (fun line hline => absurd hline List.not_mem_nil) hread
  | cons line lines ih =>
    intro herrors
    obtain ⟨hline, hfine⟩ := List.forall_mem_cons.mp hfine
    cases turns with
    | zero => exact absurd h nofun
    | succ turns =>
      rw [List.flatMap_cons, parseLoop_succ, if_neg (row_ne_nil style), parseLine] at h
      by_cases hlineRead : line.Readable
      · rw [nextLine_readable hline hlineRead style] at h
        exact ih hfine (fun hall => hread (List.forall_mem_cons.mpr ⟨hlineRead, hall⟩)) h herrors
      · obtain ⟨message, l, hnext⟩ := @nextLine_unreadable _ _ _ _ row (lines.flatMap (Line.row style)) _ hline
          hlineRead style
        rw [hnext] at h
        exact report_errors _ _ _ (parseLoop_errors h herrors)

end Reading

/-! ## Programs -/

theorem length_le_rows (lines : List (Line S)) (style : FormatStyle) :
    lines.length ≤ (lines.flatMap (Line.row style)).length := by
  induction lines with
  | nil => exact Nat.le_refl 0
  | cons line lines ih =>
    have hrow : 0 < (line.row style).length := by simp [Line.row]
    rw [List.flatMap_cons, List.length_append, List.length_cons]
    omega

/-- What a line says: all of it but its comment. -/
def Line.meaning (line : Line S) : Line S := { line with comment := none, deferredValues := fun _ => none }

/-- The text of a program is parsed without errors, to the same symbols and to lines of the same meaning. -/
def ParseResult.RoundTrips (r : ParseResult S) (style : FormatStyle) : Prop :=
  ∃ again : ParseResult S, parse (r.format style) = .ok again ∧ again.errors = [] ∧ again.symbols = r.symbols ∧
    again.program.map Line.meaning = r.program.map Line.meaning

theorem meaning_back {line : Line S} (h : line.Fine) :
    line.back.meaning = line.meaning ↔ ∀ t ∈ line.tests, t.Legible := by
  have htests : line.back.meaning = line.meaning ↔ line.tests.map Test.reread = line.tests :=
    ⟨congrArg Line.tests, fun heq => by rw [Line.meaning, Line.back, heq]; rfl⟩
  have hmap : line.tests.map Test.reread = line.tests ↔ ∀ t ∈ line.tests, t.reread = t := by
    conv_lhs => rw [← List.map_id line.tests, List.map_map]
    exact List.map_inj_left
  rw [htests, hmap]
  exact forall₂_congr fun t ht => Test.reread_eq_iff (h.tests t ht)

section Programs

variable [Uarch.Lawful S] {line : Line S} {symbols : List (Text × U16)} {n : Nat}

/-- A line of a program, once its symbols are known. -/
def Line.resolved (line : Line S) (symbols : List (Text × U16)) : Line S := (resolveLine symbols line).2

theorem any_congr {c c' : CodeWithEnables S} (h : c'.enabled = c.enabled) : c'.any = c.any := by
  rw [Bool.eq_iff_iff, CodeWithEnables.any_iff, CodeWithEnables.any_iff, h]

theorem resolved_numbered (h : line.Kept) (symbols : List (Text × U16)) (n : Nat) :
    ∃ c : CodeWithEnables S, (line.numbered n).resolved symbols = { line.numbered n with controls := c } ∧ c.Sound ∧
      c.enabled = line.controls.enabled := by
  rw [Line.numbered]
  split
  · exact resolveLine_spec h.1.controls h.1.deferred
  · exact resolveLine_spec h.1.controls h.1.deferred

theorem fine_resolved (h : line.Kept) : ((line.numbered n).resolved symbols).Fine := by
  obtain ⟨c, hline, hc, hon⟩ := resolved_numbered h symbols n
  have hany := any_congr hon
  have hcode : line.type ≠ .Code → c = {} := by
    intro htype
    have hcontrols := (h.1.test htype).1
    rw [hcontrols] at hon
    have hcodes : c.code = fun _ => 0 := funext fun s => hc.off s (congrFun hon s)
    cases c
    simp_all [CodeWithEnables.enabled, funext_iff]
  rw [hline, Line.numbered]
  split <;>
    exact ⟨hc, h.1.comment, h.1.symbolDecl, fun hs => hany.trans (h.2 hs), h.1.tests, h.1.code,
      fun htype => ⟨hcode htype, (h.1.test htype).2⟩⟩

theorem like_reread (h : line.Kept) : line.Like ((line.numbered n).resolved symbols).reread := by
  obtain ⟨c, hline, -, hon⟩ := resolved_numbered h symbols n
  have hany := any_congr hon
  rw [hline, Line.numbered]
  split
  · exact ⟨rfl, hany, congrFun hon _, congrFun hon _⟩
  · exact ⟨rfl, hany, congrFun hon _, congrFun hon _⟩

theorem numbered_reread (h : line.Kept) : ((line.numbered n).resolved symbols).reread.numbered n =
    ((line.numbered n).resolved symbols).back := by
  obtain ⟨c, hline, -, -⟩ := resolved_numbered h symbols n
  have hlike := @like_reread _ _ _ _ symbols n h
  cases hany : line.controls.any with
  | true =>
    have haddress : ((line.numbered n).resolved symbols).address = .ofNat 16 n := by
      rw [hline, Line.numbered_of_any hany]
    rw [Line.numbered_of_any (hlike.any.trans hany), ← haddress]
    rfl
  | false =>
    have haddress : ((line.numbered n).resolved symbols).address = -1 := by
      rw [hline, Line.numbered_of_not hany]
      exact h.1.address
    rw [Line.numbered_of_not (hlike.any.trans hany), Line.reread, ← haddress]
    rfl

variable {lines : List (Line S)} {r : ParseResult S} {source : Text}

/-- The lines that are read have the numbers of those that were written. -/
theorem placed_reread (h : ∀ line ∈ lines, line.Kept) :
    placed n ((placed n lines).map fun line => (line.resolved symbols).reread) =
      (placed n lines).map fun line => (line.resolved symbols).back := by
  induction lines generalizing n with
  | nil => rfl
  | cons line lines ih =>
    obtain ⟨hline, hlines⟩ := List.forall_mem_cons.mp h
    have hlike := @like_reread _ _ _ _ symbols n hline
    rw [placed, List.map_cons, placed, numbered_reread hline, hlike.any, ih hlines, List.map_cons]

theorem forall₂_reread (h : ∀ line ∈ lines, line.Kept) :
    List.Forall₂ Line.Like lines ((placed n lines).map fun line => (line.resolved symbols).reread) := by
  induction lines generalizing n with
  | nil => exact .nil
  | cons line lines ih =>
    obtain ⟨hline, hlines⟩ := List.forall_mem_cons.mp h
    exact .cons (like_reread hline) (ih hlines)

theorem fine_placed (h : ∀ line ∈ lines, line.Kept) : ∀ line ∈ placed n lines, (line.resolved symbols).Fine := by
  induction lines generalizing n with
  | nil => exact fun line hline => absurd hline List.not_mem_nil
  | cons line lines ih =>
    obtain ⟨hline, hlines⟩ := List.forall_mem_cons.mp h
    exact List.forall_mem_cons.mpr ⟨fine_resolved hline, ih hlines⟩

/-- What a program that parses without errors is made of. -/
theorem parse_ok (h : parse source = .ok r) (herrors : r.errors = []) :
    ∃ lines : List (Nat × Line S), lines.map Prod.snd = sourceLines source ∧ (∀ line ∈ lines, line.2.Kept) ∧
      (Assembly.addAll {} lines).result.errors = [] ∧
      (∀ line ∈ placed 0 (lines.map Prod.snd), (resolveLine r.symbols line).1 = []) ∧
      r.symbols = (Assembly.addAll {} lines).result.symbols ∧
      r.program = (placed 0 (lines.map Prod.snd)).map fun line => line.resolved r.symbols := by
  rw [parse] at h
  cases hloop : parseLoop (S := S) (source.length + 1) {} ⟨0, source⟩ with
  | error e =>
    rw [hloop] at h
    exact absurd h nofun
  | ok a =>
    rw [hloop] at h
    obtain rfl : a.result.resolve = r := Except.ok.inj h
    obtain ⟨herrors, hresolved⟩ := List.append_eq_nil_iff.mp herrors
    obtain ⟨lines, rfl, hread, hkept⟩ := parseLoop_lines hloop herrors
    have hprogram : (Assembly.addAll {} lines).result.program = placed 0 (lines.map Prod.snd) := addAll_program herrors
    refine ⟨lines, hread, hkept, herrors, ?_, rfl, ?_⟩
    · rw [hprogram] at hresolved
      exact List.flatMap_eq_nil_iff.mp hresolved
    · change List.map _ (Assembly.addAll {} lines).result.program = _
      rw [hprogram]
      rfl

theorem fine_program (h : parse source = .ok r) (herrors : r.errors = []) : ∀ line ∈ r.program, line.Fine := by
  obtain ⟨lines, -, hkept, -, -, -, hprogram⟩ := parse_ok h herrors
  rw [hprogram]
  refine List.forall_mem_map.mpr (fine_placed fun line hline => ?_)
  obtain ⟨pair, hpair, rfl⟩ := List.mem_map.mp hline
  exact hkept pair hpair

variable [Uarch.Layout S]

/-- The text of a program of readable lines is parsed to their counterparts. -/
theorem parse_format (h : parse source = .ok r) (herrors : r.errors = []) (hread : ∀ line ∈ r.program, line.Readable)
    (style : FormatStyle) : parse (r.format style) = .ok ⟨[], r.symbols, r.program.map Line.back⟩ := by
  obtain ⟨lines, -, hkept, hbuilt, -, hsymbols, hprogram⟩ := parse_ok h herrors
  have hraw : ∀ line ∈ lines.map Prod.snd, line.Kept := by
    intro line hline
    obtain ⟨pair, hpair, rfl⟩ := List.mem_map.mp hline
    exact hkept pair hpair
  have hfine := fine_program h herrors
  obtain ⟨numbered, hloop, hnumbered⟩ := @parseLoop_rows _ _ _ 0 _ _ style hfine hread _
    (Nat.lt_succ_of_le (length_le_rows r.program style)) {}
  have hlike : List.Forall₂ (fun line line' => line.2.Like line'.2) lines numbered := by
    have hmap := @forall₂_reread _ _ _ r.symbols 0 _ hraw
    have hreread : ((placed 0 (lines.map Prod.snd)).map fun line => (line.resolved r.symbols).reread) =
        numbered.map Prod.snd := by
      rw [hnumbered, hprogram, List.map_map]
      rfl
    rwa [hreread, List.forall₂_map_left_iff, List.forall₂_map_right_iff] at hmap
  have hsame : (Assembly.addAll {} numbered).result.errors = [] ∧
      (Assembly.addAll {} numbered).result.symbols = (Assembly.addAll {} lines).result.symbols :=
    addAll_like hlike (fun line hline => (hkept line hline).2) rfl rfl rfl hbuilt
  obtain ⟨herrors', hsymbols'⟩ := hsame
  have hprogram' : (Assembly.addAll {} numbered).result.program = r.program.map Line.back := by
    have hplaced := @placed_reread _ _ _ r.symbols 0 _ hraw
    rw [addAll_program herrors', hnumbered, hprogram, List.map_map, List.map_map]
    exact hplaced
  have hresolve : (Assembly.addAll {} numbered).result.resolve = ⟨[], r.symbols, r.program.map Line.back⟩ := by
    have hplain : ∀ line ∈ r.program.map Line.back, resolveLine r.symbols line = ([], line) := by
      intro line hline
      obtain ⟨line', -, rfl⟩ := List.mem_map.mp hline
      exact resolveLine_plain fun _ => rfl
    have hnone : (r.program.map Line.back).flatMap (fun line => (resolveLine r.symbols line).1) = [] :=
      List.flatMap_eq_nil_iff.mpr fun line hline => by rw [hplain line hline]
    have hsame : (r.program.map Line.back).map (fun line => (resolveLine r.symbols line).2) = r.program.map Line.back :=
      List.map_congr_left (g := id) (fun line hline => by rw [hplain line hline]; rfl) |>.trans (List.map_id _)
    rw [ParseResult.resolve, herrors', hsymbols', hprogram', ← hsymbols, hnone, hsame, List.nil_append]
  rw [parse]
  change (parseLoop ((r.program.flatMap (Line.row style)).length + 1) {} ⟨0, r.program.flatMap (Line.row style)⟩ >>= _) = _
  rw [hloop]
  exact congrArg Except.ok hresolve

/-- A program with a line that is not readable is not parsed without errors. -/
theorem parse_format_unreadable {r again : ParseResult S} (h : parse source = .ok r) (herrors : r.errors = [])
    (hread : ¬∀ line ∈ r.program, line.Readable) {style : FormatStyle} (hagain : parse (r.format style) = .ok again) :
    again.errors ≠ [] := by
  have hfine := fine_program h herrors
  rw [parse] at hagain
  cases hloop : parseLoop (S := S) ((r.format style).length + 1) {} ⟨0, r.format style⟩ with
  | error e =>
    rw [hloop] at hagain
    exact absurd hagain nofun
  | ok a =>
    rw [hloop] at hagain
    obtain rfl : a.result.resolve = again := Except.ok.inj hagain
    intro hnone
    exact parseLoop_unreadable hfine hread hloop (List.append_eq_nil_iff.mp hnone).1

/-- A line that comes back as it was. -/
def Line.Legible (line : Line S) : Prop := line.Readable ∧ ∀ t ∈ line.tests, t.Legible

theorem roundTrips_iff (h : parse source = .ok r) (herrors : r.errors = []) (style : FormatStyle) :
    r.RoundTrips style ↔ ∀ line ∈ r.program, line.Legible := by
  have hfine := fine_program h herrors
  by_cases hread : ∀ line ∈ r.program, line.Readable
  · have hparse := parse_format h herrors hread style
    have hlegible : (∀ line ∈ r.program, line.Legible) ↔ ∀ line ∈ r.program, line.back.meaning = line.meaning :=
      forall₂_congr fun line hline => (and_iff_right (hread line hline)).trans (meaning_back (hfine line hline)).symm
    have hmap : (r.program.map Line.back).map Line.meaning = r.program.map Line.meaning ↔
        ∀ line ∈ r.program, line.back.meaning = line.meaning := by
      rw [List.map_map]
      exact List.map_inj_left
    rw [hlegible, ← hmap]
    constructor
    · rintro ⟨again, hagain, -, -, hprogram⟩
      obtain rfl := Except.ok.inj (hparse.symm.trans hagain)
      exact hprogram
    · exact fun hprogram => ⟨_, hparse, rfl, rfl, hprogram⟩
  · refine iff_of_false ?_ fun hall => hread fun line hline => (hall line hline).1
    rintro ⟨again, hagain, hnone, -, -⟩
    exact parse_format_unreadable h herrors hread hagain hnone

end Programs

/-! ## The three architectures -/

inductive Bus where
  | OneByte
  | TwoByte
  | TwoByteControl
  deriving DecidableEq, Repr

abbrev Bus.Signals : Bus → Type
  | OneByte => Pep9ByteBus.Signals
  | TwoByte => Pep9WordBus.Signals
  | TwoByteControl => Pep9WordBusControl.Signals

instance : (bus : Bus) → Uarch bus.Signals
  | .OneByte => inferInstanceAs (Uarch Pep9ByteBus.Signals)
  | .TwoByte => inferInstanceAs (Uarch Pep9WordBus.Signals)
  | .TwoByteControl => inferInstanceAs (Uarch Pep9WordBusControl.Signals)

/-- The text of a control word is read again: only the control section puts `PreValid` where clocks may stand in its way. -/
def Bus.Writable : (bus : Bus) → CodeWithEnables bus.Signals → Prop
  | .OneByte, _ => True
  | .TwoByte, _ => True
  | .TwoByteControl, c => ¬Pep9WordBusControl.Clashes c

/-- A line of code whose signals can be read again, or a line of tests, not empty, that show all their digits. -/
def Bus.Legible (bus : Bus) (line : Line bus.Signals) : Prop :=
  (line.type = .Code → bus.Writable line.controls) ∧
    (line.type ≠ .Code → line.tests ≠ [] ∧ ∀ t ∈ line.tests, t.Legible)

theorem legible_iff {S : Type} [Uarch S] [Uarch.Layout S] {line : Line S} (h : line.Fine) {Writable : Prop}
    (hwritable : Accepted line.controls ↔ Writable) : line.Legible ↔
      (line.type = .Code → Writable) ∧ (line.type ≠ .Code → line.tests ≠ [] ∧ ∀ t ∈ line.tests, t.Legible) := by
  rw [Line.Legible, Line.Readable, hwritable]
  by_cases htype : line.type = .Code
  · have htests : ∀ t ∈ line.tests, t.Legible := by
      rw [h.code htype]
      exact fun t ht => absurd ht List.not_mem_nil
    rw [and_iff_left htests]
    simp [htype]
  · simp [htype]

/-- A program comes back from its text if and only if each of its lines is legible. -/
theorem roundTrips_iff_legible (bus : Bus) (style : FormatStyle) {source : Text} {r : ParseResult bus.Signals}
    (h : parse source = .ok r) (herrors : r.errors = []) :
    r.RoundTrips style ↔ ∀ line ∈ r.program, bus.Legible line := by
  cases bus with
  | OneByte =>
    have hfine := @fine_program Pep9ByteBus.Signals _ _ _ _ h herrors
    refine (@roundTrips_iff Pep9ByteBus.Signals _ _ _ _ _ h herrors style).trans (forall₂_congr fun line hline => ?_)
    exact legible_iff (hfine line hline) (iff_of_true (Pep9ByteBus.accepted _) trivial)
  | TwoByte =>
    have hfine := @fine_program Pep9WordBus.Signals _ _ _ _ h herrors
    refine (@roundTrips_iff Pep9WordBus.Signals _ _ _ _ _ h herrors style).trans (forall₂_congr fun line hline => ?_)
    exact legible_iff (hfine line hline) (iff_of_true (Pep9WordBus.accepted _) trivial)
  | TwoByteControl =>
    have hfine := @fine_program Pep9WordBusControl.Signals _ _ _ _ h herrors
    refine (@roundTrips_iff Pep9WordBusControl.Signals _ _ _ _ _ h herrors style).trans
      (forall₂_congr fun line hline => ?_)
    exact legible_iff (hfine line hline) (Pep9WordBusControl.accepted_iff _)

theorem roundTrips_iff_legible_branch : ∃ r : ParseResult (Bus.Signals .TwoByteControl),
    parse "MemRead; LoadCk\nUnitPost: Mem[0x0001]=0x0115\n".toList = .ok r ∧ r.errors = [] ∧
      (r.RoundTrips .SourceStyle ↔ ∀ line ∈ r.program, Bus.Legible .TwoByteControl line) := by
  have hok : (match parse (S := Bus.Signals .TwoByteControl) "MemRead; LoadCk\nUnitPost: Mem[0x0001]=0x0115\n".toList with
    | .ok r => r.errors.isEmpty
    | .error _ => false) = true := by decide +kernel
  split at hok
  · next r hparse =>
    have herrors : r.errors = [] := List.isEmpty_iff.mp hok
    exact ⟨r, hparse, herrors, roundTrips_iff_legible .TwoByteControl .SourceStyle hparse herrors⟩
  · exact absurd hok Bool.false_ne_true

/-- The zero digit of a low byte is not written. -/
theorem roundTrips_not_low_byte : ∃ r : ParseResult (Bus.Signals .OneByte),
    parse "UnitPre: Mem[0x0001]=0x0105\n".toList = .ok r ∧ r.errors = [] ∧ ¬r.RoundTrips .SourceStyle := by
  have hok : (match parse (S := Pep9ByteBus.Signals) "UnitPre: Mem[0x0001]=0x0105\n".toList with
    | .ok r => r.errors.isEmpty && r.program.any fun line => line.tests.any fun t => !decide t.Legible
    | .error _ => false) = true := by decide +kernel
  split at hok
  · next r hparse =>
    obtain ⟨herrors, hillegible⟩ := (Bool.and_eq_true _ _).mp hok
    have herrors : r.errors = [] := List.isEmpty_iff.mp herrors
    refine ⟨r, hparse, herrors, fun htrip => ?_⟩
    obtain ⟨line, hline, htests⟩ := List.any_eq_true.mp hillegible
    obtain ⟨t, ht, hnot⟩ := List.any_eq_true.mp htests
    have hlegible := (roundTrips_iff hparse herrors .SourceStyle).mp htrip line hline
    exact absurd (hlegible.2 t ht) (by simpa using hnot)
  · exact absurd hok Bool.false_ne_true

end Pepp.Ucode
