import Pepp.Symbol.SingleExport

/-!
# Names with many exports

Runs in which each table's export of the name is its last call on it. Pointers
lead from one global to an earlier one, so that every value comes to an end.
-/

namespace Pepp.Symbol

open Interleaving Entries

variable {T : Type} {h : Hierarchy T} {pointerSize : U16} {s s' : Entries T} {t u g : T} {e e' : Entry T}
  {done : T → List Operation} {op : Operation} {v : Value T}

/-- Values that lead through globals only, and to an end. -/
inductive Grounded (s : Entries T) : Value T → Prop where
  | empty (bytes : U8) : Grounded s (.empty bytes)
  | pointer {ptrSize : U16} {g : T} {e : Entry T} : s g = some e → e.binding = .Global → Grounded s e.value →
      Grounded s (.internalPointer ptrSize (some g))

theorem Grounded.terminates (hv : Grounded s v) : ∃ fuel bits, v.value s fuel = some bits := by
  induction hv with
  | empty bytes => exact ⟨1, _, rfl⟩
  | pointer hg _ _ ih =>
    obtain ⟨fuel, bits, hbits⟩ := ih
    refine ⟨fuel + 1, bits, ?_⟩
    rw [Value.value, hg]
    exact hbits

theorem Grounded.mono (hv : Grounded s v)
    (hkeep : ∀ g e, s g = some e → e.binding = .Global →
      ∃ e', s' g = some e' ∧ e'.binding = .Global ∧ e'.value = e.value) : Grounded s' v := by
  induction hv with
  | empty bytes => exact .empty bytes
  | pointer hg hglobal _ ih =>
    obtain ⟨e', he', hglobal', hvalue⟩ := hkeep _ _ hg hglobal
    exact .pointer he' hglobal' (by rw [hvalue]; exact ih)

/-- How a call of `t` that leaves it with the entry `e'` changes the entry of another table. -/
inductive Changed (pointerSize : U16) (t : T) (e' : Entry T) : Option (Entry T) → Option (Entry T) → Prop where
  | same {o : Option (Entry T)} : Changed pointerSize t e' o o
  | conflicting {e : Entry T} : e.binding = .Global → Changed pointerSize t e' (some e) (some e.conflicting)
  | imported {e : Entry T} : e.binding ≠ .Global → e'.binding = .Global →
      Changed pointerSize t e' (some e) (some ⟨e'.state, .Imported, .internalPointer pointerSize (some t)⟩)

theorem Changed.isSome {o o' : Option (Entry T)} (hc : Changed pointerSize t e' o o') : o'.isSome = o.isSome := by
  cases hc <;> rfl

/-- Globals elsewhere stay, with their values. -/
theorem Changed.global {o' : Option (Entry T)} (hc : Changed pointerSize t e' (some e) o') (hglobal : e.binding = .Global) :
    ∃ e'', o' = some e'' ∧ e''.binding = .Global ∧ e''.value = e.value ∧
      (e.state = .ExternalMultiple → e''.state = .ExternalMultiple) := by
  cases hc with
  | same => exact ⟨e, rfl, hglobal, rfl, id⟩
  | conflicting => exact ⟨_, rfl, hglobal, rfl, fun _ => rfl⟩
  | imported hnot => exact absurd hglobal hnot

/-- A call that keeps its own table's global keeps all values grounded. -/
theorem grounded_step (hold : ∀ u e, s u = some e → Grounded s e.value) (hself : s' t = some e')
    (hvalue : Grounded s e'.value) (hkeep : ∀ e, s t = some e → e.binding = .Global →
      e'.binding = .Global ∧ e'.value = e.value)
    (helse : ∀ u, u ≠ t → Changed pointerSize t e' (s u) (s' u)) : ∀ u e, s' u = some e → Grounded s' e.value := by
  have hglobal (g : T) (e : Entry T) (hg : s g = some e) (hb : e.binding = .Global) :
      ∃ e', s' g = some e' ∧ e'.binding = .Global ∧ e'.value = e.value := by
    by_cases hgt : g = t
    · subst hgt
      exact ⟨e', hself, hkeep e hg hb⟩
    · have hc := helse g hgt
      rw [hg] at hc
      obtain ⟨e'', he'', hb'', hv'', -⟩ := hc.global hb
      exact ⟨e'', he'', hb'', hv''⟩
  intro u eu hu
  by_cases hut : u = t
  · subst hut
    rw [hself] at hu
    cases hu
    exact hvalue.mono hglobal
  · have hc := helse u hut
    rw [hu] at hc
    generalize hsu : s u = o at hc
    cases hc with
    | same => exact (hold u eu hsu).mono hglobal
    | conflicting => exact (hold u _ hsu).mono hglobal
    | imported _ hb => exact .pointer hself hb (hvalue.mono hglobal)

/-- What a table that has not exported the name yet has made of it. -/
structure Early (done : T → List Operation) (e : Entry T) : Prop where
  ofLocal : e.binding = .Local → ∀ u, .markGlobal ∉ done u
  ofImported : e.binding = .Imported → ∃ u, .markGlobal ∈ done u
  ofGlobal : e.binding = .Global → ∃ u u', u ≠ u' ∧ .markGlobal ∈ done u ∧ .markGlobal ∈ done u'

theorem Early.congr {done' : T → List Operation} (he : Early done e) (hb : e'.binding = e.binding)
    (hmem : ∀ u, .markGlobal ∈ done' u ↔ .markGlobal ∈ done u) : Early done' e' := by
  refine ⟨fun hlocal u hu => ?_, fun himported => ?_, fun hglobal => ?_⟩
  · exact he.ofLocal (hb.symm.trans hlocal) u ((hmem u).mp hu)
  · obtain ⟨u, hu⟩ := he.ofImported (hb.symm.trans himported)
    exact ⟨u, (hmem u).mpr hu⟩
  · obtain ⟨u, u', hne, hu, hu'⟩ := he.ofGlobal (hb.symm.trans hglobal)
    exact ⟨u, u', hne, (hmem u).mpr hu, (hmem u').mpr hu'⟩

/-- The entries with a name that each table exports in its last call on it, when each has made the calls `done`. -/
structure ManyExports (done : T → List Operation) (s : Entries T) : Prop where
  known : Known done s
  exported : ∀ t, .markGlobal ∈ done t → ∃ e, s t = some e ∧ e.binding = .Global ∧
    ((∃ u, u ≠ t ∧ .markGlobal ∈ done u) → e.state = .ExternalMultiple)
  early : ∀ t e, .markGlobal ∉ done t → s t = some e → Early done e
  grounded : ∀ t e, s t = some e → Grounded s e.value

namespace ManyExports

section

variable (hs : ManyExports done s)
include hs

theorem exists_exported (hg : s g = some e) (hglobal : e.binding = .Global) : ∃ u, .markGlobal ∈ done u := by
  by_cases hmark : .markGlobal ∈ done g
  · exact ⟨g, hmark⟩
  · obtain ⟨u, -, -, hu, -⟩ := (hs.early g e hmark hg).ofGlobal hglobal
    exact ⟨u, hu⟩

theorem two_exported {g' : T} (hne : g ≠ g') (hg : GlobalElsewhere s t g) (hg' : GlobalElsewhere s t g') :
    ∃ u u', u ≠ u' ∧ .markGlobal ∈ done u ∧ .markGlobal ∈ done u' := by
  obtain ⟨-, e, hsg, hglobal⟩ := hg
  obtain ⟨-, e', hsg', hglobal'⟩ := hg'
  by_cases hmark : .markGlobal ∈ done g
  · by_cases hmark' : .markGlobal ∈ done g'
    · exact ⟨g, g', hne, hmark, hmark'⟩
    · exact (hs.early g' e' hmark' hsg').ofGlobal hglobal'
  · exact (hs.early g e hmark hsg).ofGlobal hglobal

theorem globalElsewhere (hu : .markGlobal ∈ done u) (hne : u ≠ t) : GlobalElsewhere s t u := by
  obtain ⟨e, he, hglobal, -⟩ := hs.exported u hu
  exact ⟨hne, e, he, hglobal⟩

/-- With a global elsewhere, no entry is local. -/
theorem bound_local (hg : GlobalElsewhere s t g) (u : T) : s.bound .Local u = false := by
  rw [Bool.eq_false_iff]
  intro hbound
  obtain ⟨eu, hsu, hlocal⟩ := bound_iff.mp hbound
  obtain ⟨-, e, hsg, hglobal⟩ := hg
  obtain ⟨m, hm⟩ := hs.exists_exported hsg hglobal
  by_cases hmark : .markGlobal ∈ done u
  · obtain ⟨eu', hsu', hglobal', -⟩ := hs.exported u hmark
    rw [hsu] at hsu'
    cases hsu'
    rw [hlocal] at hglobal'
    cases hglobal'
  · exact (hs.early u eu hmark hsu).ofLocal hlocal m hm

theorem early_touched (ht : .markGlobal ∉ done t) (hnone : ∀ g, ¬ GlobalElsewhere s t g) :
    Early done (touched s t) := by
  rw [touched]
  cases he : s t with
  | some e => exact hs.early t e ht he
  | none =>
    refine ⟨fun _ u hu => ?_, fun himported => ?_, fun hglobal => ?_⟩
    · by_cases hut : u = t
      · subst hut
        exact ht hu
      · exact hnone u (hs.globalElsewhere hu hut)
    · cases himported
    · cases hglobal

theorem grounded_touched (t : T) : Grounded s (touched s t).value := by
  rw [touched]
  cases he : s t with
  | some e => exact hs.grounded t e he
  | none => exact .empty 0

theorem early_referenced (ht : .markGlobal ∉ done t) (he : Referenced pointerSize s t e) : Early done e := by
  cases he with
  | alone hnone => exact hs.early_touched ht hnone
  | one _ hg hglobal =>
    exact ⟨nofun, fun _ => hs.exists_exported hg hglobal, nofun⟩
  | many hne hg hg' =>
    exact ⟨nofun, nofun, fun _ => hs.two_exported hne hg hg'⟩

theorem grounded_referenced (he : Referenced pointerSize s t e) : Grounded s e.value := by
  cases he with
  | alone => exact hs.grounded_touched t
  | one _ hg hglobal => exact .pointer hg hglobal (hs.grounded _ _ hg)
  | many => exact hs.grounded_touched t

/-- A table that finds itself global before its export has two others to thank for it, and stays as it is. -/
theorem keeps_referenced (ht : .markGlobal ∉ done t) (he : Referenced pointerSize s t e) (hold : s t = some e')
    (hglobal : e'.binding = .Global) : e.binding = .Global ∧ e.value = e'.value := by
  obtain ⟨u, u', hne, hu, hu'⟩ := (hs.early t e' ht hold).ofGlobal hglobal
  have helse (w : T) (hw : .markGlobal ∈ done w) : GlobalElsewhere s t w :=
    hs.globalElsewhere hw fun hwt => ht (hwt ▸ hw)
  have htouched : touched s t = e' := by rw [touched, hold]; rfl
  cases he with
  | alone hnone => exact absurd (helse u hu) (hnone u)
  | one _ _ _ hunique => exact absurd ((hunique u (helse u hu)).trans (hunique u' (helse u' hu')).symm) hne
  | many => exact ⟨rfl, by rw [htouched]⟩

end

end ManyExports

variable [DecidableEq T] {run : List (T × Operation)}

theorem changed_followed {b : Binding} (hb : b ≠ .Global) (hglobal : e.binding = .Global) (hu : u ≠ t) :
    Changed pointerSize t e (s u) (followed pointerSize s t b e u) := by
  rw [followed, if_neg hu]
  by_cases hbound : s.bound b u = true
  · obtain ⟨eu, hsu, hbu⟩ := bound_iff.mp hbound
    rw [if_pos hbound, hsu]
    exact .imported (by rw [hbu]; exact hb) hglobal
  · rw [if_neg hbound]
    exact .same

theorem changed_conflicted (hu : u ≠ t) : Changed pointerSize t e' (s u) (conflicted s t e u) := by
  rw [conflicted, if_neg hu]
  by_cases hbound : s.bound .Global u = true
  · obtain ⟨eu, hsu, hbu⟩ := bound_iff.mp hbound
    rw [if_pos hbound, hsu]
    exact .conflicting hbu
  · rw [if_neg hbound]
    exact .same

theorem changed_update (hu : u ≠ t) : Changed pointerSize t e' (s u) (Function.update s t (some e) u) := by
  rw [Function.update_of_ne hu]
  exact .same

theorem known_changed (hs : Known done s) (hself : s' t = some e')
    (helse : ∀ u, u ≠ t → Changed pointerSize t e' (s u) (s' u)) :
    Known (Function.update done t (done t ++ [op])) s' := by
  refine hs.step fun u => ?_
  by_cases hut : u = t
  · rw [if_pos hut, hut, hself]
    rfl
  · rw [if_neg hut]
    exact (helse u hut).isSome

namespace ManyExports

/-- A call that is no export. -/
theorem step_early (hs : ManyExports done s) (ht : .markGlobal ∉ done t) (hop : op ≠ .markGlobal)
    (he : Referenced pointerSize s t e) (hself : s' t = some e') (hbinding : e'.binding = e.binding)
    (hvalue : e'.value = e.value) (helse : ∀ u, u ≠ t → Changed pointerSize t e' (s u) (s' u)) :
    ManyExports (Function.update done t (done t ++ [op])) s' := by
  have hmem (u : T) : .markGlobal ∈ Function.update done t (done t ++ [op]) u ↔ .markGlobal ∈ done u := by
    by_cases hut : u = t
    · subst hut
      simp [Ne.symm hop]
    · rw [Function.update_of_ne hut]
  have hearly := (hs.early_referenced ht he).congr hbinding hmem
  refine ⟨known_changed hs.known hself helse, fun u hu => ?_, fun u eu hu hsu => ?_, ?_⟩
  · rw [hmem] at hu
    obtain ⟨eu, hsu, hglobal, hstate⟩ := hs.exported u hu
    have hc := helse u fun hut => ht (hut ▸ hu)
    rw [hsu] at hc
    obtain ⟨eu', hsu', hglobal', -, hstate'⟩ := hc.global hglobal
    refine ⟨eu', hsu', hglobal', fun ⟨w, hwu, hw⟩ => hstate' (hstate ⟨w, hwu, ?_⟩)⟩
    rwa [hmem] at hw
  · rw [hmem] at hu
    by_cases hut : u = t
    · subst hut
      rw [hself] at hsu
      cases hsu
      exact hearly
    · have hc := helse u hut
      rw [hsu] at hc
      generalize hold : s u = o at hc
      cases hc with
      | same => exact (hs.early u eu hu hold).congr rfl hmem
      | conflicting => exact (hs.early u _ hu hold).congr rfl hmem
      | imported _ hglobal =>
        obtain ⟨w, -, -, hw, -⟩ := hearly.ofGlobal hglobal
        exact ⟨nofun, fun _ => ⟨w, hw⟩, nofun⟩
  · refine grounded_step hs.grounded hself ?_ (fun e₀ hold hglobal => ?_) helse
    · rw [hvalue]
      exact hs.grounded_referenced he
    · obtain ⟨hb, hv⟩ := hs.keeps_referenced ht he hold hglobal
      exact ⟨hbinding.trans hb, hvalue.trans hv⟩

/-- An export. It tells the exports before it that they are not alone. -/
theorem step_export (hs : ManyExports done s) (ht : .markGlobal ∉ done t) (he : Referenced pointerSize s t e)
    (hself : s' t = some e') (hglobal : e'.binding = .Global) (hvalue : e'.value = e.value)
    (helse : ∀ u, u ≠ t → Changed pointerSize t e' (s u) (s' u))
    (hstate : (∃ u, .markGlobal ∈ done u) →
      e'.state = .ExternalMultiple ∧ ∀ u eu, .markGlobal ∈ done u → s' u = some eu → eu.state = .ExternalMultiple)
    (hlocal : ∀ u eu, u ≠ t → s' u = some eu → eu.binding ≠ .Local) :
    ManyExports (Function.update done t (done t ++ [.markGlobal])) s' := by
  have hmem (u : T) : .markGlobal ∈ Function.update done t (done t ++ [.markGlobal]) u ↔
      u = t ∨ .markGlobal ∈ done u := by
    by_cases hut : u = t
    · subst hut
      simp
    · rw [Function.update_of_ne hut]
      exact (or_iff_right hut).symm
  refine ⟨known_changed hs.known hself helse, fun u hu => ?_, fun u eu hu hsu => ?_, ?_⟩
  · by_cases hut : u = t
    · subst hut
      refine ⟨e', hself, hglobal, fun ⟨w, hwu, hw⟩ => (hstate ⟨w, ?_⟩).1⟩
      exact ((hmem w).mp hw).resolve_left hwu
    · have hmark := ((hmem u).mp hu).resolve_left hut
      obtain ⟨eu, hsu, hbu, -⟩ := hs.exported u hmark
      have hc := helse u hut
      rw [hsu] at hc
      obtain ⟨eu', hsu', hbu', -⟩ := hc.global hbu
      exact ⟨eu', hsu', hbu', fun _ => (hstate ⟨u, hmark⟩).2 u eu' hmark hsu'⟩
  · rw [hmem, not_or] at hu
    have hc := helse u hu.1
    rw [hsu] at hc
    refine ⟨fun hb => absurd hb (hlocal u eu hu.1 hsu), fun _ => ⟨t, (hmem t).mpr (.inl rfl)⟩, fun hb => ?_⟩
    have hold : ∃ e₀, s u = some e₀ ∧ e₀.binding = .Global := by
      generalize s u = o at hc
      cases hc with
      | same => exact ⟨eu, rfl, hb⟩
      | conflicting h₀ => exact ⟨_, rfl, h₀⟩
      | imported => cases hb
    obtain ⟨e₀, hsu₀, hb₀⟩ := hold
    obtain ⟨w, w', hne, hw, hw'⟩ := (hs.early u e₀ hu.2 hsu₀).ofGlobal hb₀
    exact ⟨w, w', hne, (hmem w).mpr (.inr hw), (hmem w').mpr (.inr hw')⟩
  · refine grounded_step hs.grounded hself ?_ (fun e₀ hold hb₀ => ?_) helse
    · rw [hvalue]
      exact hs.grounded_referenced he
    · exact ⟨hglobal, hvalue.trans (hs.keeps_referenced ht he hold hb₀).2⟩

theorem reference_step (hs : ManyExports done s) (ht : .markGlobal ∉ done t) :
    ManyExports (Function.update done t (done t ++ [.reference])) (reference h t s) := by
  obtain ⟨e, he, heq⟩ := reference_spec h t s
  rw [heq]
  exact hs.step_early ht (by decide) he (Function.update_self ..) rfl rfl fun u hu => changed_update hu

theorem define_step (hs : ManyExports done s) (ht : .markGlobal ∉ done t) :
    ManyExports (Function.update done t (done t ++ [.define])) (define h t s) := by
  obtain ⟨e, he, heq⟩ := define_spec h t s
  rw [heq]
  have hop : Operation.define ≠ .markGlobal := by decide
  cases hb : e.binding with
  | Imported =>
    rw [defined_imported hb]
    exact hs.step_early ht hop he (Function.update_self ..) rfl rfl fun u hu => changed_update hu
  | Local =>
    rw [defined_local hb]
    exact hs.step_early ht hop he (Function.update_self ..) rfl rfl fun u hu => changed_update hu
  | Global =>
    rw [defined_global hb]
    exact hs.step_early ht hop he (if_pos rfl) rfl rfl fun u hu => changed_followed (by decide) hb hu

theorem markGlobal_step (hs : ManyExports done s) (ht : .markGlobal ∉ done t) :
    ManyExports (Function.update done t (done t ++ [.markGlobal])) (markGlobal h t s) := by
  by_cases hnone : ∃ g, GlobalElsewhere s t g
  · obtain ⟨g, hg⟩ := hnone
    obtain ⟨e, he, heq⟩ := markGlobal_conflict hg fun u _ => hs.bound_local hg u
    rw [heq]
    refine hs.step_export ht he (if_pos rfl) rfl rfl (fun u hu => changed_conflicted hu) (fun _ => ⟨rfl, ?_⟩) ?_
    · intro u eu hmark hsu
      obtain ⟨eu₀, hsu₀, hb₀, -⟩ := hs.exported u hmark
      have hut : u ≠ t := fun hut => ht (hut ▸ hmark)
      rw [conflicted, if_neg hut, if_pos (bound_iff.mpr ⟨eu₀, hsu₀, hb₀⟩), hsu₀] at hsu
      cases hsu
      rfl
    · intro u eu hut hsu hb
      have hnot := hs.bound_local hg u
      rw [conflicted, if_neg hut] at hsu
      by_cases hbound : s.bound .Global u = true
      · obtain ⟨eu₀, hsu₀, hb₀⟩ := bound_iff.mp hbound
        rw [if_pos hbound, hsu₀] at hsu
        cases hsu
        rw [Entry.conflicting, hb₀] at hb
        cases hb
      · rw [if_neg hbound] at hsu
        rw [bound_iff.mpr ⟨eu, hsu, hb⟩] at hnot
        cases hnot
  · have hnone' (g : T) (hg : GlobalElsewhere s t g) : False := hnone ⟨g, hg⟩
    rw [markGlobal_alone hnone']
    have he : Referenced h.pointerSize s t (touched s t) := .alone hnone'
    refine hs.step_export ht he (if_pos rfl) rfl rfl (fun u hu => changed_followed (by decide) rfl hu) ?_ ?_
    · rintro ⟨u, hu⟩
      have hut : u ≠ t := fun hut => ht (hut ▸ hu)
      exact (hnone' u (hs.globalElsewhere hu hut)).elim
    · intro u eu hut hsu hb
      rw [followed, if_neg hut] at hsu
      by_cases hbound : s.bound .Local u = true
      · rw [if_pos hbound] at hsu
        cases hsu
        cases hb
      · rw [if_neg hbound] at hsu
        exact hbound (bound_iff.mpr ⟨eu, hsu, hb⟩)

/-- No table calls again behind its export. -/
theorem performAll (hrun : ∀ t, .markGlobal ∉ (actions run t).dropLast) : ManyExports (actions run) (performAll h run) := by
  induction run using List.reverseRecOn with
  | nil =>
    refine ⟨fun t => ?_, fun t ht => absurd ht List.not_mem_nil, fun t e _ he => ?_, fun t e he => ?_⟩
    · simp [Symbol.performAll]
    · cases he
    · cases he
  | append_singleton run p ih =>
    obtain ⟨t, op⟩ := p
    have ht : .markGlobal ∉ actions run t := by
      have := hrun t
      rwa [actions_concat, Function.update_self, List.dropLast_concat] at this
    have hs := ih fun u hu => by
      by_cases hut : u = t
      · subst hut
        exact ht (List.mem_of_mem_dropLast hu)
      · have := hrun u
        rw [actions_concat, Function.update_of_ne hut] at this
        exact this hu
    rw [performAll_concat, actions_concat]
    cases op with
    | reference => exact hs.reference_step ht
    | define => exact hs.define_step ht
    | markGlobal => exact hs.markGlobal_step ht

end ManyExports

end Pepp.Symbol
