import Pepp.Symbol.Resolution

/-!
# Runs that go wrong

A definition before the export of another table goes unreported; a definition
behind it does not. Of two exports, the first is lost when its table calls again,
and a second one by it makes a loop.
-/

namespace Pepp.Symbol

open Interleaving Entries

variable {T : Type} {h : Hierarchy T} {s : Entries T} {t u : T} {e : Entry T} {op : Operation}
  {done : T → List Operation} {run run' : List (T × Operation)}

/-- Two entries that point to each other have no value. -/
theorem value_loop {ptrSize : U16} {state state' : DefinitionState} {b b' : Binding}
    (ht : s t = some ⟨state, b, .internalPointer ptrSize (some u)⟩)
    (hu : s u = some ⟨state', b', .internalPointer ptrSize (some t)⟩) (fuel : Nat) :
    Value.value s fuel (.internalPointer ptrSize (some t)) = none ∧
      Value.value s fuel (.internalPointer ptrSize (some u)) = none := by
  induction fuel with
  | zero => exact ⟨rfl, rfl⟩
  | succ fuel ih =>
    refine ⟨?_, ?_⟩
    · rw [Value.value, ht]
      exact ih.2
    · rw [Value.value, hu]
      exact ih.1

variable [DecidableEq T]

section Globals

theorem importFrom_global_of {pointerSize : U16} {o : T} (he : importFrom pointerSize o u s t = some e)
    (hglobal : e.binding = .Global) : s t = some e := by
  rw [importFrom] at he
  cases hsu : s u with
  | none =>
    rw [hsu] at he
    exact he
  | some eu =>
    rw [hsu] at he
    dsimp only at he
    rw [Entries.modify] at he
    by_cases hto : t = o
    · subst hto
      rw [Function.update_self] at he
      obtain ⟨e', -, rfl⟩ := Option.map_eq_some_iff.mp he
      cases hglobal
    · rwa [Function.update_of_ne hto] at he

theorem marking_global_of {pointerSize : U16} (hne : t ≠ u) {o : T} (he : marking pointerSize u s o t = some e)
    (hglobal : e.binding = .Global) : ∃ e', s t = some e' ∧ e'.binding = .Global := by
  rw [marking] at he
  by_cases hou : o = u
  · rw [if_pos hou] at he
    exact ⟨e, he, hglobal⟩
  rw [if_neg hou] at he
  by_cases hbound : s.bound .Global o = true
  · rw [if_pos hbound, Entries.modify, Function.update_of_ne hne, Entries.modify] at he
    by_cases hto : t = o
    · subst hto
      exact bound_iff.mp hbound
    · rw [Function.update_of_ne hto] at he
      exact ⟨e, he, hglobal⟩
  rw [if_neg hbound] at he
  by_cases hlocal : s.bound .Local o = true
  · rw [if_pos hlocal] at he
    exact ⟨e, importFrom_global_of he hglobal, hglobal⟩
  · rw [if_neg hlocal] at he
    exact ⟨e, he, hglobal⟩

/-- Only a table's own calls make it global. -/
theorem perform_global_of (hne : t ≠ u) (he : perform h u op s t = some e) (hglobal : e.binding = .Global) :
    ∃ e', s t = some e' ∧ e'.binding = .Global := by
  cases op with
  | reference =>
    obtain ⟨e', -, heq⟩ := reference_spec h u s
    rw [perform, heq, Function.update_of_ne hne] at he
    exact ⟨e, he, hglobal⟩
  | define =>
    obtain ⟨e', -, heq⟩ := define_spec h u s
    rw [perform, heq] at he
    cases hb : e'.binding with
    | Imported =>
      rw [defined_imported hb, Function.update_of_ne hne] at he
      exact ⟨e, he, hglobal⟩
    | Local =>
      rw [defined_local hb, Function.update_of_ne hne] at he
      exact ⟨e, he, hglobal⟩
    | Global =>
      rw [defined_global hb, followed, if_neg hne] at he
      by_cases hbound : s.bound .Imported t = true
      · rw [if_pos hbound] at he
        cases he
        cases hglobal
      · rw [if_neg hbound] at he
        exact ⟨e, he, hglobal⟩
  | markGlobal =>
    obtain ⟨e', -, heq⟩ := reference_spec h u s
    rw [perform, markGlobal_eq heq] at he
    have hfold (symbols : List T) (s : Entries T) (he : symbols.foldl (marking h.pointerSize u) s t = some e) :
        ∃ e', s t = some e' ∧ e'.binding = .Global := by
      induction symbols generalizing s with
      | nil => exact ⟨e, he, hglobal⟩
      | cons o symbols ih =>
        obtain ⟨e', he', hglobal'⟩ := ih _ he
        exact marking_global_of hne he' hglobal'
    obtain ⟨e₀, he₀, hglobal₀⟩ := hfold _ _ he
    rw [Function.update_of_ne hne] at he₀
    exact ⟨e₀, he₀, hglobal₀⟩

theorem performAll_global_of (hrun : ∀ p ∈ run', p.1 ≠ t) (he : performAll h (run ++ run') t = some e)
    (hglobal : e.binding = .Global) : ∃ e', performAll h run t = some e' ∧ e'.binding = .Global := by
  induction run' using List.reverseRecOn generalizing e with
  | nil =>
    rw [List.append_nil] at he
    exact ⟨e, he, hglobal⟩
  | append_singleton run' p ih =>
    obtain ⟨u, op⟩ := p
    rw [← List.append_assoc, performAll_concat] at he
    have hne : t ≠ u := (hrun _ (List.mem_append_right _ List.mem_cons_self)).symm
    obtain ⟨e', he', hglobal'⟩ := perform_global_of hne he hglobal
    exact ih (fun p hp => hrun p (List.mem_append_left _ hp)) he' hglobal'

end Globals

section OneExport

/-- What a call of the only exporter does to the other tables. -/
theorem SingleExport.changed (hs : SingleExport h t done s) (op : Operation) :
    ∃ e, perform h t op s t = some e ∧
      ∀ u, u ≠ t → Changed h.pointerSize t e (s u) (perform h t op s u) := by
  have hnone := hs.alone (.inl rfl)
  cases op with
  | reference =>
    obtain ⟨e, -, heq⟩ := reference_spec h t s
    rw [perform, heq]
    exact ⟨e, Function.update_self .., fun u hu => changed_update hu⟩
  | define =>
    obtain ⟨e, -, heq⟩ := define_spec h t s
    rw [perform, heq]
    cases hb : e.binding with
    | Imported =>
      rw [defined_imported hb]
      exact ⟨_, Function.update_self .., fun u hu => changed_update hu⟩
    | Local =>
      rw [defined_local hb]
      exact ⟨_, Function.update_self .., fun u hu => changed_update hu⟩
    | Global =>
      rw [defined_global hb]
      exact ⟨_, if_pos rfl, fun u hu => changed_followed (by decide) hb hu⟩
  | markGlobal =>
    rw [perform, markGlobal_alone hnone]
    exact ⟨_, if_pos rfl, fun u hu => changed_followed (by decide) rfl hu⟩

/-- No entry is reported. -/
def Unreported (s : Entries T) : Prop := ∀ t e, s t = some e → e.state ≠ .ExternalMultiple

/-- When the exporter comes behind all others, no definition of theirs is reported. -/
theorem unreported_last (hrun : ∀ p ∈ run, p.1 ≠ t ∧ p.2 ≠ .markGlobal) (ops : List Operation) :
    Unreported (performAll h (run ++ block t ops)) := by
  have hsingle (ops : List Operation) : SingleExport h t (actions (run ++ block t ops)) (performAll h (run ++ block t ops)) := by
    refine SingleExport.performAll fun u hu hmem => ?_
    obtain hmem | hmem := List.mem_append.mp hmem
    · exact (hrun _ hmem).2 rfl
    · exact hu (mem_block.mp hmem).1
  induction ops using List.reverseRecOn with
  | nil =>
    have hs := hsingle []
    have hnil : actions (run ++ block t []) t = [] := by
      rw [List.eq_nil_iff_forall_not_mem]
      intro op hop
      rw [mem_actions, block, List.map_nil, List.append_nil] at hop
      exact (hrun _ hop).1 rfl
    intro u e he
    by_cases hut : u = t
    · subst hut
      rw [hs.known.absent hnil] at he
      cases he
    · rw [(hs.elsewhere u hut e he).1 (by rw [hnil]; exact List.not_mem_nil)]
      exact counted_ne _
  | append_singleton ops op ih =>
    have hs := hsingle ops
    have hs' := hsingle (ops ++ [op])
    have hconcat : run ++ block t (ops ++ [op]) = run ++ block t ops ++ [(t, op)] := by
      rw [block, List.map_append, ← List.append_assoc]
      rfl
    have hown (e : Entry T) (he : performAll h (run ++ block t (ops ++ [op])) t = some e) :
        e.state ≠ .ExternalMultiple := by
      rw [hs'.exporter e he]
      exact counted_ne _
    rw [hconcat, performAll_concat] at hown ⊢
    obtain ⟨et, het, hchanged⟩ := hs.changed op
    intro u e he
    by_cases hut : u = t
    · subst hut
      exact hown e he
    · have hc := hchanged u hut
      rw [he] at hc
      generalize hsu : performAll h (run ++ block t ops) u = o at hc
      cases hc with
      | same => exact ih u e hsu
      | conflicting hglobal => exact absurd ⟨hut, _, hsu, hglobal⟩ (hs.alone (.inl rfl) u)
      | imported => exact hown et het

/-- Behind the export, a definition of another table is reported. -/
theorem SingleExport.define_reported (hs : SingleExport h t done s) (hmark : .markGlobal ∈ done t) (hu : u ≠ t) :
    ∃ e, define h u s u = some e ∧ e.state = .ExternalMultiple := by
  obtain ⟨e, he, heq⟩ := define_spec h u s
  obtain rfl := hs.referenced hmark hu he
  rw [heq, defined_imported rfl]
  exact ⟨_, Function.update_self .., rfl⟩

end OneExport

section TwoExports

/-- With two globals elsewhere, a call makes its table global too. -/
theorem perform_global {g g' : T} (hgg' : g ≠ g') (hg : GlobalElsewhere s t g)
    (hg' : GlobalElsewhere s t g') (hop : op ≠ .markGlobal) : ∃ e, perform h t op s t = some e ∧ e.binding = .Global := by
  have hreferenced {e : Entry T} (he : Referenced h.pointerSize s t e) : e.binding = .Global := by
    cases he with
    | alone hnone => exact absurd hg (hnone g)
    | one _ _ _ hunique => exact absurd ((hunique g hg).trans (hunique g' hg').symm) hgg'
    | many => rfl
  cases op with
  | reference =>
    obtain ⟨e, he, heq⟩ := reference_spec h t s
    rw [perform, heq]
    exact ⟨e, Function.update_self .., hreferenced he⟩
  | define =>
    obtain ⟨e, he, heq⟩ := define_spec h t s
    have hb := hreferenced he
    rw [perform, heq, defined_global hb]
    exact ⟨_, if_pos rfl, hb⟩
  | markGlobal => exact absurd rfl hop

/-- Two globals and nothing else, the second a pointer to the first. -/
structure Rivals (h : Hierarchy T) (t u : T) (s : Entries T) : Prop where
  first : ∃ e, s t = some e ∧ e.binding = .Global
  second : ∃ state, s u = some ⟨state, .Global, .internalPointer h.pointerSize (some t)⟩
  others : ∀ w, w ≠ t → w ≠ u → s w = none

/-- The second of two tables exports the name. -/
theorem SingleExport.rivals (hs : SingleExport h t done s) (hmark : .markGlobal ∈ done t) (hu : u ≠ t)
    (hdone : ∀ w, w ≠ t → w ≠ u → done w = []) : Rivals h t u (markGlobal h u s) := by
  obtain ⟨et, het⟩ := hs.known.present (List.ne_nil_of_mem hmark)
  have hglobal : et.binding = .Global := by
    rw [hs.exporter et het]
    exact if_pos hmark
  have hlocal (w : T) (_ : w ≠ u) : s.bound .Local w = false := by
    rw [Bool.eq_false_iff]
    intro hbound
    obtain ⟨ew, hsw, hb⟩ := bound_iff.mp hbound
    by_cases hwt : w = t
    · subst hwt
      rw [hsw] at het
      cases het
      rw [hb] at hglobal
      cases hglobal
    · rw [((hs.elsewhere w hwt ew hsw).2 hmark).1] at hb
      cases hb
  obtain ⟨e, he, heq⟩ := markGlobal_conflict (h := h) ⟨hu.symm, et, het, hglobal⟩ hlocal
  obtain rfl := hs.referenced hmark hu he
  rw [heq]
  refine ⟨⟨et.conflicting, ?_, hglobal⟩, ⟨.ExternalMultiple, if_pos rfl⟩, fun w hwt hwu => ?_⟩
  · rw [conflicted, if_neg hu.symm, if_pos (bound_iff.mpr ⟨et, het, hglobal⟩), het]
    rfl
  · have hnone := hs.known.absent (hdone w hwt hwu)
    rw [conflicted, if_neg hwu, hnone]
    exact ite_self _

theorem Rivals.referenced (hs : Rivals h t u s) (hu : u ≠ t) (he : Referenced h.pointerSize s t e) :
    e.binding = .Imported ∧ e.value = .internalPointer h.pointerSize (some u) := by
  obtain ⟨state, hsu⟩ := hs.second
  have honly (g : T) (hg : GlobalElsewhere s t g) : g = u := by
    by_contra hgu
    obtain ⟨hgt, eg, hsg, -⟩ := hg
    rw [hs.others g hgt hgu] at hsg
    cases hsg
  cases he with
  | alone hnone => exact absurd ⟨hu, _, hsu, rfl⟩ (hnone u)
  | one hne hg hglobal =>
    rw [honly _ ⟨hne, _, hg, hglobal⟩]
    exact ⟨rfl, rfl⟩
  | many hne hg hg' => exact absurd ((honly _ hg).trans (honly _ hg').symm) hne

/-- The first of them loses its binding when it refers to the name or defines it again. -/
theorem Rivals.lost (hs : Rivals h t u s) (hu : u ≠ t) (hop : op ≠ .markGlobal) :
    ∃ e, perform h t op s t = some e ∧ e.binding = .Imported := by
  cases op with
  | reference =>
    obtain ⟨e, he, heq⟩ := reference_spec h t s
    rw [perform, heq]
    exact ⟨e, Function.update_self .., (hs.referenced hu he).1⟩
  | define =>
    obtain ⟨e, he, heq⟩ := define_spec h t s
    have hb := (hs.referenced hu he).1
    rw [perform, heq, defined_imported hb]
    exact ⟨_, Function.update_self .., hb⟩
  | markGlobal => exact absurd rfl hop

/-- It points to the second one when it exports the name again. -/
theorem Rivals.loop (hs : Rivals h t u s) (hu : u ≠ t) :
    (∃ state, markGlobal h t s t = some ⟨state, .Global, .internalPointer h.pointerSize (some u)⟩) ∧
      ∃ state, markGlobal h t s u = some ⟨state, .Global, .internalPointer h.pointerSize (some t)⟩ := by
  obtain ⟨state, hsu⟩ := hs.second
  have hlocal (w : T) (hwt : w ≠ t) : s.bound .Local w = false := by
    by_cases hwu : w = u
    · subst hwu
      rw [bound_eq hsu]
      rfl
    · rw [bound, hs.others w hwt hwu]
      rfl
  obtain ⟨e, he, heq⟩ := markGlobal_conflict (h := h) ⟨hu, _, hsu, rfl⟩ hlocal
  rw [heq]
  refine ⟨⟨.ExternalMultiple, ?_⟩, ⟨.ExternalMultiple, ?_⟩⟩
  · rw [conflicted, if_pos rfl, (hs.referenced hu he).2]
  · rw [conflicted, if_neg hu, if_pos (bound_iff.mpr ⟨_, hsu, rfl⟩), hsu]
    rfl

end TwoExports

end Pepp.Symbol
