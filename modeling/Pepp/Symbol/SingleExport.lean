import Mathlib.Tactic.Common
import Pepp.Lib.Interleavings
import Pepp.Symbol.Calls

/-!
# Names with one export

Runs in which no table but one marks the name as global. What each table has made
of the name follows from its own calls and those of that table.
-/

namespace Pepp.Symbol

open Interleaving Entries

variable {T : Type} {h : Hierarchy T} {s s' : Entries T} {x t : T} {done : T → List Operation} {op : Operation}

/-- The state of an entry that only its own table defines. -/
def counted : Nat → DefinitionState
  | 0 => .Undefined
  | 1 => .Single
  | _ + 2 => .Multiple

theorem counted_succ (n : Nat) : counted (n + 1) = (counted n).defined := by
  match n with
  | 0 => rfl
  | 1 => rfl
  | _ + 2 => rfl

theorem counted_ne (n : Nat) : counted n ≠ .ExternalMultiple := by
  match n with
  | 0 => decide
  | 1 => decide
  | _ + 2 => exact DefinitionState.noConfusion

/-- An entry that its own table's calls have made. -/
def ownEntry (b : Binding) (ops : List Operation) : Entry T := ⟨counted (ops.count .define), b, .empty 0⟩

variable (ops : List Operation) {e : Entry T}

theorem counted_concat_define :
    counted ((ops ++ [Operation.define]).count Operation.define) = (counted (ops.count .define)).defined := by
  rw [List.count_append, List.count_singleton_self, counted_succ]

theorem count_concat (hop : op ≠ .define) : (ops ++ [op]).count Operation.define = ops.count .define := by
  rw [List.count_append, List.count_singleton, if_neg (by simpa using hop), Nat.add_zero]

/-- How the exporter's binding depends on its calls. -/
def exportBinding (ops : List Operation) : Binding := if .markGlobal ∈ ops then .Global else .Local

theorem exportBinding_concat (hop : op ≠ .markGlobal) : exportBinding (ops ++ [op]) = exportBinding ops := by
  simp [exportBinding, Ne.symm hop]

/-- The tables with an entry are those that made a call. -/
def Known (done : T → List Operation) (s : Entries T) : Prop := ∀ t, (s t).isSome ↔ done t ≠ []

theorem Known.present (hs : Known done s) (ht : done t ≠ []) : ∃ e, s t = some e :=
  Option.isSome_iff_exists.mp ((hs t).mpr ht)

theorem Known.absent (hs : Known done s) (ht : done t = []) : s t = none := by
  rw [← Option.not_isSome_iff_eq_none, hs t]
  exact not_not.mpr ht

/-- What the exporter's calls `ops` and the own calls of another table make of the other's entry. -/
def Elsewhere (h : Hierarchy T) (x : T) (ops own : List Operation) (e : Entry T) : Prop :=
  (.markGlobal ∉ ops → e = ownEntry .Local own) ∧
    (.markGlobal ∈ ops → e.binding = .Imported ∧ e.value = .internalPointer h.pointerSize (some x) ∧
      (own.getLast? ≠ some .define → e.state = counted (ops.count .define)))

/-- The entries with a name that no table but `x` exports, when each table has made the calls `done`. -/
structure SingleExport (h : Hierarchy T) (x : T) (done : T → List Operation) (s : Entries T) : Prop where
  known : Known done s
  exporter : ∀ e, s x = some e → e = ownEntry (exportBinding (done x)) (done x)
  elsewhere : ∀ t, t ≠ x → ∀ e, s t = some e → Elsewhere h x (done x) (done t) e

namespace SingleExport

section

variable (hs : SingleExport h x done s)
include hs

theorem touched_exporter : touched s x = ownEntry (exportBinding (done x)) (done x) := by
  rw [touched]
  by_cases hx : done x = []
  · rw [hs.known.absent hx, hx]
    rfl
  · obtain ⟨e, he⟩ := hs.known.present hx
    rw [he, hs.exporter e he]
    rfl

theorem touched_waiting (hmark : .markGlobal ∉ done x) (ht : t ≠ x) : touched s t = ownEntry .Local (done t) := by
  rw [touched]
  by_cases hdone : done t = []
  · rw [hs.known.absent hdone, hdone]
    rfl
  · obtain ⟨e, he⟩ := hs.known.present hdone
    rw [he, (hs.elsewhere t ht e he).1 hmark]
    rfl

/-- Only the exporter can be global. -/
theorem global_eq {g : T} {e : Entry T} (hg : s g = some e) (hglobal : e.binding = .Global) :
    g = x ∧ .markGlobal ∈ done x := by
  by_cases hmark : .markGlobal ∈ done x
  · refine ⟨?_, hmark⟩
    by_contra hne
    rw [((hs.elsewhere g hne e hg).2 hmark).1] at hglobal
    cases hglobal
  · exfalso
    by_cases hgx : g = x
    · subst hgx
      rw [hs.exporter e hg, exportBinding, if_neg hmark] at hglobal
      cases hglobal
    · rw [(hs.elsewhere g hgx e hg).1 hmark] at hglobal
      cases hglobal

theorem alone (ht : t = x ∨ .markGlobal ∉ done x) (g : T) : ¬ GlobalElsewhere s t g := by
  rintro ⟨hne, e, hg, hglobal⟩
  obtain ⟨rfl, hmark⟩ := hs.global_eq hg hglobal
  obtain rfl | hnot := ht
  · exact hne rfl
  · exact hnot hmark

end

end SingleExport

/-- A reference with no global elsewhere. -/
theorem referenced_alone {pointerSize : U16} {e : Entry T} (he : Referenced pointerSize s t e)
    (hnone : ∀ g, ¬ GlobalElsewhere s t g) : e = touched s t := by
  cases he with
  | alone => rfl
  | one hne hg hglobal => exact absurd ⟨hne, _, hg, hglobal⟩ (hnone _)
  | many _ hg => exact absurd hg (hnone _)

/-- A reference behind the export imports. -/
theorem SingleExport.referenced (hs : SingleExport h x done s) (hmark : .markGlobal ∈ done x) (ht : t ≠ x)
    (he : Referenced h.pointerSize s t e) :
    e = ⟨counted ((done x).count .define), .Imported, .internalPointer h.pointerSize (some x)⟩ := by
  obtain ⟨ex, hx⟩ := hs.known.present (List.ne_nil_of_mem hmark)
  have hex := hs.exporter ex hx
  have hglobal : ex.binding = .Global := by
    rw [hex]
    exact if_pos hmark
  cases he with
  | alone hnone => exact absurd ⟨Ne.symm ht, ex, hx, hglobal⟩ (hnone x)
  | one hne hg hglobal' =>
    obtain ⟨rfl, -⟩ := hs.global_eq hg hglobal'
    rw [hx] at hg
    cases hg
    rw [hex]
    rfl
  | many hne hg hg' =>
    obtain ⟨-, e₁, hg, hglobal₁⟩ := hg
    obtain ⟨-, e₂, hg', hglobal₂⟩ := hg'
    exact absurd ((hs.global_eq hg hglobal₁).1.trans (hs.global_eq hg' hglobal₂).1.symm) hne

variable [DecidableEq T] {run : List (T × Operation)}

theorem performAll_concat (run : List (T × Operation)) (t : T) (op : Operation) :
    performAll h (run ++ [(t, op)]) = perform h t op (performAll h run) := List.foldl_concat ..

theorem isSome_followed {pointerSize : U16} {b : Binding} (u : T) :
    (followed pointerSize s t b e u).isSome = if u = t then true else (s u).isSome := by
  unfold followed
  by_cases hu : u = t
  · rw [if_pos hu, if_pos hu]
    rfl
  · rw [if_neg hu, if_neg hu]
    by_cases hbound : s.bound b u = true
    · obtain ⟨eu, hsu, -⟩ := bound_iff.mp hbound
      rw [if_pos hbound, hsu]
      rfl
    · rw [if_neg hbound]

theorem isSome_update (u : T) : (Function.update s t (some e) u).isSome = if u = t then true else (s u).isSome := by
  by_cases hu : u = t
  · subst hu
    rw [Function.update_self, if_pos rfl]
    rfl
  · rw [Function.update_of_ne hu, if_neg hu]

theorem Known.step (hs : Known done s) (hs' : ∀ u, (s' u).isSome = if u = t then true else (s u).isSome) :
    Known (Function.update done t (done t ++ [op])) s' := by
  intro u
  rw [hs']
  by_cases hu : u = t
  · subst hu
    simp
  · rw [if_neg hu, Function.update_of_ne hu]
    exact hs u

namespace SingleExport

section

variable (hs : SingleExport h x done s)
include hs

/-- A call of the exporter. -/
theorem step_exporter (hknown : ∀ u, (s' u).isSome = if u = x then true else (s u).isSome)
    (hself : s' x = some (ownEntry (exportBinding (done x ++ [op])) (done x ++ [op])))
    (helse : ∀ u, u ≠ x → ∀ e, s' u = some e → Elsewhere h x (done x ++ [op]) (done u) e) :
    SingleExport h x (Function.update done x (done x ++ [op])) s' := by
  refine ⟨hs.known.step hknown, fun e he => ?_, fun u hu e he => ?_⟩
  · rw [hself] at he
    rw [Function.update_self]
    exact (Option.some.inj he).symm
  · rw [Function.update_self, Function.update_of_ne hu]
    exact helse u hu e he

/-- A call of another table. -/
theorem step_elsewhere (ht : t ≠ x) {e : Entry T} (he : Elsewhere h x (done x) (done t ++ [op]) e) :
    SingleExport h x (Function.update done t (done t ++ [op])) (Function.update s t (some e)) := by
  refine ⟨hs.known.step isSome_update, fun ex hx => ?_, fun u hu eu hsu => ?_⟩
  · rw [Function.update_of_ne ht.symm] at hx ⊢
    exact hs.exporter ex hx
  · rw [Function.update_of_ne ht.symm]
    by_cases hut : u = t
    · subst hut
      rw [Function.update_self] at hsu ⊢
      cases hsu
      exact he
    · rw [Function.update_of_ne hut] at hsu ⊢
      exact hs.elsewhere u hu eu hsu

theorem reference_exporter : SingleExport h x (Function.update done x (done x ++ [.reference])) (reference h x s) := by
  obtain ⟨e, he, heq⟩ := reference_spec h x s
  obtain rfl := referenced_alone he (hs.alone (.inl rfl))
  have hne : Operation.reference ≠ .define := by decide
  rw [heq]
  refine hs.step_exporter isSome_update ?_ fun u hu e he => ?_
  · rw [Function.update_self, hs.touched_exporter, exportBinding_concat _ (by decide), ownEntry, ownEntry,
      count_concat _ hne]
  · rw [Function.update_of_ne hu] at he
    obtain ⟨hwaiting, himported⟩ := hs.elsewhere u hu e he
    rw [Elsewhere, count_concat _ hne, List.mem_append, List.mem_singleton]
    simpa using ⟨hwaiting, himported⟩

theorem define_exporter : SingleExport h x (Function.update done x (done x ++ [.define])) (define h x s) := by
  obtain ⟨e, he, heq⟩ := define_spec h x s
  obtain rfl := referenced_alone he (hs.alone (.inl rfl))
  have hmem : Operation.markGlobal ∈ done x ++ [.define] ↔ .markGlobal ∈ done x := by simp
  have htouched := hs.touched_exporter
  have hnew : ownEntry (exportBinding (done x ++ [.define])) (done x ++ [.define]) =
      { touched s x with state := (touched s x).state.defined } := by
    rw [htouched, exportBinding_concat _ (by decide), ownEntry, counted_concat_define]
    rfl
  rw [heq]
  by_cases hmark : .markGlobal ∈ done x
  · have hb : (touched s x).binding = .Global := by
      rw [htouched]
      exact if_pos hmark
    rw [defined_global hb]
    refine hs.step_exporter isSome_followed ?_ fun u hu e he => ?_
    · rw [hnew, followed, if_pos rfl]
    · rw [followed, if_neg hu] at he
      refine ⟨fun hnot => absurd (hmem.mpr hmark) hnot, fun _ => ?_⟩
      by_cases hbound : s.bound .Imported u = true
      · rw [if_pos hbound] at he
        cases he
        exact ⟨rfl, rfl, fun _ => by rw [htouched, counted_concat_define]; rfl⟩
      · rw [if_neg hbound] at he
        exact absurd (bound_iff.mpr ⟨e, he, ((hs.elsewhere u hu e he).2 hmark).1⟩) hbound
  · have hb : (touched s x).binding = .Local := by
      rw [htouched]
      exact if_neg hmark
    rw [defined_local hb]
    refine hs.step_exporter isSome_update ?_ fun u hu e he => ?_
    · rw [hnew, Function.update_self]
    · rw [Function.update_of_ne hu] at he
      exact ⟨fun _ => (hs.elsewhere u hu e he).1 hmark, fun hin => absurd (hmem.mp hin) hmark⟩

theorem markGlobal_exporter :
    SingleExport h x (Function.update done x (done x ++ [.markGlobal])) (markGlobal h x s) := by
  have htouched := hs.touched_exporter
  have hmem : Operation.markGlobal ∈ done x ++ [.markGlobal] := List.mem_append_right _ List.mem_cons_self
  have hcount : (done x ++ [Operation.markGlobal]).count Operation.define = (done x).count .define :=
    count_concat _ (by decide)
  rw [markGlobal_alone (hs.alone (.inl rfl))]
  refine hs.step_exporter isSome_followed ?_ fun u hu e he => ⟨fun hnot => absurd hmem hnot, fun _ => ?_⟩
  · have hbinding : exportBinding (done x ++ [.markGlobal]) = .Global := if_pos hmem
    rw [followed, if_pos rfl, htouched, hbinding, ownEntry, ownEntry, hcount]
  · rw [followed, if_neg hu] at he
    rw [hcount]
    by_cases hbound : s.bound .Local u = true
    · rw [if_pos hbound] at he
      cases he
      exact ⟨rfl, rfl, fun _ => by rw [htouched]; rfl⟩
    · rw [if_neg hbound] at he
      by_cases hmark : .markGlobal ∈ done x
      · exact (hs.elsewhere u hu e he).2 hmark
      · refine absurd (bound_iff.mpr ⟨e, he, ?_⟩) hbound
        rw [(hs.elsewhere u hu e he).1 hmark]
        rfl

theorem reference_elsewhere (ht : t ≠ x) :
    SingleExport h x (Function.update done t (done t ++ [.reference])) (reference h t s) := by
  obtain ⟨e, he, heq⟩ := reference_spec h t s
  rw [heq]
  refine hs.step_elsewhere ht ⟨fun hmark => ?_, fun hmark => ?_⟩
  · rw [referenced_alone he (hs.alone (.inr hmark)), hs.touched_waiting hmark ht, ownEntry, ownEntry,
      count_concat _ (by decide)]
  · obtain rfl := hs.referenced hmark ht he
    exact ⟨rfl, rfl, fun _ => rfl⟩

theorem define_elsewhere (ht : t ≠ x) :
    SingleExport h x (Function.update done t (done t ++ [.define])) (define h t s) := by
  obtain ⟨e, he, heq⟩ := define_spec h t s
  rw [heq]
  by_cases hmark : .markGlobal ∈ done x
  · obtain rfl := hs.referenced hmark ht he
    refine hs.step_elsewhere ht ⟨fun hnot => absurd hmark hnot, fun _ => ⟨rfl, rfl, fun hlast => ?_⟩⟩
    exact absurd (List.getLast?_concat ..) hlast
  · obtain rfl := referenced_alone he (hs.alone (.inr hmark))
    rw [hs.touched_waiting hmark ht]
    refine hs.step_elsewhere ht ⟨fun _ => ?_, fun hin => absurd hin hmark⟩
    rw [ownEntry, ownEntry, counted_concat_define]

end

/-- Nobody but `x` exports the name. -/
theorem performAll (hrun : ∀ t, t ≠ x → (t, Operation.markGlobal) ∉ run) :
    SingleExport h x (actions run) (performAll h run) := by
  induction run using List.reverseRecOn with
  | nil =>
    refine ⟨fun t => ?_, fun e he => ?_, fun t _ e he => ?_⟩
    · simp [Symbol.performAll]
    · cases he
    · cases he
  | append_singleton run p ih =>
    obtain ⟨t, op⟩ := p
    have hs := ih fun t ht hmem => hrun t ht (List.mem_append_left _ hmem)
    rw [performAll_concat, actions_concat]
    by_cases ht : t = x
    · subst ht
      cases op with
      | reference => exact hs.reference_exporter
      | define => exact hs.define_exporter
      | markGlobal => exact hs.markGlobal_exporter
    · cases op with
      | reference => exact hs.reference_elsewhere ht
      | define => exact hs.define_elsewhere ht
      | markGlobal => exact absurd (List.mem_append_right _ List.mem_cons_self) (hrun t ht)

end SingleExport

end Pepp.Symbol
