import Pepp.Symbol.Conflicts

/-!
# Order independence

When the resolution of a name depends on the order of the tables' calls, and when
it does not.
-/

namespace Pepp.Symbol

open Interleaving

variable {T Name : Type} [DecidableEq T] [DecidableEq Name] {h : Hierarchy T} {x : Name}
  {seqs : T → List (Call Name)} {t u : T} {run run' : List (T × Operation)}

namespace Resolves

section

variable (hr : Resolves h seqs x)
include hr

theorem same_onName (hrun : Interleaves run (onName x seqs)) (hrun' : Interleaves run' (onName x seqs)) (t : T) :
    (performAll h run t).map Entry.outcome = (performAll h run' t).map Entry.outcome := by
  obtain ⟨whole, hwhole, rfl⟩ := exists_project h.nodup h.complete hrun
  obtain ⟨whole', hwhole', rfl⟩ := exists_project h.nodup h.complete hrun'
  rw [← exec_name, ← exec_name]
  exact hr.same whole whole' hwhole hwhole' t

theorem global_onName (hrun : ∀ t, actions run t <+: onName x seqs t) (ht : .markGlobal ∈ actions run t) :
    ∃ e, performAll h run t = some e ∧ e.binding = .Global := by
  obtain ⟨start, rest, hstart, rfl⟩ := exists_project_prefix h.nodup h.complete hrun
  rw [actions_project] at ht
  rw [← exec_name]
  exact hr.global start rest hstart t (mem_on.mp ht)

theorem terminates_onName (hrun : ∀ t, actions run t <+: onName x seqs t) {e : Entry T}
    (he : performAll h run t = some e) : ∃ fuel bits, e.value.value (performAll h run) fuel = some bits := by
  obtain ⟨start, rest, hstart, rfl⟩ := exists_project_prefix h.nodup h.complete hrun
  rw [← exec_name] at he ⊢
  exact hr.terminates start rest hstart t e he

theorem reported_onName (hrun : Interleaves run (onName x seqs)) (hne : t ≠ u) (hmark : .markGlobal ∈ onName x seqs t)
    (ht : .define ∈ onName x seqs t) (hu : .define ∈ onName x seqs u) :
    ∃ e, (performAll h run t = some e ∨ performAll h run u = some e) ∧ e.state = .ExternalMultiple := by
  obtain ⟨whole, hwhole, rfl⟩ := exists_project h.nodup h.complete hrun
  rw [← exec_name]
  exact hr.reported whole hwhole t u hne (mem_on.mp hmark) (mem_on.mp ht) (mem_on.mp hu)

/-- With one export, definitions elsewhere are hidden or have no other beside them. -/
theorem one_export (ht : .markGlobal ∈ onName x seqs t) (hone : ∀ w, w ≠ t → .markGlobal ∉ onName x seqs w) (hu : u ≠ t)
    (hdefine : .define ∈ onName x seqs u) : .define ∉ onName x seqs t ∧ (onName x seqs u).getLast? ≠ some .define := by
  have hrun := (@interleaves_apart _ _ _ (onName x seqs) _ h.nodup h.complete t).1
  have hunreported : Unreported (performAll h (inTurn (onName x seqs) ((visit h.tree).erase t) ++
      block t (onName x seqs t))) := by
    refine unreported_last (fun p hp => ?_) _
    obtain ⟨hmem, hop⟩ := mem_inTurn.mp hp
    have hne := (h.nodup.mem_erase_iff.mp hmem).1
    exact ⟨hne, fun heq => hone p.1 hne (heq ▸ hop)⟩
  refine ⟨fun hdefine' => ?_, fun hlast => ?_⟩
  · obtain ⟨e, he, hstate⟩ := hr.reported_onName hrun hu.symm ht hdefine' hdefine
    obtain he | he := he
    · exact hunreported t e he hstate
    · exact hunreported u e he hstate
  · -- behind the export, the last definition of `u` is reported
    obtain ⟨before, hbefore⟩ := List.getLast?_eq_some_iff.mp hlast
    have hrun' := (@interleaves_apart _ _ _ (onName x seqs) _ h.nodup h.complete u).1
    have hsame := hr.same_onName hrun' hrun u
    have hsplit : inTurn (onName x seqs) ((visit h.tree).erase u) ++ block u (onName x seqs u) =
        inTurn (onName x seqs) ((visit h.tree).erase u) ++ block u before ++ [(u, .define)] := by
      rw [hbefore, block, List.map_append, ← List.append_assoc]
      rfl
    have hsingle : SingleExport h t
        (actions (inTurn (onName x seqs) ((visit h.tree).erase u) ++ block u before))
        (performAll h (inTurn (onName x seqs) ((visit h.tree).erase u) ++ block u before)) := by
      refine SingleExport.performAll fun w hw hmem => ?_
      obtain hmem | hmem := List.mem_append.mp hmem
      · exact hone w hw (mem_inTurn.mp hmem).2
      · obtain ⟨-, hop⟩ := mem_block.mp hmem
        exact hone u hu (by rw [hbefore]; exact List.mem_append_left _ hop)
    have hmark : .markGlobal ∈ actions (inTurn (onName x seqs) ((visit h.tree).erase u) ++ block u before) t := by
      rw [actions_append, actions_inTurn (h.nodup.erase u), if_pos (h.nodup.mem_erase_iff.mpr ⟨hu.symm, h.complete t⟩)]
      exact List.mem_append_left _ ht
    obtain ⟨e, he, hstate⟩ := hsingle.define_reported hmark hu
    rw [hsplit, performAll_concat, perform, he] at hsame
    cases he' : performAll h (inTurn (onName x seqs) ((visit h.tree).erase t) ++ block t (onName x seqs t)) u with
    | none =>
      rw [he'] at hsame
      cases hsame
    | some e' =>
      rw [he'] at hsame
      have heq : e.state = e'.state := congrArg Prod.fst (Option.some.inj hsame)
      exact hunreported u e' he' (heq.symm.trans hstate)

/-- With two exports, every table that uses the name exports it. -/
theorem exports_all {a b : T} (hab : a ≠ b) (ha : .markGlobal ∈ onName x seqs a) (hb : .markGlobal ∈ onName x seqs b)
    (ht : onName x seqs t ≠ []) : .markGlobal ∈ onName x seqs t := by
  by_contra hmark
  have hat : a ≠ t := fun heq => hmark (heq ▸ ha)
  have hbt : b ≠ t := fun heq => hmark (heq ▸ hb)
  obtain hnil | ⟨before, op, hops⟩ := (onName x seqs t).eq_nil_or_concat
  · exact ht hnil
  rw [List.concat_eq_append] at hops
  have hop : op ≠ .markGlobal := fun heq => hmark (by rw [hops, heq]; exact List.mem_append_right _ List.mem_cons_self)
  obtain ⟨hlast, hfirst⟩ := @interleaves_apart _ _ _ (onName x seqs) _ h.nodup h.complete t
  have hsplit : inTurn (onName x seqs) ((visit h.tree).erase t) ++ block t (onName x seqs t) =
      inTurn (onName x seqs) ((visit h.tree).erase t) ++ block t before ++ [(t, op)] := by
    rw [hops, block, List.map_append, ← List.append_assoc]
    rfl
  have helse {c : T} (hct : c ≠ t) (hc : .markGlobal ∈ onName x seqs c) :
      GlobalElsewhere (performAll h (inTurn (onName x seqs) ((visit h.tree).erase t) ++ block t before)) t c := by
    obtain ⟨e, he, hglobal⟩ := hr.global_onName (fun w => hlast.append_nil.isPrefix w) (by rw [hlast c]; exact hc)
    rw [hsplit, performAll_concat] at he
    exact ⟨hct, perform_global_of hct he hglobal⟩
  obtain ⟨e, he, hglobal⟩ := perform_global (h := h) hab (helse hat ha) (helse hbt hb) hop
  -- the same calls of `t` before all others
  have hsame := hr.same_onName hlast hfirst t
  rw [hsplit, performAll_concat, he] at hsame
  obtain ⟨e', he', hout⟩ := Option.map_eq_some_iff.mp hsame.symm
  have hglobal' : e'.binding = .Global := (congrArg Prod.snd hout).trans hglobal
  obtain ⟨e₀, he₀, hglobal₀⟩ := performAll_global_of (fun p hp heq => by
    obtain ⟨hmem, -⟩ := mem_inTurn.mp hp
    exact (h.nodup.mem_erase_iff.mp hmem).1 heq) he' hglobal'
  have hsingle : SingleExport h t (actions (block t (onName x seqs t))) (performAll h (block t (onName x seqs t))) :=
    SingleExport.performAll fun w hw hmem => hw (mem_block.mp hmem).1
  rw [hsingle.exporter e₀ he₀, actions_block, if_pos rfl] at hglobal₀
  rw [ownEntry, exportBinding, if_neg hmark] at hglobal₀
  cases hglobal₀

/-- With two exports, no table calls behind its own. -/
theorem exports_last (hut : u ≠ t) (hu : .markGlobal ∈ onName x seqs u) {before rest : List Operation}
    (hops : onName x seqs t = before ++ .markGlobal :: rest) : rest = [] := by
  cases rest with
  | nil => rfl
  | cons op rest =>
    exfalso
    obtain ⟨before', rest', hops', hbefore'⟩ := List.eq_append_cons_of_mem hu
    have hdone (w : T) : actions (block t (before ++ [Operation.markGlobal]) ++ block u before') w =
        if t = w then before ++ [Operation.markGlobal] else if u = w then before' else [] := by
      rw [actions_append, actions_block, actions_block]
      by_cases htw : t = w
      · have huw : ¬ u = w := fun huw => hut (huw.trans htw.symm)
        rw [if_pos htw, if_neg huw, if_pos htw, List.append_nil]
      · rw [if_neg htw, if_neg htw, List.nil_append]
    have hsingle : SingleExport h t (actions (block t (before ++ [Operation.markGlobal]) ++ block u before'))
        (performAll h (block t (before ++ [Operation.markGlobal]) ++ block u before')) := by
      refine SingleExport.performAll fun w hw hmem => ?_
      obtain hmem | hmem := List.mem_append.mp hmem
      · exact hw (mem_block.mp hmem).1
      · exact hbefore' (mem_block.mp hmem).2
    have hrivals := hsingle.rivals (by rw [hdone, if_pos rfl]; exact List.mem_append_right _ List.mem_cons_self) hut
      fun w hwt hwu => by rw [hdone, if_neg hwt.symm, if_neg hwu.symm]
    have hstate : performAll h (block t (before ++ [Operation.markGlobal]) ++ block u before' ++
        [(u, Operation.markGlobal)] ++ [(t, op)]) =
        perform h t op
          (markGlobal h u (performAll h (block t (before ++ [Operation.markGlobal]) ++ block u before'))) := by
      rw [performAll_concat, performAll_concat]
      rfl
    have hactions (w : T) :
        actions (block t (before ++ [Operation.markGlobal]) ++ block u before' ++ [(u, Operation.markGlobal)] ++
          [(t, op)]) w =
          if t = w then before ++ [Operation.markGlobal] ++ [op]
          else if u = w then before' ++ [Operation.markGlobal] else [] := by
      rw [actions_append, actions_append, hdone, actions_cons, actions_cons, actions_nil]
      by_cases htw : t = w
      · have huw : ¬ u = w := fun huw => hut (huw.trans htw.symm)
        simp only [htw, huw, if_true, if_false, List.append_nil]
      · simp only [htw, if_false, List.append_nil]
        by_cases huw : u = w
        · simp only [huw, if_true]
        · simp only [huw, if_false, List.append_nil]
    have hprefix (w : T) :
        actions (block t (before ++ [Operation.markGlobal]) ++ block u before' ++ [(u, Operation.markGlobal)] ++
          [(t, op)]) w <+: onName x seqs w := by
      rw [hactions]
      by_cases htw : t = w
      · subst htw
        rw [if_pos rfl, hops]
        exact ⟨rest, by simp⟩
      · rw [if_neg htw]
        by_cases huw : u = w
        · subst huw
          rw [if_pos rfl, hops']
          exact ⟨rest', by simp⟩
        · rw [if_neg huw]
          exact List.nil_prefix
    by_cases hop : op = .markGlobal
    · subst hop
      obtain ⟨⟨state, hst⟩, state', hsu⟩ := hrivals.loop hut
      obtain ⟨fuel, bits, hbits⟩ := hr.terminates_onName (t := t) hprefix (by rw [hstate]; exact hst)
      rw [hstate] at hbits
      have hloop := (value_loop hst hsu fuel).2
      exact absurd (hbits.symm.trans hloop) (by simp)
    · obtain ⟨e, he, himported⟩ := hrivals.lost hut hop
      obtain ⟨e', he', hglobal⟩ := hr.global_onName (t := t) hprefix (by
        rw [hactions, if_pos rfl]
        exact List.mem_append_left _ (List.mem_append_right _ List.mem_cons_self))
      rw [hstate, he] at he'
      cases he'
      rw [himported] at hglobal
      cases hglobal

end

end Resolves

/-- The resolution of a name is the same for all orders, and as it should be, exactly when its exports are settled. -/
theorem resolves_iff_settled (h : Hierarchy T) (seqs : T → List (Call Name)) (x : Name) :
    Resolves h seqs x ↔ Settled (onName x seqs) := by
  constructor
  · intro hr
    by_cases hnone : ∀ t, .markGlobal ∉ onName x seqs t
    · exact .inl hnone
    obtain ⟨t, ht⟩ := not_forall.mp hnone
    rw [not_not] at ht
    right
    by_cases hone : ∀ u, u ≠ t → .markGlobal ∉ onName x seqs u
    · refine .inl ⟨t, ht, fun u hu => ⟨hone u hu, ?_⟩⟩
      by_cases hdefine : .define ∈ onName x seqs u
      · exact .inr (hr.one_export ht hone hu hdefine)
      · exact .inl hdefine
    · right
      obtain ⟨u, himp⟩ := not_forall.mp hone
      obtain ⟨hut, hnot⟩ := Classical.not_imp.mp himp
      have hu := not_not.mp hnot
      intro w hw
      obtain ⟨before, rest, hops, hbefore⟩ := List.eq_append_cons_of_mem (hr.exports_all hut hu ht hw)
      have hrest : rest = [] := by
        by_cases hwt : w = t
        · subst hwt
          exact hr.exports_last hut hu hops
        · exact hr.exports_last (Ne.symm hwt) ht hops
      exact ⟨before, by rw [hops, hrest], hbefore⟩
  · intro hops
    obtain ⟨t, hsingle⟩ | ⟨hmany, htwo⟩ := hops.cases h.tree.value
    · exact resolves_single hsingle
    · exact resolves_many hmany htwo

/-- An operating system and a user program. -/
inductive Scope where
  | root | os | user
  deriving DecidableEq, Repr

def Scope.hierarchy : Hierarchy Scope where
  tree := .node .root [.node .os [], .node .user []]
  pointerSize := 2
  nodup := by decide
  complete t := by cases t <;> decide

/-- The user program defines the name that the operating system defines and exports. -/
def Scope.calls : Scope → List (Call Nat)
  | .root => []
  | .os => [⟨.define, 0⟩, ⟨.markGlobal, 0⟩]
  | .user => [⟨.define, 0⟩]

/-- When the user program is assembled first, nobody is told. -/
theorem not_resolves_user_first :
    ¬ Resolves Scope.hierarchy Scope.calls 0 ∧
      Interleaves [(Scope.user, ⟨.define, 0⟩), (.os, ⟨.define, 0⟩), (.os, ⟨.markGlobal, 0⟩)] Scope.calls ∧
      ∀ t e, exec Scope.hierarchy [(Scope.user, ⟨.define, 0⟩), (.os, ⟨.define, 0⟩), (.os, ⟨.markGlobal, 0⟩)] 0 t = some e →
        e.state ≠ .ExternalMultiple := by
  have hrun : Interleaves [(Scope.user, ⟨.define, 0⟩), (.os, ⟨.define, 0⟩), (.os, ⟨.markGlobal, 0⟩)] Scope.calls := by
    intro t
    cases t <;> rfl
  have hstate (t : Scope) (e : Entry Scope) (he : exec Scope.hierarchy [(Scope.user, ⟨.define, 0⟩), (.os, ⟨.define, 0⟩),
      (.os, ⟨.markGlobal, 0⟩)] 0 t = some e) : e.state ≠ .ExternalMultiple := by
    have hall : ∀ t, (exec Scope.hierarchy [(Scope.user, ⟨.define, 0⟩), (.os, ⟨.define, 0⟩),
        (.os, ⟨.markGlobal, 0⟩)] 0 t).all (fun e => e.state ≠ .ExternalMultiple) = true := by
      intro t
      cases t <;> decide
    have := hall t
    rw [he] at this
    exact of_decide_eq_true this
  refine ⟨fun hr => ?_, hrun, hstate⟩
  obtain ⟨e, he, hreported⟩ := hr.reported _ hrun .os .user (by decide) (by decide) (by decide) (by decide)
  obtain he | he := he
  · exact hstate _ e he hreported
  · exact hstate _ e he hreported

end Pepp.Symbol
