import Pepp.Tvm.Emission

/-!
# Stencils

A body seen for the second time moves to the stencil chain, and from then on it
is called. A body whose hash is taken by another stays where it is.
-/

namespace Pepp.Tvm

open Bts Outcome BufferManager

namespace TraceBuffer

variable {self self' : TraceBuffer} (hash : List U8 → U32) {body : List U8}

/-- The body is worth a stencil now: it was seen once and its hash is free. -/
def Promotes (self : TraceBuffer) (body : List U8) : Prop :=
  body ≠ [] ∧ self.stencilMap (hash body) = none ∧ hash body ∈ self.pendingHashes ∧ PROMOTION_THRESHOLD ≤ body.length

/-- A commit of the body calls it. -/
def Calls (self : TraceBuffer) (body : List U8) : Prop :=
  body ≠ [] ∧ (∃ entry, self.stencilMap (hash body) = some entry ∧ self.stencilMatches entry body = true) ∨
    Promotes hash self body

instance : Decidable (Promotes hash self body) := inferInstanceAs (Decidable (_ ∧ _ ∧ _ ∧ _))

instance : Decidable (Calls hash self body) :=
  decidable_of_iff (body ≠ [] ∧ (self.stencilMap (hash body)).any (fun entry => self.stencilMatches entry body) = true ∨
    Promotes hash self body) (by simp [Calls, Option.any_eq_true])

/-- What a promotion costs in buffers. -/
def promotionCost (self : TraceBuffer) (body : List U8) : Nat :=
  if Promotes hash self body then
    cost (BufferChain.room (self.mgr, self.stencils)) [body.length, EncodedOp.ret0.length]
  else 0

/-- The tables of the promotion change. -/
theorem consistent_tables (h : Consistent self) {map : U32 → Option StencilEntry} {pending : List U32}
    {footprint : Footprint} (hm : ∀ k entry, map k = some entry → Promoted self entry) :
    Consistent { self with stencilMap := map, pendingHashes := pending, footprint := footprint } :=
  ⟨h.sound, ⟨h.storage.wf, h.storage.live, h.storage.nodup, h.storage.disjoint⟩, h.located, hm, h.tombstone, h.ident,
    h.opened⟩

theorem still_tables (h : Consistent self) {map : U32 → Option StencilEntry} {pending : List U32}
    {footprint : Footprint} (hm : ∀ k entry, self.stencilMap k = some entry →
      ∃ entry', map k = some entry' ∧ entry'.location = entry.location ∧ entry'.size = entry.size) :
    Still self { self with stencilMap := map, pendingHashes := pending, footprint := footprint } :=
  ⟨rfl, rfl, rfl, rfl, fun _ => rfl, fun _ => rfl, h.storage.extends_refl, hm, fun _ _ hc => hc, fun _ _ _ => rfl⟩

/-- A promoted body that matches is the one that lies there. -/
theorem Promoted.matches {tb : TraceBuffer} {entry : StencilEntry} (h : Promoted tb entry)
    (hm : tb.stencilMatches entry body = true) : Holds tb .stencils entry.location body ∧
      (body.length + EncodedOp.ret0.length ≤ SIZE → Holds tb .stencils entry.location (body ++ EncodedOp.ret0)) := by
  obtain ⟨stored, hs, hb, hr⟩ := h
  have he : stored = body := by
    have := hb.2.bytes
    rw [hs] at this
    rw [stencilMatches, decide_eq_true_eq, stencilBody, this] at hm
    exact hm
  exact he ▸ ⟨hb, hr⟩

/-- Where a body is found or put, and what that leaves behind. -/
structure Resolved (body : List U8) (resolution : BodyResolution) (tb tb' : TraceBuffer) : Prop where
  calls : resolution.isStencil = true ↔ Calls hash tb body
  consistent : Consistent tb'
  still : Still tb tb'
  books : SameBooks tb tb'
  locations : SameLocations tb tb'
  location : resolution.isStencil = true → Holds tb' .stencils resolution.location body ∧
    (body.length + EncodedOp.ret0.length ≤ SIZE → Holds tb' .stencils resolution.location (body ++ EncodedOp.ret0))
  others : ∀ name, name ≠ .stencils → tb'.chain name = tb.chain name ∧
    ∀ id ∈ (tb.chain name).bufs, tb'.mgr.deref id = tb.mgr.deref id
  spent : tb'.mgr.available + promotionCost hash tb body = tb.mgr.available
  size_le : Promotes hash tb body → body.length ≤ SIZE

/-- Reserving, filling and closing a promoted body is one series of appends. -/
theorem promote_eq {α : Type} (hb : body ≠ []) (f : Location → TraceM α) :
    (do
      onChain .stencils (BufferChain.ensureCapacity (body.length + EncodedOp.ret0.length))
      let loc ← onChain .stencils (BufferChain.reserve body.length)
      onChain .stencils (BufferChain.fill loc body)
      let _ ← onChain .stencils (BufferChain.append EncodedOp.ret0)
      f loc) =
    (do
      let start ← onChain .stencils (BufferChain.storeParts [body, EncodedOp.ret0])
      f (start.getD Location.null)) := by
  have hret : EncodedOp.ret0 ≠ [] := by decide
  have hfill := BufferChain.reserve_fill body
  unfold BufferChain.storeParts
  simp only [BufferChain.appendParts, hb, hret, if_false, List.flatten_cons, List.flatten_nil, List.append_nil,
    List.length_append, onChain_bind, onChain_pure, bind_assoc, pure_bind, Option.getD_some, ← hfill]

/-- A resolution that leaves the chains alone. -/
theorem resolved_tables (h : Consistent self) {resolution : BodyResolution} {map : U32 → Option StencilEntry}
    {pending : List U32} (hno : ¬ Promotes hash self body)
    (hcalls : resolution.isStencil = true ↔ Calls hash self body)
    (hpro : ∀ k entry, map k = some entry → Promoted self entry)
    (hmap : ∀ k entry, self.stencilMap k = some entry →
      ∃ entry', map k = some entry' ∧ entry'.location = entry.location ∧ entry'.size = entry.size)
    (hloc : resolution.isStencil = true → Holds self .stencils resolution.location body ∧
      (body.length + EncodedOp.ret0.length ≤ SIZE → Holds self .stencils resolution.location (body ++ EncodedOp.ret0))) :
    Resolved hash body resolution self { self with stencilMap := map, pendingHashes := pending } where
  calls := hcalls
  consistent := consistent_tables h hpro
  still := still_tables h hmap
  books := by constructor <;> intros <;> rfl
  locations _ := ⟨rfl, fun _ _ => rfl⟩
  location := hloc
  others name _ := ⟨by cases name <;> rfl, fun _ _ => rfl⟩
  spent := by simp only [promotionCost, if_neg hno, Nat.add_zero]
  size_le hp := absurd hp hno

/-- A promotion, once the body and its `RET` are in the stencil chain. -/
theorem resolved_promotion (h : Consistent self) (hp : Promotes hash self body) {t : TraceBuffer} {loc : Location}
    (hstep : ChainStep .stencils self t) (hid : loc.id ∈ t.stencils.bufs)
    (hav : t.mgr.available + promotionCost hash self body = self.mgr.available) (hle : body.length ≤ SIZE)
    (hst : Stored t.mgr loc body)
    (hret : body.length + EncodedOp.ret0.length ≤ SIZE → Stored t.mgr loc (body ++ EncodedOp.ret0))
    (footprint : Footprint) :
    Resolved hash body ⟨true, loc⟩ self { t with
      footprint := footprint
      stencilMap := fun k => if k = hash body then some ⟨loc, body.length, 2⟩ else t.stencilMap k
      pendingHashes := t.pendingHashes.erase (hash body) } := by
  have ht := hstep.consistent h
  have hnew : Promoted t ⟨loc, body.length, 2⟩ := ⟨body, rfl, ⟨hid, hst⟩, fun hl => ⟨hid, hret hl⟩⟩
  have hmap : ∀ k entry, t.stencilMap k = some entry → ∃ entry',
      (if k = hash body then some ⟨loc, body.length, 2⟩ else t.stencilMap k) = some entry' ∧
        entry'.location = entry.location ∧ entry'.size = entry.size := by
    intro k entry hk
    have hne : k ≠ hash body := by
      rintro rfl
      rw [hstep.stencilMap, hp.2.1] at hk
      contradiction
    exact ⟨entry, by rw [if_neg hne, hk], rfl, rfl⟩
  have hs : Still t { t with
      stencilMap := fun k => if k = hash body then some ⟨loc, body.length, 2⟩ else t.stencilMap k
      pendingHashes := t.pendingHashes.erase (hash body)
      footprint := footprint } := still_tables ht hmap
  refine ⟨⟨fun _ => .inr hp, fun _ => rfl⟩, consistent_tables ht fun k entry hk => ?_, ?_, ?_, hstep.locations,
    fun _ => ⟨⟨hid, hst⟩, fun hl => ⟨hid, hret hl⟩⟩, fun name hne => ⟨?_, hstep.others name hne⟩, hav, fun _ => hle⟩
  · split at hk
    · exact Option.some.inj hk ▸ hnew
    · exact ht.stencils k entry hk
  · have h₁ := hstep.still
    exact ⟨h₁.ringSize, h₁.head, h₁.tail, h₁.tombstone, h₁.slot, h₁.count, h₁.extends_.trans hs.extends_,
      fun k entry hk => hmap k entry (hstep.stencilMap ▸ hk), h₁.claims, h₁.entries⟩
  · have hb := hstep.books
    exact ⟨hb.ringSize, hb.head, hb.tail, hb.recordings, hb.tombstone, hb.watermarks, hb.slot, hb.locations, hb.count,
      hb.open_⟩
  · refine Eq.trans ?_ (hstep.chain_of_ne hne)
    cases name <;> rfl

/-- Either the body is resolved, or it was to be promoted and there was no room for that. -/
theorem resolveBody_meets (h : Consistent self) (body : List U8) :
    Meets (resolveBody hash body) self fun r self' =>
      match r with
      | .ok resolution => Resolved hash body resolution self self'
      | .error _ => ChainStep .stencils self self' ∧ Promotes hash self body ∧
          (self.mgr.available < promotionCost hash self body ∨ SIZE < body.length) := by
  have hgrow : ∀ k entry, self.stencilMap k = some entry →
      ∃ entry', self.stencilMap k = some entry' ∧ entry'.location = entry.location ∧ entry'.size = entry.size :=
    fun _ entry hk => ⟨entry, hk, rfl, rfl⟩
  have hinline : ∀ {pending : List U32}, ¬ Calls hash self body →
      Resolved hash body ⟨false, Location.null⟩ self { self with pendingHashes := pending } := fun hno =>
    resolved_tables hash h (fun hp => hno (.inr hp)) (by simp [hno]) h.stencils hgrow (by simp)
  unfold resolveBody
  apply meets_get
  by_cases hb : body = []
  · rw [if_pos hb]
    exact meets_pure (hinline (by simp [Calls, Promotes, hb]))
  rw [if_neg hb]
  dsimp only
  cases hm : self.stencilMap (hash body) with
  | some entry =>
    have hno : ¬ Promotes hash self body := by simp [Promotes, hm]
    dsimp only
    by_cases hmatch : self.stencilMatches entry body = true
    · rw [if_pos hmatch]
      have hloc := Promoted.matches (h.stencils _ _ hm) hmatch
      refine meets_bind (meets_set (meets_pure (resolved_tables hash h hno ?_ (fun k e hk => ?_) (fun k e hk => ?_) fun _ => hloc)))
      · exact ⟨fun _ => .inl ⟨hb, entry, hm, hmatch⟩, fun _ => rfl⟩
      · split at hk
        · obtain ⟨stored, hs⟩ := h.stencils _ _ hm
          exact Option.some.inj hk ▸ ⟨stored, hs⟩
        · exact h.stencils k e hk
      · by_cases hk' : k = hash body
        · subst hk'
          cases hm.symm.trans hk
          exact ⟨_, if_pos rfl, rfl, rfl⟩
        · exact ⟨e, by rw [if_neg hk', hk], rfl, rfl⟩
    · rw [if_neg hmatch]
      refine meets_pure (hinline ?_)
      rintro (⟨-, e, he, hme⟩ | hp)
      · rw [hm, Option.some.injEq] at he
        exact hmatch (he ▸ hme)
      · exact hno hp
  | none =>
    dsimp only
    by_cases hpend : hash body ∈ self.pendingHashes
    · rw [if_pos hpend]
      by_cases hlen : PROMOTION_THRESHOLD ≤ body.length
      · rw [if_pos hlen, promote_eq hb]
        have hp : Promotes hash self body := ⟨hb, hm, hpend, hlen⟩
        have hcost : promotionCost hash self body =
            cost (BufferChain.room (self.mgr, self.stencils)) [body.length, EncodedOp.ret0.length] := if_pos hp
        apply meets_bind
        have hne : [body, EncodedOp.ret0].flatten ≠ [] := by simp [hb]
        refine (onChain_meets h.storage (BufferChain.storeParts_meets (h.storage.owns .stencils) hne)).mono
          fun r t ht => ?_
        obtain ⟨hstep, ht⟩ := ht
        cases r with
        | error e =>
          refine ⟨hstep, hp, ht.imp (fun hav => hcost ▸ hav) ?_⟩
          rintro ⟨part, hpart, hlt⟩
          simp only [List.mem_cons, List.not_mem_nil, or_false] at hpart
          rcases hpart with rfl | rfl
          · exact hlt
          · exact absurd hlt (by decide)
        | ok start =>
          obtain ⟨loc, rfl, hid, hav, hle, hst, hfirst⟩ := ht
          refine meets_get (meets_bind (meets_set (meets_pure (resolved_promotion hash h hp hstep hid (hcost ▸ hav)
            (hle body (by simp)) (hfirst _ _ rfl hb) (fun hl => ?_) _))))
          simpa using hst (by simpa using hl)
      · rw [if_neg hlen]
        refine meets_pure (hinline ?_)
        rintro (⟨-, e, he, -⟩ | hp)
        · rw [hm] at he
          contradiction
        · exact hlen hp.2.2.2
    · rw [if_neg hpend]
      refine meets_bind (meets_set (meets_pure (hinline ?_)))
      rintro (⟨-, e, he, -⟩ | hp)
      · rw [hm] at he
        contradiction
      · exact hpend hp.2.2.1

end TraceBuffer

end Pepp.Tvm
