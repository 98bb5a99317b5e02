import Sglang.MemCache.MultiEndedFlush

/-!
# Calls on One End of a Two-Ended Pool

- `EndOp.step`: one call on a `MultiEndedAllocator`,
- `EndOp.Admissible`: what the callers promise,
- `EndOp.Safe`: a flush does not replace an entry of `_pending_reuse`,
- `Called`: what a call does to the pages behind the virtual pages,
- `EndInv.step`: an admissible and safe call returns, keeps the invariant of the band, and does
  just that.
-/

namespace Sglang.MemCache

open List Option
open Lib
open MultiEndedAllocator

variable {cfg : EndConfig} {s t : MultiEndedAllocator} {live : List Int}

/-! ## Section 1: Calls -/

/-- A call on the allocator. The frontiers are those of the peer, the queries the answers of the
forward events during the call. -/
inductive EndOp where
  | alloc (peer flushed : Option Int) (needSize : Nat)
  | allocExtend (peer flushed : Option Int) (reqs : List Allocator.ExtendReq)
  | allocDecode (peer flushed : Option Int) (reqs : List Allocator.ExtendReq)
  | allocWithVirtual (peer : Option Int) (virtualPages : List Nat)
  | free (freeIndex : List Nat)
  | freeGroupBegin
  | freeGroupEnd
  | maybeDrainPendingReuse (query : Event → Bool)
  | flushOpportunistic (q : Queries)
  /-- `_flush(urgent=True)`, called by the peer that runs short. -/
  | flushUrgent (q : Queries)
  | setLatestForwardDoneEvent (event : Option Event)
  | setInflightForward (event : Event) (tokens : List Nat)

namespace EndOp

variable (cfg : EndConfig)

/-- The state after a call, and the pages it copied. An allocation whose assertion fails has not
changed anything before. -/
def step (s : MultiEndedAllocator) : EndOp → Option (MultiEndedAllocator × List Move)
  | .alloc peer flushed needSize =>
    some (((s.alloc cfg peer flushed needSize).map Prod.fst).getD s, [])
  | .allocExtend peer flushed reqs =>
    some (((s.allocExtend cfg peer flushed reqs).map Prod.fst).getD s, [])
  | .allocDecode peer flushed reqs =>
    some (((s.allocDecode cfg peer flushed reqs).map Prod.fst).getD s, [])
  | .allocWithVirtual peer virtualPages =>
    some ((s.allocWithVirtual cfg peer virtualPages).getD s, [])
  | .free freeIndex => s.free cfg freeIndex
  | .freeGroupBegin => some (s.freeGroupBegin, [])
  | .freeGroupEnd => s.freeGroupEnd cfg
  | .maybeDrainPendingReuse query => some (s.maybeDrainPendingReuse cfg query, [])
  | .flushOpportunistic q => s.flushOpportunistic cfg q
  | .flushUrgent q => s.flush cfg q true
  | .setLatestForwardDoneEvent event => some (s.setLatestForwardDoneEvent event, [])
  | .setInflightForward event tokens => some (s.setInflightForward cfg event tokens, [])

/-- What the caller promises: it frees live pages, no page twice, and gives `alloc_with_virtual`
virtual pages that this end does not hold. -/
def Admissible (s : MultiEndedAllocator) : EndOp → Prop
  | .free freeIndex =>
    s.Freeable cfg (if s.inFreeGroup then s.freeGroup.flatten ++ freeIndex else freeIndex)
  | .allocWithVirtual _ virtualPages =>
    cfg.isIdOwner = false ∧ virtualPages.Nodup ∧
      ∀ v ∈ virtualPages, s.virtualToPhysical v = none
  | _ => True

/-- The call does not move pages under an event that has an entry already and has not fired. -/
def Safe (s : MultiEndedAllocator) : EndOp → Prop
  | .flushOpportunistic q => s.overwrites cfg q = false
  | _ => True

instance (s : MultiEndedAllocator) (v : Nat) : Decidable (s.Bound v) :=
  inferInstanceAs (Decidable (_ ∧ _))

instance (s : MultiEndedAllocator) (freeIndex : List Nat) :
    Decidable (s.Freeable cfg freeIndex) :=
  decidable_of_iff ((∀ x ∈ freeIndex, s.Bound (x / cfg.pageSize)) ∧
      (cfg.pageSize = 1 → freeIndex.Nodup))
    ⟨fun h => ⟨h.1, h.2⟩, fun h => ⟨h.bound, h.nodup⟩⟩

instance decidableAdmissible (s : MultiEndedAllocator) : DecidablePred (Admissible cfg s)
  | .free freeIndex =>
    inferInstanceAs (Decidable (s.Freeable cfg
      (if s.inFreeGroup then s.freeGroup.flatten ++ freeIndex else freeIndex)))
  | .allocWithVirtual _ virtualPages =>
    inferInstanceAs (Decidable (_ ∧ virtualPages.Nodup ∧
      ∀ v ∈ virtualPages, s.virtualToPhysical v = none))
  | .alloc .. | .allocExtend .. | .allocDecode .. | .freeGroupBegin | .freeGroupEnd
  | .maybeDrainPendingReuse _ | .flushOpportunistic _ | .flushUrgent _
  | .setLatestForwardDoneEvent _ | .setInflightForward .. => isTrue trivial

instance decidableSafe (s : MultiEndedAllocator) : DecidablePred (Safe cfg s)
  | .flushOpportunistic q => inferInstanceAs (Decidable (s.overwrites cfg q = false))
  | .alloc .. | .allocExtend .. | .allocDecode .. | .allocWithVirtual .. | .free _
  | .freeGroupBegin | .freeGroupEnd | .maybeDrainPendingReuse _ | .flushUrgent _
  | .setLatestForwardDoneEvent _ | .setInflightForward .. => isTrue trivial

end EndOp

/-! ## Section 2: The pages behind virtual pages -/

/-- The pages behind virtual pages that stay bound are those from before, or those that the moves
copy to. -/
structure Carries (f f' : Nat → Option Int) (moves : List Move) : Prop where
  dst_nodup : (moves.map Move.dst).Nodup
  apart : ∀ m ∈ moves, m.src ∉ moves.map Move.dst
  page : ∀ v p p', f v = some p → f' v = some p' →
    (p' = p ∧ p ∉ moves.map Move.dst) ∨ ∃ m ∈ moves, m.src = p ∧ m.dst = p'

theorem Carries.of_nil {f f' : Nat → Option Int}
    (h : ∀ v p p', f v = some p → f' v = some p' → p' = p) : Carries f f' [] :=
  ⟨by simp, by simp, fun v p p' hp hp' => .inl ⟨h v p p' hp hp', by simp⟩⟩

theorem Carries.of_eq {f f' : Nat → Option Int} (h : f' = f) : Carries f f' [] := by
  apply Carries.of_nil
  intro v p p' hp hp'
  rw [h, hp] at hp'
  exact (Option.some.inj hp').symm

/-- The moves of `Relocates` carry the pages of the virtual pages that were not freed before. -/
theorem Relocates.carries {f f₀ f' : Nat → Option Int} {moves : List Move}
    (h : Relocates f₀ f' moves) (hfreed : ∀ v, f₀ v = f v ∨ f₀ v = none) : Carries f f' moves := by
  refine ⟨h.dst_nodup, ?_, ?_⟩
  · intro m hm hmem
    obtain ⟨m', hm', heq⟩ := List.mem_map.mp hmem
    apply h.vacant m' hm' m.virt
    rw [heq]
    exact h.bound m hm
  · intro v p p' hp hp'
    have hstays : f₀ v = some p := by
      rcases hfreed v with heq | hnone
      · rw [heq, hp]
      · -- a freed virtual page stays free
        have := (h.isSome_iff v).mp (by rw [hp']; rfl)
        rw [hnone] at this
        cases this
    rw [h.table] at hp'
    rcases scatter_cases (moves.map fun m => (m.virt, some m.dst)) (t := f₀) v with ⟨_, heq⟩ | hmem
    · rw [heq, hstays] at hp'
      cases hp'
      refine .inl ⟨rfl, fun hmem => ?_⟩
      obtain ⟨m, hm, rfl⟩ := List.mem_map.mp hmem
      exact h.vacant m hm v hstays
    · rw [hp'] at hmem
      obtain ⟨m, hm, heq⟩ := List.mem_map.mp hmem
      simp only [Prod.mk.injEq, Option.some.injEq] at heq
      obtain ⟨rfl, rfl⟩ := heq
      refine .inr ⟨m, hm, ?_, rfl⟩
      have := h.bound m hm
      rw [hstays] at this
      exact (Option.some.inj this).symm

/-! ## Section 3: What a call does to the pages -/

namespace EndOp

variable (cfg : EndConfig)

/-- The pages that the forward in flight may write while the copies of a call run. An urgent flush
waits for the forward, so what it writes is written before. -/
def racing (s : MultiEndedAllocator) : EndOp → List Int
  | .flushUrgent q =>
    if s.latestForwardDoneEvent.isSome then [] else (s.materializeInflightWriteSet cfg q.write).1
  | .flushOpportunistic q => (s.materializeInflightWriteSet cfg q.write).1
  | _ => (s.materializeInflightWriteSet cfg fun _ => false).1

def freed (s : MultiEndedAllocator) : EndOp → List Nat
  | .free freeIndex => if s.inFreeGroup then [] else freeIndex
  | .freeGroupEnd => s.freeGroup.flatten
  | _ => []

/-- The answers of the events that a call asks. -/
def asks : EndOp → Event → Bool
  | .maybeDrainPendingReuse query, e => query e
  | .flushOpportunistic q, e => q.drain e || q.write e || q.commit e
  | .flushUrgent q, e => q.drain e || q.write e || q.commit e
  | _, _ => false

/-- The events that the stream waits for in a call: an urgent flush waits for the readers of the
pages it drains, and for the forward in flight if it is to pack the band. -/
def waits (s : MultiEndedAllocator) : EndOp → List Event
  | .flushUrgent q =>
    if cfg.lazyCompaction then
      s.pendingReuse.map Prod.fst ++
        if (s.flushPrepare cfg q true).freePhysPages = [] then []
        else s.latestForwardDoneEvent.toList
    else []
  | _ => []

/-- Eager compaction waits for the whole forward stream. -/
def waitsAll (s : MultiEndedAllocator) (op : EndOp) : Bool :=
  !cfg.lazyCompaction && op.freed s ≠ []

/-- The two calls that announce a forward. -/
def setsEvents : EndOp → Bool
  | .setLatestForwardDoneEvent _ => true
  | .setInflightForward .. => true
  | _ => false

end EndOp

/-- The effect of a call from `s` to `t`. -/
structure Called (cfg : EndConfig) (s : MultiEndedAllocator) (op : EndOp) (t : MultiEndedAllocator)
    (moves : List Move) : Prop where
  carries : Carries s.virtualToPhysical t.virtualToPhysical moves
  /-- A page that a free virtual page is bound to was not in use. -/
  fresh : ∀ v p, s.virtualToPhysical v = none → t.virtualToPhysical v = some p →
    p ≠ 0 ∧ (∀ w, s.virtualToPhysical w ≠ some p) ∧ p ∉ s.pendingPages
  /-- A page that stops backing a virtual page that stays bound waits for the latest event. -/
  held : ∀ v p, s.virtualToPhysical v = some p → (∀ x ∈ op.freed s, x / cfg.pageSize ≠ v) →
    t.virtualToPhysical v = some p ∨ op.waitsAll cfg s = true ∨
      (∃ e, s.latestForwardDoneEvent = some e ∧ (op.asks e = true ∨ e ∈ op.waits cfg s ∨
        ∃ l, (e, l) ∈ t.pendingReuse ∧ p ∈ l)) ∨ s.latestForwardDoneEvent = none
  pending : ∀ x ∈ s.pendingReuse, x ∈ t.pendingReuse ∨ op.asks x.1 = true ∨ x.1 ∈ op.waits cfg s
  unraced : (s.inflightForward.isSome → s.latestForwardDoneEvent.isSome) →
    (cfg.lazyCompaction = false → s.inflightForward = none) →
    ∀ m ∈ moves, m.src ∉ op.racing cfg s ∧ m.dst ∉ op.racing cfg s
  latest : op.setsEvents = false → t.latestForwardDoneEvent = s.latestForwardDoneEvent
  inflight : op.setsEvents = false → t.inflightForward = s.inflightForward ∨
    t.inflightForward = none

/-! ## Section 4: The calls one by one -/

section Calls

theorem Called.quiet (op : EndOp) (hv2p : t.virtualToPhysical = s.virtualToPhysical)
    (hpend : t.pendingReuse = s.pendingReuse)
    (hevents : op.setsEvents = false → t.latestForwardDoneEvent = s.latestForwardDoneEvent ∧
      t.inflightForward = s.inflightForward) : Called cfg s op t [] where
  carries := Carries.of_eq hv2p
  fresh := fun v p hnone hp => by
    rw [hv2p, hnone] at hp
    cases hp
  held := fun v p hp _ => .inl (by rw [hv2p, hp])
  pending := fun x hx => .inl (by rw [hpend]; exact hx)
  unraced := fun _ _ => by simp
  latest := fun hop => (hevents hop).1
  inflight := fun hop => .inl (hevents hop).2

theorem Purchase.called {vs : List Nat} {drained new : List Int}
    (hbuy : Purchase cfg s t vs drained new) (h : BandInv cfg s live) (op : EndOp) :
    Called cfg s op t [] := by
  obtain ⟨hunbound, hlen, t₀, htaken, ht⟩ := hbuy
  have hpend : t.pendingReuse = s.pendingReuse := by rw [ht, MultiEndedAllocator.bind, htaken.frame]
  have hv2p : t.virtualToPhysical =
      scatter s.virtualToPhysical (vs.zip ((drained ++ new).map some)) := by
    rw [ht, MultiEndedAllocator.bind, htaken.frame]
  obtain ⟨hband, hwm⟩ := h.taken_fresh htaken
  -- a bound virtual page is not written
  have hstay : ∀ v p, s.virtualToPhysical v = some p → t.virtualToPhysical v = some p := by
    intro v p hp
    rw [hv2p, scatter_of_not_mem]
    · exact hp
    · intro hmem
      obtain ⟨w, hw, rfl⟩ := List.mem_map.mp hmem
      rw [hunbound _ (of_mem_zip hw).1] at hp
      cases hp
  refine ⟨Carries.of_nil ?_, ?_, fun v p hp _ => .inl (hstay v p hp), fun x hx => ?_,
    fun _ _ => by simp, fun _ => ?_, fun _ => .inl ?_⟩
  · intro v p p' hp hp'
    rw [hstay v p hp] at hp'
    exact (Option.some.inj hp').symm
  · intro v p hnone hp
    have hmem : p ∈ drained ++ new := by
      rw [hv2p] at hp
      rcases scatter_cases (vs.zip ((drained ++ new).map some)) (t := s.virtualToPhysical) v with
        ⟨_, heq⟩ | hmem
      · rw [heq, hnone] at hp
        cases hp
      · rw [hp] at hmem
        obtain ⟨q, hq, heq⟩ := List.mem_map.mp (of_mem_zip hmem).2
        rwa [← Option.some.inj heq]
    have hnodup := hband.nodup
    rw [append_assoc, append_assoc] at hnodup
    obtain ⟨_, hrest, hlive⟩ := nodup_append.mp hnodup
    obtain ⟨_, _, hother⟩ := nodup_append.mp hrest
    have hne : p ≠ 0 := hband.ne_zero hwm (by simp only [mem_append] at hmem ⊢; tauto)
    refine ⟨hne, ?_, ?_⟩
    · intro w hw
      by_cases hz : w = 0
      · rw [hz, h.anchor] at hw
        exact hne (Option.some.inj hw).symm
      · exact hlive p (h.live_of_bound hz hw) p (mem_append_left _ hmem) rfl
    · intro hpend
      exact hother p hmem p (mem_append_right _ hpend) rfl
  · rw [hpend]
    exact .inl hx
  · rw [ht, MultiEndedAllocator.bind, htaken.frame]
  · rw [ht, MultiEndedAllocator.bind, htaken.frame]

theorem called_of_paid {peer flushed : Option Int} {n : Nat} {out : Option (List Nat)}
    (h : BandInv cfg s live) (hpaid : Paid cfg s t peer flushed n out) (op : EndOp) :
    Called cfg s op t [] := by
  rcases hpaid with ⟨rfl, _⟩ | ⟨_, _, _, hbuy, _⟩
  · exact Called.quiet op rfl rfl fun _ => ⟨rfl, rfl⟩
  · exact hbuy.called h op

theorem called_drain (query : Event → Bool) :
    Called cfg s (.maybeDrainPendingReuse query) (s.maybeDrainPendingReuse cfg query) [] := by
  have hframe : s.maybeDrainPendingReuse cfg query = { s with
      freePhysPages := (s.maybeDrainPendingReuse cfg query).freePhysPages
      pendingReuse := (s.maybeDrainPendingReuse cfg query).pendingReuse
      pendingReusePagesCpu := (s.maybeDrainPendingReuse cfg query).pendingReusePagesCpu } := by
    unfold maybeDrainPendingReuse drainPendingReuse
    dsimp only
    split
    · rfl
    · split <;> rfl
  have hv2p : (s.maybeDrainPendingReuse cfg query).virtualToPhysical = s.virtualToPhysical := by
    rw [hframe]
  refine ⟨Carries.of_eq hv2p, ?_, fun v p hp _ => .inl (by rw [hv2p, hp]), ?_, fun _ _ => by simp,
    fun _ => by rw [hframe], fun _ => .inl (by rw [hframe])⟩
  · intro v p hnone hp
    rw [hv2p, hnone] at hp
    cases hp
  · intro x hx
    unfold maybeDrainPendingReuse drainPendingReuse
    dsimp only
    split
    · exact .inl hx
    · split
      · exact .inl hx
      · cases hq : query x.1 with
        | true => exact .inr (.inl hq)
        | false => exact .inl (mem_filter.mpr ⟨hx, by simp [hq]⟩)

theorem freeLazy_frame {idx : List Nat} (heq : s.freeLazy cfg idx = some t) :
    t.pendingReuse = s.pendingReuse ∧ t.latestForwardDoneEvent = s.latestForwardDoneEvent ∧
      t.inflightForward = s.inflightForward ∧ t.watermark = s.watermark ∧
      t.inFreeGroup = s.inFreeGroup := by
  unfold freeLazy at heq
  simp only [bind_eq_bind, bind_eq_some_iff] at heq
  obtain ⟨ps, _, heq⟩ := heq
  cases heq
  exact ⟨rfl, rfl, rfl, rfl, rfl⟩

theorem freeEager_frame {idx : List Nat} {moves : List Move}
    (heq : s.freeEager cfg idx = some (t, moves)) :
    t.pendingReuse = s.pendingReuse ∧ t.latestForwardDoneEvent = s.latestForwardDoneEvent ∧
      t.inflightForward = s.inflightForward ∧ cfg.key t.watermark ≤ cfg.key s.watermark ∧
      t.inFreeGroup = s.inFreeGroup := by
  unfold freeEager at heq
  simp only [bind_eq_bind, bind_eq_some_iff] at heq
  obtain ⟨ps, _, heq⟩ := heq
  unfold compactPending at heq
  dsimp only at heq
  by_cases hk : ps.dedup.length = 0
  · rw [if_pos hk] at heq
    cases heq
    exact ⟨rfl, rfl, rfl, le_refl _, rfl⟩
  · rw [if_neg hk, ite_none_left_eq_some] at heq
    obtain ⟨_, heq⟩ := heq
    simp only [bind_eq_bind, bind_eq_some_iff] at heq
    obtain ⟨vs, _, heq⟩ := heq
    cases heq
    refine ⟨rfl, rfl, rfl, ?_, rfl⟩
    have hkey : cfg.key (cfg.growDirection.retreat s.watermark ps.dedup.length) =
        cfg.key s.watermark - ps.dedup.length := cfg.growDirection.key_retreat _ _
    change cfg.key (cfg.growDirection.retreat s.watermark ps.dedup.length) ≤ _
    omega

end Calls

namespace EndInv

theorem setGroup (h : EndInv cfg s live) {inGroup : Bool} {group : List (List Nat)}
    (hgroup : inGroup = false → group = []) (hfree : s.Freeable cfg group.flatten) :
    EndInv cfg { s with inFreeGroup := inGroup, freeGroup := group } live :=
  { watermark := h.watermark
    band := h.band
    inverse := h.inverse
    live_iff := h.live_iff
    anchor := h.anchor
    pending_cpu := h.pending_cpu
    events_nodup := h.events_nodup
    count := h.count
    eager := h.eager
    sorted := h.sorted
    virtualIds := fun ho => ⟨(h.virtualIds ho).nodup, (h.virtualIds ho).unbound,
      (h.virtualIds ho).length⟩
    group := hgroup
    grouped := ⟨hfree.bound, hfree.nodup⟩ }

theorem free (h : EndInv cfg s live) {idx : List Nat} (hfree : s.Freeable cfg idx) (op : EndOp)
    (hop : op.freed s = idx) (hrace : s.inflightForward = none → op.racing cfg s = []) :
    ∃ r live', { s with inFreeGroup := false, freeGroup := [] }.free cfg idx = some r ∧
      EndInv cfg r.1 live' ∧ Called cfg s op r.1 r.2 := by
  have hout : EndInv cfg { s with inFreeGroup := false, freeGroup := [] } live := by
    apply h.setGroup (fun _ => rfl)
    exact ⟨by simp, by simp⟩
  have hfree' : Freeable cfg { s with inFreeGroup := false, freeGroup := [] } idx :=
    ⟨hfree.bound, hfree.nodup⟩
  unfold MultiEndedAllocator.free
  by_cases hnil : idx = []
  · rw [if_pos hnil]
    exact ⟨_, live, rfl, hout, Called.quiet op rfl rfl fun _ => ⟨rfl, rfl⟩⟩
  rw [if_neg hnil, if_neg (by simp)]
  -- a virtual page that is looked up is one of the freed ones, or as before
  have hfreed : ∀ v, scatter s.virtualToPhysical
      ((freedVirtualPages cfg idx).map fun v => (v, none)) v = s.virtualToPhysical v ∨
      scatter s.virtualToPhysical ((freedVirtualPages cfg idx).map fun v => (v, none)) v =
      none := by
    intro v
    rw [scatter_const]
    split
    · exact .inr rfl
    · exact .inl rfl
  cases hlazy : cfg.lazyCompaction with
  | true =>
    obtain ⟨t, ps, heq, _, _, hv2p, hinv⟩ := hout.freeLazy hlazy hfree' rfl
    obtain ⟨hpend, hlatest, hinflight, _⟩ := freeLazy_frame heq
    rw [if_pos rfl, heq]
    refine ⟨_, _, rfl, hinv, ?_⟩
    refine ⟨Carries.of_nil ?_, ?_, ?_, fun x hx => .inl (by rw [hpend]; exact hx),
      fun _ _ => by simp, fun _ => hlatest, fun _ => .inl hinflight⟩
    · intro v p p' hp hp'
      rw [hv2p] at hp'
      rcases hfreed v with hsame | hnone
      · rw [hsame, hp] at hp'
        exact (Option.some.inj hp').symm
      · rw [hnone] at hp'
        cases hp'
    · intro v p hnone hp
      rw [hv2p] at hp
      rcases hfreed v with hsame | hnone'
      · rw [hsame, hnone] at hp
        cases hp
      · rw [hnone'] at hp
        cases hp
    · intro v p hp hnot
      refine .inl ?_
      rw [hv2p, scatter_const, if_neg, hp]
      rw [mem_freedVirtualPages, ← hop]
      rintro ⟨x, hx, hxv⟩
      exact hnot x hx hxv
  | false =>
    obtain ⟨t, moves, live', heq, _, hrel, hinv⟩ := hout.freeEager hlazy hfree' rfl
    obtain ⟨hpend, hlatest, hinflight, _⟩ := freeEager_frame heq
    rw [if_neg (by simp), heq]
    refine ⟨_, live', rfl, hinv, hrel.carries hfreed, ?_, ?_,
      fun x hx => .inl (by rw [hpend]; exact hx), ?_, fun _ => hlatest, fun _ => .inl hinflight⟩
    · intro v p hnone hp
      have := (hrel.isSome_iff v).mp (by rw [hp]; rfl)
      rcases hfreed v with hsame | hnone'
      · rw [show scatter _ _ v = _ from hsame, hnone] at this
        cases this
      · rw [show scatter _ _ v = _ from hnone'] at this
        cases this
    · -- the whole forward stream is waited for
      intro v p _ _
      refine .inr (.inl ?_)
      simp [EndOp.waitsAll, hlazy, hop, hnil]
    · intro _ hquiet m _
      rw [hrace (hquiet hlazy)]
      simp

end EndInv

/-! ## Section 5: All calls -/

section Flush

variable {cfg : EndConfig} {s t : MultiEndedAllocator} {live : List Int} {moves : List Move}
  {q : Queries}

theorem bound_of_mem_writeSet (h : BandInv cfg s live) {query : Event → Bool} {p : Int}
    (hp : p ∈ (s.materializeInflightWriteSet cfg query).1) :
    ∃ v, s.virtualToPhysical v = some p := by
  unfold materializeInflightWriteSet at hp
  split at hp
  · cases hp
  · split at hp
    · cases hp
    · obtain ⟨x, _, rfl⟩ := List.mem_map.mp hp
      have hps : (cfg.pageSize : Int) ≠ 0 := by
        have := cfg.pageSize_pos
        omega
      unfold translateKvLoc
      cases hv : s.virtualToPhysical (x / cfg.pageSize) with
      | none => exact ⟨0, by simpa using h.anchor⟩
      | some p =>
        refine ⟨x / cfg.pageSize, ?_⟩
        dsimp only
        rw [hv, add_comm, Int.add_mul_ediv_right _ _ hps]
        have hsmall : ((x % cfg.pageSize : Nat) : Int) / cfg.pageSize = 0 := by
          apply Int.ediv_eq_zero_of_lt (by omega)
          exact_mod_cast Nat.mod_lt x cfg.pageSize_pos
        rw [hsmall, zero_add]

theorem Relocates.stays_or_moved {f f' : Nat → Option Int} (h : Relocates f f' moves) {v : Nat}
    {p : Int} (hp : f v = some p) : f' v = some p ∨ ∃ m ∈ moves, m.src = p := by
  rw [h.table]
  rcases scatter_cases (moves.map fun m => (m.virt, some m.dst)) (t := f) v with ⟨_, heq⟩ | hmem
  · exact .inl (heq.trans hp)
  · obtain ⟨m, hm, heq⟩ := List.mem_map.mp hmem
    refine .inr ⟨m, hm, ?_⟩
    have hbound := h.bound m hm
    rw [(Prod.mk.inj heq).1, hp] at hbound
    exact (Option.some.inj hbound).symm

theorem Relocates.free_of_free {f f' : Nat → Option Int} (h : Relocates f f' moves) {v : Nat}
    (hfree : f v = none) : f' v = none := by
  rw [← not_isSome_iff_eq_none, h.isSome_iff, hfree]
  simp

theorem Flushed.called_opportunistic (h : BandInv cfg s live) (hf : Flushed cfg q false s t moves) :
    Called cfg s (.flushOpportunistic q) t moves where
  carries := hf.relocates.carries fun v => .inl rfl
  fresh := fun v p hnone hp => by
    rw [hf.relocates.free_of_free hnone] at hp
    cases hp
  held := fun v p hp _ => by
    rcases hf.relocates.stays_or_moved hp with hsame | ⟨m, hm, rfl⟩
    · exact .inl hsame
    · rcases hf.waits m hm with hu | hnone | ⟨e, he, hcommit | hwait⟩
      · cases hu
      · exact .inr (.inr (.inr hnone))
      · exact .inr (.inr (.inl ⟨e, he, .inl (by simp [EndOp.asks, hcommit])⟩))
      · exact .inr (.inr (.inl ⟨e, he, .inr (.inr hwait)⟩))
  pending := fun x hx => by
    rcases hf.kept x hx with hkept | hdrain | hu
    · exact .inl hkept
    · exact .inr (.inl (by simp [EndOp.asks, hdrain]))
    · cases hu
  unraced := fun _ _ m hm => by
    refine ⟨hf.unraced rfl m hm, fun hrace => ?_⟩
    obtain ⟨v, hv⟩ := bound_of_mem_writeSet h hrace
    exact hf.relocates.vacant m hm v hv
  latest := fun _ => hf.latest
  inflight := fun _ => hf.inflight

theorem Flushed.called_urgent (hlazy : cfg.lazyCompaction = true)
    (hf : Flushed cfg q true s t moves) : Called cfg s (.flushUrgent q) t moves where
  carries := hf.relocates.carries fun v => .inl rfl
  fresh := fun v p hnone hp => by
    rw [hf.relocates.free_of_free hnone] at hp
    cases hp
  held := fun v p hp _ => by
    rcases hf.relocates.stays_or_moved hp with hsame | ⟨m, hm, rfl⟩
    · exact .inl hsame
    · -- the forward was waited for
      cases hlatest : s.latestForwardDoneEvent with
      | none => exact .inr (.inr (.inr rfl))
      | some e =>
        have hholes := hf.packs rfl (ne_nil_of_mem hm)
        exact .inr (.inr (.inl ⟨e, rfl, .inr (.inl (by
          simp [EndOp.waits, hlazy, hholes, hlatest]))⟩))
  pending := fun x hx =>
    .inr (.inr (by
      simp only [EndOp.waits, hlazy, if_true]
      exact mem_append_left _ (List.mem_map_of_mem hx)))
  unraced := fun hlatest _ m hm => by
    have hnil : (EndOp.flushUrgent q).racing cfg s = [] := by
      change (if s.latestForwardDoneEvent.isSome then [] else _) = []
      split
      · rfl
      · next hnone =>
        have hinflight : s.inflightForward = none := by
          rw [← not_isSome_iff_eq_none]
          exact fun hsome => hnone (hlatest hsome)
        simp [materializeInflightWriteSet, hinflight]
    rw [hnil]
    simp
  latest := fun _ => hf.latest
  inflight := fun _ => hf.inflight

end Flush

namespace EndInv

theorem getD {out : Type} {r : Option (MultiEndedAllocator × out)} (h : EndInv cfg s live)
    {op : EndOp}
    (hr : ∀ t o, r = some (t, o) → ∃ live', EndInv cfg t live' ∧ Called cfg s op t []) :
    ∃ live', EndInv cfg ((r.map Prod.fst).getD s) live' ∧
      Called cfg s op ((r.map Prod.fst).getD s) [] := by
  cases hcase : r with
  | none => exact ⟨live, h, Called.quiet op rfl rfl fun _ => ⟨rfl, rfl⟩⟩
  | some p => exact hr p.1 p.2 hcase

/-- A call returns, keeps the invariant, and does to the pages what `Called` says. -/
theorem step (h : EndInv cfg s live) {op : EndOp} (hadm : op.Admissible cfg s)
    (hsafe : op.Safe cfg s) :
    ∃ r live', op.step cfg s = some r ∧ EndInv cfg r.1 live' ∧ Called cfg s op r.1 r.2 := by
  -- without a forward in flight no write set is waited for
  have hrace : s.inflightForward = none →
      (s.materializeInflightWriteSet cfg fun _ => false).1 = [] := by
    intro hnone
    simp [materializeInflightWriteSet, hnone]
  cases op with
  | alloc peer flushed needSize =>
    obtain ⟨live', hinv⟩ := h.getD fun t o heq => by
      obtain ⟨live', hinv, hpaid⟩ := h.alloc heq
      exact ⟨live', hinv, called_of_paid h.toBandInv hpaid (.alloc peer flushed needSize)⟩
    exact ⟨_, live', rfl, hinv⟩
  | allocExtend peer flushed reqs =>
    obtain ⟨live', hinv⟩ := h.getD fun t o heq => by
      obtain ⟨live', hinv, hpaid⟩ := h.allocPaged heq
      exact ⟨live', hinv, called_of_paid h.toBandInv hpaid (.allocExtend peer flushed reqs)⟩
    exact ⟨_, live', rfl, hinv⟩
  | allocDecode peer flushed reqs =>
    obtain ⟨live', hinv⟩ := h.getD fun t o heq => by
      obtain ⟨live', hinv, hpaid⟩ := h.allocPaged heq
      exact ⟨live', hinv, called_of_paid h.toBandInv hpaid (.allocDecode peer flushed reqs)⟩
    exact ⟨_, live', rfl, hinv⟩
  | allocWithVirtual peer vs =>
    obtain ⟨howner, hvs, hunbound⟩ := hadm
    cases heq : s.allocWithVirtual cfg peer vs with
    | none =>
      refine ⟨(s, []), live, by simp [EndOp.step, heq], h, ?_⟩
      exact Called.quiet _ rfl rfl fun _ => ⟨rfl, rfl⟩
    | some t =>
      obtain ⟨live', hinv, drained, new, hbuy⟩ := h.allocWithVirtual howner hvs hunbound heq
      exact ⟨(t, []), live', by simp [EndOp.step, heq], hinv, hbuy.called h.toBandInv _⟩
  | free idx =>
    cases hin : s.inFreeGroup with
    | false =>
      rw [EndOp.Admissible, hin] at hadm
      -- outside a group the call is that of a group with these tokens alone
      have hsame : { s with inFreeGroup := false, freeGroup := [] } = s := by
        rw [← hin, ← h.group hin]
      have hfree := h.free hadm (.free idx) (by simp [EndOp.freed, hin]) hrace
      rw [hsame] at hfree
      exact hfree
    | true =>
      rw [EndOp.Admissible, hin] at hadm
      by_cases hnil : idx = []
      · exact ⟨_, live, if_pos hnil, h, Called.quiet _ rfl rfl fun _ => ⟨rfl, rfl⟩⟩
      · -- the tokens wait for the end of the group
        refine ⟨({ s with freeGroup := s.freeGroup ++ [idx] }, []), live, ?_, ?_,
          Called.quiet _ rfl rfl fun _ => ⟨rfl, rfl⟩⟩
        · simp [EndOp.step, MultiEndedAllocator.free, hnil, hin]
        · apply h.setGroup (by simp [hin])
          simpa using hadm
  | freeGroupBegin =>
    refine ⟨_, live, rfl, ?_, Called.quiet _ rfl rfl fun _ => ⟨rfl, rfl⟩⟩
    apply h.setGroup (by simp)
    exact ⟨by simp, by simp⟩
  | freeGroupEnd =>
    simp only [EndOp.step, MultiEndedAllocator.freeGroupEnd]
    split
    · exact h.free h.grouped .freeGroupEnd rfl hrace
    · next hnil =>
      have hnil : s.freeGroup = [] := by simpa using hnil
      refine ⟨_, live, rfl, ?_, Called.quiet _ rfl rfl fun _ => ⟨rfl, rfl⟩⟩
      exact h.setGroup (fun _ => hnil) h.grouped
  | maybeDrainPendingReuse query =>
    refine ⟨_, live, rfl, ?_, called_drain query⟩
    unfold MultiEndedAllocator.maybeDrainPendingReuse
    split
    · exact h
    · exact h.drainPendingReuse query false
  | flushOpportunistic q =>
    simp only [EndOp.step, MultiEndedAllocator.flushOpportunistic]
    split
    · exact ⟨_, live, rfl, h, Called.quiet _ rfl rfl fun _ => ⟨rfl, rfl⟩⟩
    split
    · exact ⟨_, live, rfl, h, Called.quiet _ rfl rfl fun _ => ⟨rfl, rfl⟩⟩
    obtain ⟨t, moves, live', heq, hinv, hf⟩ := h.flush q false fun _ => hsafe
    exact ⟨_, live', heq, hinv, hf.called_opportunistic h.toBandInv⟩
  | flushUrgent q =>
    cases hlazy : cfg.lazyCompaction with
    | false =>
      refine ⟨(s, []), live, ?_, h, Called.quiet _ rfl rfl fun _ => ⟨rfl, rfl⟩⟩
      simp [EndOp.step, MultiEndedAllocator.flush, hlazy]
    | true =>
      obtain ⟨t, moves, live', heq, hinv, hf⟩ := h.flush q true (by simp)
      exact ⟨_, live', heq, hinv, hf.called_urgent hlazy⟩
  | setLatestForwardDoneEvent event =>
    exact ⟨_, live, rfl, h.setEvents event _, Called.quiet _ rfl rfl (by simp [EndOp.setsEvents])⟩
  | setInflightForward event tokens =>
    refine ⟨_, live, rfl, ?_, ?_⟩
    · unfold MultiEndedAllocator.setInflightForward
      split
      · exact h
      · exact h.setEvents _ _
    · unfold MultiEndedAllocator.setInflightForward
      split <;> exact Called.quiet _ rfl rfl (by simp [EndOp.setsEvents])

end EndInv

end Sglang.MemCache
