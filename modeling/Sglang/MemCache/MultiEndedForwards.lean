import Sglang.MemCache.MultiEndedRuns
import Sglang.Lib.PageCopies

/-!
# Compaction Is Transparent

The contents of the pages under the copies of `free` and `_flush`, with forwards that read and
write pages while they run.

- `Transparent`: whatever the order of the copies and of the writes of a forward, a virtual page
  that stays allocated keeps its contents,
- `Pool`: the allocator with the forwards that were launched and how many of them are done,
- `PoolInv`: a page of a forward that is not done backs its virtual page, or waits in
  `_pending_reuse` for an event that is not earlier than the forward's,
- `PoolInv.run`: what holds in every run.

## Time

A call on the allocator is issued to the schedule stream, and time is that of this stream: an event
that the stream has waited for has fired for everything issued later. A query that answers `true`
is about a fired event; it may answer `false` about one that has fired just now. The forwards run
one after the other, so their events fire in the order of their launches.
-/

namespace Sglang.MemCache

open List
open Lib
open MultiEndedAllocator

/-! ## Section 1: Contents -/

/-- The moves are copied, in any order, while a forward writes the pages `racing`. A virtual page
that stays bound then has at its new page what the forward alone leaves at its old one. -/
def Transparent (f f' : Nat → Option Int) (moves : List Move) (racing : List Int) : Prop :=
  ∀ (α : Type) (store : Int → α) (acts : List (PageAct Int α)),
    (PageAct.copies acts).Perm (moves.map fun m => (m.src, m.dst)) →
    PageAct.WritesIn (· ∈ racing) acts →
    ∀ v p p', f v = some p → f' v = some p' →
      PageAct.run store acts p' = PageAct.run store (PageAct.writes acts) p

theorem Carries.transparent {f f' : Nat → Option Int} {moves : List Move} {racing : List Int}
    (h : Carries f f' moves) (hrace : ∀ m ∈ moves, m.src ∉ racing ∧ m.dst ∉ racing) :
    Transparent f f' moves racing := by
  intro α store acts hperm hwrites v p p' hp hp'
  have hdsts : ((PageAct.copies acts).map Prod.snd).Perm (moves.map Move.dst) := by
    simpa [Function.comp_def] using hperm.map Prod.snd
  -- a copy is one of the moves
  have hmove : ∀ c ∈ PageAct.copies acts, ∃ m ∈ moves, c = (m.src, m.dst) := by
    intro c hc
    obtain ⟨m, hm, heq⟩ := mem_map.mp (hperm.mem_iff.mp hc)
    exact ⟨m, hm, heq.symm⟩
  rcases h.page v p p' hp hp' with ⟨rfl, hnot⟩ | ⟨m, hm, rfl, rfl⟩
  · apply PageAct.run_of_not_mem_dsts
    rwa [hdsts.mem_iff]
  · have hcopy : (m.src, m.dst) ∈ PageAct.copies acts :=
      hperm.mem_iff.mpr (mem_map_of_mem (f := fun m : Move => (m.src, m.dst)) hm)
    have hdst := PageAct.run_dst store (hdsts.nodup_iff.mpr h.dst_nodup) ?_ hwrites ?_
      hcopy
    · rw [hdst, PageAct.run_writes_of_writesIn hwrites (hrace m hm).1]
    · intro c hc
      obtain ⟨m', hm', rfl⟩ := hmove c hc
      rw [hdsts.mem_iff]
      exact h.apart m' hm'
    · intro c hc
      obtain ⟨m', hm', rfl⟩ := hmove c hc
      exact hrace m' hm'

/-! ## Section 2: Forwards -/

/-- A forward: its event, the virtual pages it reads or writes, and the physical pages behind them
when it was launched. -/
structure Forward where
  event : Event
  virt : List Nat
  phys : List Int

/-- The allocator with the forwards that were launched. The events below `fired` have fired. -/
structure Pool where
  alloc : MultiEndedAllocator
  launched : Nat
  fired : Nat
  forwards : List Forward

/-- What happens to a pool. -/
inductive PoolOp where
  | call (op : EndOp)
  /-- `run_batch`: the scheduler launches a forward and hands its event and its `out_cache_loc` to
  the allocator. -/
  | launch (reads outCacheLoc : List Nat)
  /-- The oldest forward is done. -/
  | fire

namespace PoolOp

variable (cfg : EndConfig)

/-- How many events have fired after a call. -/
def firedAfter (P : Pool) (op : EndOp) : Nat :=
  if op.waitsAll cfg P.alloc then max P.fired P.launched
  else (op.waits cfg P.alloc).foldl (fun n e => max n (e + 1)) P.fired

/-- The pool after an operation, and the pages that were copied. -/
def step (P : Pool) : PoolOp → Option (Pool × List Move)
  | .call op =>
    (op.step cfg P.alloc).map fun r =>
      ({ P with alloc := r.1, fired := firedAfter cfg P op }, r.2)
  | .launch reads outCacheLoc =>
    let virt := reads ++ outCacheLoc.map (· / cfg.pageSize)
    some
      ({ P with
          alloc := (P.alloc.setLatestForwardDoneEvent (some P.launched)).setInflightForward cfg
            P.launched outCacheLoc
          launched := P.launched + 1
          forwards := P.forwards ++
            -- an unmapped virtual page is translated to the sink
            [⟨P.launched, virt, virt.map fun v => (P.alloc.virtualToPhysical v).getD 0⟩] }, [])
  | .fire => some ({ P with fired := min P.launched (P.fired + 1) }, [])

/-- The pool after an operation; `none` if an assertion fails. -/
def next (P : Pool) (op : PoolOp) : Option Pool := (op.step cfg P).map Prod.fst

/-- What the callers promise: what a call relies on by itself, that only a launch sets the events,
and that lazy `free` is not given pages of a forward that is not done. -/
def Promised (P : Pool) : PoolOp → Prop
  | .call op =>
    op.Admissible cfg P.alloc ∧ op.setsEvents = false ∧
      (cfg.lazyCompaction = true → ∀ F ∈ P.forwards, P.fired ≤ F.event →
        ∀ x ∈ op.freed P.alloc, x / cfg.pageSize ∉ F.virt)
  | .launch .. => True
  | .fire => True

/-- The events that answer `true` have fired. -/
def Truthful (P : Pool) : PoolOp → Prop
  | .call op => ∀ e, op.asks e = true → e < P.fired
  | .launch .. => True
  | .fire => True

def Admissible (P : Pool) (op : PoolOp) : Prop := op.Promised cfg P ∧ op.Truthful P

/-- No flush replaces an entry of `_pending_reuse`. -/
def Safe (P : Pool) : PoolOp → Prop
  | .call op => op.Safe cfg P.alloc
  | .launch .. => True
  | .fire => True

instance decidablePromised (P : Pool) : DecidablePred (Promised cfg P)
  | .call op => inferInstanceAs (Decidable (op.Admissible cfg P.alloc ∧ op.setsEvents = false ∧
      (cfg.lazyCompaction = true → ∀ F ∈ P.forwards, P.fired ≤ F.event →
        ∀ x ∈ op.freed P.alloc, x / cfg.pageSize ∉ F.virt)))
  | .launch .. => isTrue trivial
  | .fire => isTrue trivial

instance decidableSafe (P : Pool) : DecidablePred (Safe cfg P)
  | .call op => inferInstanceAs (Decidable (op.Safe cfg P.alloc))
  | .launch .. => isTrue trivial
  | .fire => isTrue trivial

theorem along_admissible {ops : List PoolOp}
    (hsilent : ∀ op, .call op ∈ ops → ∀ e, op.asks e = false) {P : Pool}
    (h : Along (next cfg) (Promised cfg) P ops) : Along (next cfg) (Admissible cfg) P ops := by
  apply h.imp
  intro P op hop hpromised
  refine ⟨hpromised, ?_⟩
  cases op with
  | call op =>
    intro e hask
    rw [hsilent op hop e] at hask
    cases hask
  | launch reads outCacheLoc => trivial
  | fire => trivial

end PoolOp

def Pool.init (cfg : EndConfig) : Pool := ⟨clear cfg, 0, 0, []⟩

/-! ## Section 3: The pages of a forward -/

/-- The page `p` of a forward is not free: it is the sink, it backs a virtual page of the forward,
or it waits for an event that is not earlier. -/
def Forward.Held (F : Forward) (s : MultiEndedAllocator) (p : Int) : Prop :=
  p = 0 ∨ (∃ v ∈ F.virt, s.virtualToPhysical v = some p) ∨
    ∃ x ∈ s.pendingReuse, F.event ≤ x.1 ∧ p ∈ x.2

/-- The invariant of a pool. -/
structure PoolInv (cfg : EndConfig) (P : Pool) (live : List Int) : Prop where
  inv : EndInv cfg P.alloc live
  launched : ∀ F ∈ P.forwards, F.event < P.launched
  latest : ∀ F ∈ P.forwards, ∃ e, P.alloc.latestForwardDoneEvent = some e ∧ F.event ≤ e
  inflight : P.alloc.inflightForward.isSome → P.alloc.latestForwardDoneEvent.isSome
  eager : cfg.lazyCompaction = false → P.alloc.inflightForward = none
  held : ∀ F ∈ P.forwards, P.fired ≤ F.event → ∀ p ∈ F.phys, F.Held P.alloc p

theorem le_foldl_max (l : List Event) : ∀ n : Nat, n ≤ l.foldl (fun n e => max n (e + 1)) n := by
  induction l with
  | nil => exact fun n => le_refl n
  | cons e l ih => exact fun n => (le_max_left _ _).trans (ih _)

theorem lt_foldl_max {l : List Event} {e : Event} (he : e ∈ l) :
    ∀ n : Nat, e < l.foldl (fun n e => max n (e + 1)) n := by
  induction l with
  | nil => cases he
  | cons e' l ih =>
    intro n
    rcases mem_cons.mp he with rfl | he
    · exact (le_max_right n (e + 1)).trans (le_foldl_max l _)
    · exact ih he _

namespace PoolInv

variable {cfg : EndConfig} {P : Pool} {live : List Int}

theorem init (cfg : EndConfig) : PoolInv cfg (Pool.init cfg) [] :=
  ⟨EndInv.init cfg, by simp [Pool.init], by simp [Pool.init], by simp [Pool.init, clear],
    fun _ => rfl, by simp [Pool.init]⟩

section

variable (h : PoolInv cfg P live)
include h

/-- What a call leaves of the pages of a forward that is not done after it. -/
theorem held_call {op : EndOp} (hadm : PoolOp.Admissible cfg P (.call op))
    {t : MultiEndedAllocator} {moves : List Move} (hcalled : Called cfg P.alloc op t moves)
    {F : Forward} (hF : F ∈ P.forwards) (hfired : PoolOp.firedAfter cfg P op ≤ F.event) {p : Int}
    (hp : p ∈ F.phys) : F.Held t p := by
  have hlaunched := h.launched F hF
  unfold PoolOp.firedAfter at hfired
  -- the whole stream was not waited for, since this forward is not done
  split at hfired
  · exact absurd (hlaunched.trans_le ((le_max_right _ _).trans hfired)) (lt_irrefl _)
  next hall =>
  have hbefore : P.fired ≤ F.event := (le_foldl_max _ _).trans hfired
  have hasks : ∀ e, F.event ≤ e → op.asks e = true → False := by
    intro e hle hask
    exact absurd ((hadm.2 e hask).trans_le (hbefore.trans hle)) (lt_irrefl _)
  have hwaits : ∀ e, F.event ≤ e → e ∈ op.waits cfg P.alloc → False := by
    intro e hle hwait
    exact absurd ((lt_foldl_max hwait P.fired).trans_le (hfired.trans hle)) (lt_irrefl _)
  rcases h.held F hF hbefore p hp with rfl | ⟨v, hv, hvp⟩ | ⟨x, hx, hle, hpx⟩
  · exact .inl rfl
  · by_cases hfreed : ∀ x ∈ op.freed P.alloc, x / cfg.pageSize ≠ v
    · rcases hcalled.held v p hvp hfreed with hsame | hw | ⟨e, he, hcase⟩ | hnone
      · exact .inr (.inl ⟨v, hv, hsame⟩)
      · exact absurd hw hall
      · obtain ⟨e', he', hle⟩ := h.latest F hF
        rw [he] at he'
        cases he'
        rcases hcase with hask | hwait | ⟨l, hl, hpl⟩
        · exact (hasks e hle hask).elim
        · exact (hwaits e hle hwait).elim
        · exact .inr (.inr ⟨(e, l), hl, hle, hpl⟩)
      · obtain ⟨e', he', _⟩ := h.latest F hF
        rw [hnone] at he'
        cases he'
    · -- a forward that is not done has none of the freed pages
      push Not at hfreed
      obtain ⟨x, hx, rfl⟩ := hfreed
      cases hlazy : cfg.lazyCompaction with
      | true => exact absurd hv (hadm.1.2.2 hlazy F hF hbefore x hx)
      | false =>
        refine absurd ?_ hall
        simp [EndOp.waitsAll, hlazy, ne_nil_of_mem hx]
  · rcases hcalled.pending x hx with hkept | hask | hwait
    · exact .inr (.inr ⟨x, hkept, hle, hpx⟩)
    · exact (hasks x.1 hle hask).elim
    · exact (hwaits x.1 hle hwait).elim

theorem call {op : EndOp} (hadm : PoolOp.Admissible cfg P (.call op))
    (hsafe : op.Safe cfg P.alloc) :
    ∃ r live', op.step cfg P.alloc = some r ∧ Called cfg P.alloc op r.1 r.2 ∧
      PoolInv cfg { P with alloc := r.1, fired := PoolOp.firedAfter cfg P op } live' := by
  obtain ⟨r, live', heq, hinv, hcalled⟩ := h.inv.step hadm.1.1 hsafe
  have hlatest := hcalled.latest hadm.1.2.1
  refine ⟨r, live', heq, hcalled, hinv, h.launched, ?_, ?_, ?_, ?_⟩
  · intro F hF
    rw [hlatest]
    exact h.latest F hF
  · intro hsome
    rw [hlatest]
    rcases hcalled.inflight hadm.1.2.1 with hsame | hnone
    · rw [hsame] at hsome
      exact h.inflight hsome
    · rw [hnone] at hsome
      cases hsome
  · intro hlazy
    rcases hcalled.inflight hadm.1.2.1 with hsame | hnone
    · exact hsame.trans (h.eager hlazy)
    · exact hnone
  · intro F hF hfired p hp
    exact h.held_call hadm hcalled hF hfired hp

/-- A launch keeps it: the pages of the new forward back its virtual pages. -/
theorem launch (reads outCacheLoc : List Nat) {r : Pool × List Move}
    (heq : PoolOp.step cfg P (.launch reads outCacheLoc) = some r) : PoolInv cfg r.1 live := by
  simp only [PoolOp.step, Option.some.injEq] at heq
  subst heq
  -- the tables and lists of the allocator are as before
  have hset : ∀ s : MultiEndedAllocator, ∃ x, s.setInflightForward cfg P.launched outCacheLoc =
      { s with inflightForward := x } ∧ (cfg.lazyCompaction = false → x = s.inflightForward) := by
    intro s
    unfold setInflightForward
    split
    · exact ⟨s.inflightForward, rfl, fun _ => rfl⟩
    · next hlazy => exact ⟨_, rfl, fun heager => absurd heager (by simpa using hlazy)⟩
  obtain ⟨x, hx, hxe⟩ := hset (P.alloc.setLatestForwardDoneEvent (some P.launched))
  simp only [hx]
  refine ⟨h.inv.setEvents (some P.launched) x, ?_, ?_, ?_, ?_, ?_⟩
  · intro F hF
    rcases mem_append.mp hF with hF | hF
    · have := h.launched F hF
      exact Nat.lt_succ_of_lt this
    · obtain rfl := mem_singleton.mp hF
      exact Nat.lt_succ_self _
  · intro F hF
    refine ⟨P.launched, rfl, ?_⟩
    rcases mem_append.mp hF with hF | hF
    · exact (h.launched F hF).le
    · obtain rfl := mem_singleton.mp hF
      exact le_refl _
  · exact fun _ => rfl
  · intro hlazy
    exact (hxe hlazy).trans (h.eager hlazy)
  · intro F hF hfired p hp
    rcases mem_append.mp hF with hF | hF
    · exact h.held F hF hfired p hp
    · obtain rfl := mem_singleton.mp hF
      obtain ⟨v, hv, rfl⟩ := mem_map.mp hp
      cases hvp : P.alloc.virtualToPhysical v with
      | none => exact .inl (by simp)
      | some p => exact .inr (.inl ⟨v, hv, hvp⟩)

theorem fire :
    PoolInv cfg { P with fired := min P.launched (P.fired + 1) } live := by
  refine ⟨h.inv, h.launched, h.latest, h.inflight, h.eager, ?_⟩
  intro F hF hfired p hp
  apply h.held F hF ?_ p hp
  rcases min_le_iff.mp hfired with hall | hnext
  · exact absurd ((h.launched F hF).trans_le hall) (lt_irrefl _)
  · exact (Nat.le_succ _).trans hnext

theorem step {op : PoolOp} (hadm : op.Admissible cfg P)
    (hsafe : op.Safe cfg P) : ∃ r live', op.step cfg P = some r ∧ PoolInv cfg r.1 live' := by
  cases op with
  | call op =>
    obtain ⟨r, live', heq, _, hinv⟩ := h.call hadm hsafe
    exact ⟨_, live', by rw [PoolOp.step, heq]; rfl, hinv⟩
  | launch reads outCacheLoc => exact ⟨_, live, rfl, h.launch reads outCacheLoc rfl⟩
  | fire => exact ⟨_, live, rfl, h.fire⟩

theorem run {ops : List PoolOp}
    (hadm : Along (PoolOp.next cfg) (PoolOp.Admissible cfg) P ops)
    (hsafe : Along (PoolOp.next cfg) (PoolOp.Safe cfg) P ops) :
    ∃ Q, Lib.run (PoolOp.next cfg) P ops = some Q ∧ ∃ live', PoolInv cfg Q live' := by
  apply run_of_invariant (fun P => ∃ live, PoolInv cfg P live) ?_ ⟨live, h⟩ (hadm.and hsafe)
  rintro P op ⟨live, h⟩ ⟨hadm, hsafe⟩
  obtain ⟨r, live', heq, hinv⟩ := h.step hadm hsafe
  exact ⟨r.1, by rw [PoolOp.next, heq]; rfl, live', hinv⟩

end

end PoolInv

/-! ## Section 4: Transparency -/

/-- What the calls on a pool respect. -/
structure Compacted (cfg : EndConfig) (P : Pool) (op : EndOp) (Q : Pool) (moves : List Move) :
    Prop where
  /-- A virtual page that stays allocated keeps its contents. -/
  contents : Transparent P.alloc.virtualToPhysical Q.alloc.virtualToPhysical moves
    (op.racing cfg P.alloc)
  /-- No two virtual pages have the same physical page. -/
  injective : ∀ v w p, Q.alloc.virtualToPhysical v = some p → Q.alloc.virtualToPhysical w = some p →
    v = w
  /-- A page that is handed out is not one of a forward that is not done. -/
  exclusive : ∀ v p, P.alloc.virtualToPhysical v = none → Q.alloc.virtualToPhysical v = some p →
    ∀ F ∈ P.forwards, P.fired ≤ F.event → p ∉ F.phys

theorem PoolInv.exclusive {cfg : EndConfig} {P : Pool} {live : List Int} (h : PoolInv cfg P live)
    {op : EndOp} {t : MultiEndedAllocator} {moves : List Move}
    (hcalled : Called cfg P.alloc op t moves) {v : Nat} {p : Int}
    (hfree : P.alloc.virtualToPhysical v = none) (hp : t.virtualToPhysical v = some p) {F : Forward}
    (hF : F ∈ P.forwards) (hfired : P.fired ≤ F.event) : p ∉ F.phys := by
  intro hmem
  obtain ⟨hne, hunbound, hpending⟩ := hcalled.fresh v p hfree hp
  rcases h.held F hF hfired p hmem with hzero | ⟨w, _, hw⟩ | ⟨x, hx, _, hpx⟩
  · exact hne hzero
  · exact hunbound w hw
  · exact hpending (mem_flatMap.mpr ⟨x, hx, hpx⟩)

def nineEnd : EndConfig := { smallEnd with totalBytes := 10, numPages := 10 }

/-- Two flushes under one event that has not fired. -/
def twoFlushesPool : List PoolOp :=
  [.launch [] [], .call (.alloc none none 8), .call (.free [1, 2]),
    .call (.flushOpportunistic noneFired), .call (.free [3, 4])]

/-- The second of the flushes, and two urgent ones. -/
def sharedPageRun : List PoolOp :=
  twoFlushesPool ++
    [.call (.flushOpportunistic noneFired), .call (.flushUrgent noneFired),
      .call (.alloc none none 2), .call (.free [9]), .call (.flushUrgent noneFired),
      .call (.alloc none none 1)]

theorem sharedPageRun_silent : ∀ op, PoolOp.call op ∈ sharedPageRun → ∀ e, op.asks e = false := by
  intro op hop e
  simp only [sharedPageRun, twoFlushesPool, cons_append, nil_append, mem_cons,
    PoolOp.call.injEq, not_mem_nil, or_false, reduceCtorEq, false_or] at hop
  rcases hop with rfl | rfl | rfl | rfl | rfl | rfl | rfl | rfl | rfl | rfl <;> rfl

end Sglang.MemCache
