import Sglang.Router.HashTreeWorkers
import Sglang.Router.KvEventIndex

/-!
# Detached Workers Stay Detached

Once `remove_worker` has returned, the batches sent before it should not reach the tree nor the
cursors. The live check of the pump gives this only where no batch of the worker is on its way
while the worker is removed or added again.

- `Detached`: what the index promises for removed workers,
- `Guarded`: the state in which a lifecycle step keeps the promise,
- `run_detached`: every run of guarded steps reaches only detached states,
- `readdedRun_not_detached`: a batch that waits in the channel across a removal and a re-addition.
-/

namespace Sglang.Router

open List Function
open Lib (run Along)

def Effect.Stores (e : Effect) : Prop :=
  match e.update with
  | some (.blockStored _ _) => True
  | _ => False

instance (e : Effect) : Decidable e.Stores := by
  unfold Effect.Stores
  split <;> infer_instance

/-- A call of `add_worker`. -/
def Call.Adds : Call → Prop
  | .marked _ | .entered _ => True
  | _ => False

instance : DecidablePred Call.Adds
  | .marked _ | .entered _ => isTrue trivial
  | .taken _ | .dead _ | .drained _ _ | .clearing _ | .cleared _ _ => isFalse id

/-- The ranks that a call of `add_worker` attaches. -/
def Call.added : Call → List Nat
  | .marked ranks | .entered ranks => ranks
  | _ => []

namespace IndexState

/-! ## Section 1: The promise -/

/-- Every removal of `url` that has returned did so before `t`. -/
def Fresh (s : IndexState) (url : String) (t : Nat) : Prop :=
  ∀ r ∈ s.returned, r.1 = url → r.2 < t

/-- Detached workers stay detached. -/
structure Detached (s : IndexState) : Prop where
  /-- After a removal has returned, only batches sent since then take effect, and only those of
  subscriptions opened since then. -/
  effects : ∀ e ∈ s.effects, ∀ r ∈ s.returned, r.1 = e.worker.url → r.2 < e.time →
    r.2 < e.born ∧ r.2 < e.sub
  /-- A worker in the tree was stored by a subscription opened after its last removal. -/
  tree : ∀ w, s.tree.Shows w → ∃ e ∈ s.effects, e.worker = w ∧ e.Stores ∧ s.Fresh w.url e.sub
  /-- A batch is compared with a cursor of its own subscription only. -/
  cursor : ∀ ev, s.pump = .live ev → ev.IsBatch → ∀ c, s.cursors ev.worker = some c →
    c.sub = ev.sub

/-- The ranks that a call of `add_worker` marks live. -/
def accepted (s : IndexState) (cfg : Option EventConfig) : List Nat :=
  match cfg with
  | none => []
  | some cfg => if (trySet s.blockSize cfg.blockSize).isSome then cfg.dpRanks else []

/-- The lifecycle steps that keep the promise:

- `add_worker` marks ranks live only while no removal of the URL is in progress, and a dead worker
  only when no batch of it is in the channel or in the hand of the pump,
- `remove_worker` looks for its entry only while no other removal of the URL is in progress; where
  it finds one, no addition of the URL is in progress either, and it lists every live rank,
- `remove_worker` takes the lock on the cursors when the pump is not past the live check with a
  batch of its URL. -/
def Guarded (s : IndexState) : IndexOp → Prop
  | .add url cfg => ∀ id ∈ workerIds url (s.accepted cfg), (∀ c ∈ s.callsOf url, c.Adds) ∧
    (id ∉ s.live → ∀ ev ∈ s.queue ++ s.inHand.toList, ev.worker = id → ¬ ev.IsBatch)
  | .remove url => (∀ c ∈ s.callsOf url, c.Adds) ∧ ∀ ranks ∈ s.workers url,
    s.callsOf url = [] ∧ ∀ id ∈ s.live, id.url = url → id.dpRank ∈ ranks
  | .advance _ i =>
    match s.calls[i]? with
    | some (url, .drained _ _) => ∀ ev ∈ s.passed.toList, ev.worker.url = url → ¬ ev.IsBatch
    | _ => True
  | _ => True

instance (s : IndexState) (op : IndexOp) : Decidable (s.Guarded op) := by
  unfold Guarded
  split
  · infer_instance
  · infer_instance
  · split <;> infer_instance
  · infer_instance

/-! ## Section 2: The invariant -/

/-- No batch of the worker is past the live check. -/
def NotPassed (s : IndexState) (w : KvWorkerId) : Prop :=
  ∀ ev, s.passed = some ev → ev.worker = w → ¬ ev.IsBatch

/-- The index has nothing of the worker. -/
structure Blank (s : IndexState) (w : KvWorkerId) : Prop where
  handle : s.handles w = none
  task : ∀ sub, (w, sub) ∉ s.tasks
  cursor : s.cursors w = none
  tree : ¬ s.tree.Shows w
  passed : s.NotPassed w

def Gone (s : IndexState) (w : KvWorkerId) : Prop := w ∉ s.live ∧ s.Blank w

/-- The tasks of the worker have their handle. -/
def Owned (s : IndexState) (w : KvWorkerId) : Prop :=
  ∀ sub, (w, sub) ∈ s.tasks → s.handles w = some sub

/-- Nothing more comes in for the worker. -/
structure Closed (s : IndexState) (w : KvWorkerId) : Prop where
  live : w ∉ s.live
  handle : s.handles w = none
  task : ∀ sub, (w, sub) ∉ s.tasks
  passed : s.NotPassed w

/-- A worker of whose URL only additions are in progress. -/
structure Adding (s : IndexState) (w : KvWorkerId) (cs : List Call) : Prop where
  adds : ∀ c ∈ cs, c.Adds
  owned : s.Owned w
  ranks : ∀ c ∈ cs, w.dpRank ∈ c.added → w ∈ s.live
  entered : ∀ ranks, .entered ranks ∈ cs → s.workers w.url ≠ none
  /-- A live worker has its entry, or is about to get it, and the index has nothing of it yet. -/
  entry : w ∈ s.live ∧ (s.workers w.url ≠ none ∨ s.Blank w) ∨ s.Gone w

/-- A worker at each point of a removal of its URL. -/
def Leaving (s : IndexState) (w : KvWorkerId) : Call → Prop
  | .marked _ | .entered _ => False
  | .taken ids => s.Owned w ∧ (∀ id ∈ ids, id.url = w.url) ∧ (w ∈ ids ∨ s.Gone w)
  | .dead ids => s.Owned w ∧ w ∉ s.live ∧ (w ∈ ids ∨ s.Gone w)
  | .drained ids pending => w ∉ s.live ∧ s.handles w = none ∧
    (∀ sub, (w, sub) ∈ s.tasks → (w, sub) ∈ pending) ∧ (w ∈ ids ∨ s.Gone w)
  | .clearing ids => s.Closed w ∧ (w ∈ ids ∨ s.Gone w)
  | .cleared id ids =>
    s.Closed w ∧ (w ∈ id :: ids ∨ s.Gone w) ∧ (w = id → ¬ s.tree.Shows w)

/-- The state of a worker, by the calls in progress for its URL: additions, or one removal. -/
def Stage (s : IndexState) (w : KvWorkerId) (cs : List Call) : Prop :=
  s.Adding w cs ∨ ∃ c, cs = [c] ∧ s.Leaving w c

/-- What is on its way for a worker, and what is stored for it, comes from its subscription. -/
structure Traced (s : IndexState) (w : KvWorkerId) : Prop where
  handle : ∀ sub, s.handles w = some sub → s.Fresh w.url sub
  waiting : ∀ ev ∈ s.waiting, ev.worker = w → ev.IsBatch → w ∈ s.live →
    s.handles w = some ev.sub ∧ s.Fresh w.url ev.born
  passed : ∀ ev, s.passed = some ev → ev.worker = w → ev.IsBatch →
    s.Fresh w.url ev.sub ∧ s.Fresh w.url ev.born ∧ (w ∈ s.live → s.handles w = some ev.sub) ∧
      ∀ c, s.cursors w = some c → c.sub = ev.sub
  cursor : ∀ c, s.cursors w = some c → w ∈ s.live → s.handles w = some c.sub
  tree : s.tree.Shows w → ∃ e ∈ s.effects, e.worker = w ∧ e.Stores ∧ s.Fresh w.url e.sub

/-- The histories, at the time `now`. -/
structure History (s : IndexState) (now : Nat) : Prop where
  /-- Only batches are applied. -/
  applying : ∀ ev seq rest, s.pump = .applying ev seq rest → ev.IsBatch
  effects : ∀ e ∈ s.effects, ∀ r ∈ s.returned, r.1 = e.worker.url → r.2 < e.time →
    r.2 < e.born ∧ r.2 < e.sub
  returned_past : ∀ r ∈ s.returned, r.2 < now
  effects_past : ∀ e ∈ s.effects, e.time < now

def Sound (s : IndexState) (w : KvWorkerId) : Prop := s.Traced w ∧ s.Stage w (s.callsOf w.url)

/-- The invariant of the runs. -/
structure Inv (s : IndexState) : Prop where
  sound : ∀ w, s.Sound w
  history : s.History s.clock

theorem Inv.detached {s : IndexState} (h : s.Inv) : s.Detached where
  effects := h.history.effects
  tree := fun w => (h.sound w).1.tree
  cursor := by
    intro ev hpump hbatch c hc
    have hpassed : s.passed = some ev := by simp [passed, hpump]
    obtain ⟨_, _, _, hcursor⟩ := (h.sound ev.worker).1.passed ev hpassed rfl hbatch
    exact hcursor c hc

/-! ## Section 3: What a step leaves alone -/

/-- The data of `w` are in `t` as in `s`, or less. -/
structure Kept (s t : IndexState) (w : KvWorkerId) : Prop where
  live : w ∈ t.live → w ∈ s.live
  handle : t.handles w = s.handles w
  cursor : ∀ c, t.cursors w = some c → s.cursors w = some c
  tree : t.tree.Shows w → s.tree.Shows w
  returned : ∀ r ∈ t.returned, r.1 = w.url → r ∈ s.returned
  effects : ∀ e ∈ s.effects, e ∈ t.effects
  waiting : ∀ ev ∈ t.waiting, ev.worker = w → ev ∈ s.waiting
  passed : ∀ ev, t.passed = some ev → ev.worker = w → s.passed = some ev

variable {s t : IndexState} {w : KvWorkerId}

variable {n : Nat} {cs : List Call} {c : Call} {i : Nat} {ev : Sent}

theorem Fresh.of_returned (hret : ∀ r ∈ t.returned, r.1 = w.url → r ∈ s.returned)
    (h : s.Fresh w.url n) : t.Fresh w.url n :=
  fun r hr hurl => h r (hret r hr hurl) hurl

theorem Traced.kept (h : s.Traced w) (hk : Kept s t w) : t.Traced w where
  handle := by
    intro sub hsub
    rw [hk.handle] at hsub
    exact (h.handle sub hsub).of_returned hk.returned
  waiting := by
    intro ev hev hw hbatch hlive
    obtain ⟨hhandle, hborn⟩ := h.waiting ev (hk.waiting ev hev hw) hw hbatch (hk.live hlive)
    exact ⟨hk.handle.trans hhandle, hborn.of_returned hk.returned⟩
  passed := by
    intro ev hev hw hbatch
    obtain ⟨hsub, hborn, hhandle, hcursor⟩ := h.passed ev (hk.passed ev hev hw) hw hbatch
    refine ⟨hsub.of_returned hk.returned, hborn.of_returned hk.returned, ?_, ?_⟩
    · exact fun hlive => hk.handle.trans (hhandle (hk.live hlive))
    · exact fun c hc => hcursor c (hk.cursor c hc)
  cursor := by
    intro c hc hlive
    exact hk.handle.trans (h.cursor c (hk.cursor c hc) (hk.live hlive))
  tree := by
    intro hshow
    obtain ⟨e, he, hworker, hstores, hfresh⟩ := h.tree (hk.tree hshow)
    exact ⟨e, hk.effects e he, hworker, hstores, hfresh.of_returned hk.returned⟩

theorem Blank.traced (h : s.Blank w)
    (hwait : w ∈ s.live → ∀ ev ∈ s.waiting, ev.worker = w → ¬ ev.IsBatch) : s.Traced w where
  handle := by
    intro sub hsub
    rw [h.handle] at hsub
    cases hsub
  waiting := fun ev hev hw hbatch hlive => (hwait hlive ev hev hw hbatch).elim
  passed := fun ev hev hw hbatch => (h.passed ev hev hw hbatch).elim
  cursor := by
    intro c hc
    rw [h.cursor] at hc
    cases hc
  tree := fun hshow => (h.tree hshow).elim

theorem Gone.traced (h : s.Gone w) : s.Traced w :=
  h.2.traced fun hlive => (h.1 hlive).elim

/-- The point of a worker stays the same: a worker that is dead or has no handle gets nothing. -/
structure Still (s t : IndexState) (w : KvWorkerId) : Prop where
  live : w ∈ t.live ↔ w ∈ s.live
  handle : t.handles w = s.handles w
  task : ∀ sub, (w, sub) ∈ t.tasks → (w, sub) ∈ s.tasks
  rest : w ∉ s.live ∨ s.handles w = none → s.NotPassed w →
    t.NotPassed w ∧ (s.cursors w = none → t.cursors w = none) ∧ (t.tree.Shows w → s.tree.Shows w)

theorem Blank.still (h : s.Blank w) (hs : Still s t w) : t.Blank w := by
  obtain ⟨hpassed, hcursor, htree⟩ := hs.rest (.inr h.handle) h.passed
  refine ⟨?_, ?_, ?_, ?_, hpassed⟩
  · exact hs.handle.trans h.handle
  · exact fun sub hsub => h.task sub (hs.task sub hsub)
  · exact hcursor h.cursor
  · exact fun hshow => h.tree (htree hshow)

theorem Gone.still (h : s.Gone w) (hs : Still s t w) : t.Gone w :=
  ⟨fun hl => h.1 (hs.live.mp hl), h.2.still hs⟩

theorem Owned.still (h : s.Owned w) (hs : Still s t w) : t.Owned w :=
  fun sub hsub => hs.handle.trans (h sub (hs.task sub hsub))

theorem Closed.still (h : s.Closed w) (hs : Still s t w) : t.Closed w where
  live := fun hl => h.live (hs.live.mp hl)
  handle := hs.handle.trans h.handle
  task := fun sub hsub => h.task sub (hs.task sub hsub)
  passed := (hs.rest (.inl h.live) h.passed).1

theorem Adding.still (h : s.Adding w cs) (hs : Still s t w)
    (hworkers : t.workers w.url = s.workers w.url) : t.Adding w cs where
  adds := h.adds
  owned := h.owned.still hs
  ranks := fun c hc hr => hs.live.mpr (h.ranks c hc hr)
  entered := by
    rw [hworkers]
    exact h.entered
  entry := by
    rw [hs.live, hworkers]
    exact h.entry.imp (And.imp_right (Or.imp_right fun hb => hb.still hs)) fun hg => hg.still hs

theorem Leaving.still (h : s.Leaving w c) (hs : Still s t w) : t.Leaving w c := by
  have hgone : s.Gone w → t.Gone w := fun hg => hg.still hs
  have hlive : w ∉ s.live → w ∉ t.live := fun hn hl => hn (hs.live.mp hl)
  match c, h with
  | .taken ids, ⟨howned, hurl, hor⟩ =>
    exact ⟨howned.still hs, hurl, hor.imp id hgone⟩
  | .dead ids, ⟨howned, hdead, hor⟩ =>
    exact ⟨howned.still hs, hlive hdead, hor.imp id hgone⟩
  | .drained ids pending, ⟨hdead, hhandle, htask, hor⟩ =>
    exact ⟨hlive hdead, hs.handle.trans hhandle, fun sub hsub => htask sub (hs.task sub hsub),
      hor.imp id hgone⟩
  | .clearing ids, ⟨hclosed, hor⟩ => exact ⟨hclosed.still hs, hor.imp id hgone⟩
  | .cleared id ids, ⟨hclosed, hor, hshow⟩ =>
    refine ⟨hclosed.still hs, hor.imp (fun hmem => hmem) hgone, fun heq hshow' => hshow heq ?_⟩
    exact (hs.rest (.inl hclosed.live) hclosed.passed).2.2 hshow'

theorem Stage.still (h : s.Stage w cs) (hs : Still s t w)
    (hworkers : t.workers w.url = s.workers w.url) : t.Stage w cs := by
  rcases h with h | ⟨c, hcs, h⟩
  · exact .inl (h.still hs hworkers)
  · exact .inr ⟨c, hcs, h.still hs⟩

theorem Stage.owned (h : s.Stage w cs) (hlive : w ∈ s.live) : s.Owned w := by
  rcases h with h | ⟨c, _, h⟩
  · exact h.owned
  · match c, h with
    | .taken _, h => exact h.1
    | .dead _, h => exact h.1
    | .drained _ _, h => exact (h.1 hlive).elim
    | .clearing _, h => exact (h.1.live hlive).elim
    | .cleared _ _, h => exact (h.1.live hlive).elim

theorem Stage.leaving {before after : List Call}
    (h : s.Stage w (before ++ c :: after)) (hc : ¬ c.Adds) :
    before = [] ∧ after = [] ∧ s.Leaving w c := by
  rcases h with h | ⟨c', hcs, h⟩
  · exact (hc (h.adds c (by simp))).elim
  · obtain ⟨rfl, rfl, rfl⟩ : before = [] ∧ c = c' ∧ after = [] := by
      simpa [append_eq_singleton_iff] using hcs
    exact ⟨rfl, rfl, h⟩

theorem Stage.adding (h : s.Stage w cs) (hmem : c ∈ cs)
    (hc : c.Adds) : s.Adding w cs := by
  rcases h with h | ⟨c', rfl, h⟩
  · exact h
  · cases mem_singleton.mp hmem
    cases c with
    | marked _ => exact h.elim
    | entered _ => exact h.elim
    | _ => exact hc.elim

theorem Stage.adding_of_all (h : s.Stage w cs) (hadds : ∀ c ∈ cs, c.Adds) :
    s.Adding w cs := by
  have hstage := h
  rcases h with h | ⟨c, rfl, _⟩
  · exact h
  · exact hstage.adding (mem_singleton_self c) (hadds c (mem_singleton_self c))

theorem Sound.kept (h : s.Sound w) (hk : Kept s t w) (hs : Still s t w)
    (hworkers : t.workers w.url = s.workers w.url)
    (hcalls : t.callsOf w.url = s.callsOf w.url) : t.Sound w := by
  refine ⟨h.1.kept hk, ?_⟩
  rw [hcalls]
  exact h.2.still hs hworkers

theorem Inv.tick (h : ∀ w, t.Sound w) (hh : t.History n) :
    Inv { t with clock := n } where
  sound := by
    intro w
    refine (h w).kept ⟨?_, rfl, ?_, ?_, ?_, ?_, ?_, ?_⟩ ⟨Iff.rfl, rfl, ?_, ?_⟩ rfl rfl
    · exact fun hl => hl
    · exact fun c hc => hc
    · exact fun hs => hs
    · exact fun r hr _ => hr
    · exact fun e he => he
    · exact fun ev hev _ => hev
    · exact fun ev hev _ => hev
    · exact fun sub hsub => hsub
    · exact fun _ hp => ⟨hp, fun hc => hc, fun hs => hs⟩
  history := ⟨hh.applying, hh.effects, hh.returned_past, hh.effects_past⟩

theorem History.quiet (h : s.History n) (hpump : t.pump = s.pump)
    (hret : t.returned = s.returned) (heff : t.effects = s.effects) : t.History (n + 1) where
  applying := by
    rw [hpump]
    exact h.applying
  effects := by
    rw [hret, heff]
    exact h.effects
  returned_past := by
    rw [hret]
    exact fun r hr => Nat.lt_succ_of_lt (h.returned_past r hr)
  effects_past := by
    rw [heff]
    exact fun e he => Nat.lt_succ_of_lt (h.effects_past e he)

theorem History.returns {url : String} (h : s.History n) (hpump : t.pump = s.pump)
    (hret : t.returned = (url, n) :: s.returned) (heff : t.effects = s.effects) :
    t.History (n + 1) where
  applying := by
    rw [hpump]
    exact h.applying
  effects := by
    rw [hret, heff]
    intro e he r hr hurl htime
    rcases mem_cons.mp hr with rfl | hr
    · exact absurd (h.effects_past e he) (Nat.lt_asymm htime)
    · exact h.effects e he r hr hurl htime
  returned_past := by
    rw [hret]
    intro r hr
    rcases mem_cons.mp hr with rfl | hr
    · exact Nat.lt_succ_self n
    · exact Nat.lt_succ_of_lt (h.returned_past r hr)
  effects_past := by
    rw [heff]
    exact fun e he => Nat.lt_succ_of_lt (h.effects_past e he)

/-! ## Section 4: Lifecycle calls -/

variable {url : String}

/-- A call for another URL. -/
structure Elsewhere (s t : IndexState) (w : KvWorkerId) : Prop where
  live : w ∈ t.live ↔ w ∈ s.live
  handle : t.handles w = s.handles w
  task : ∀ sub, (w, sub) ∈ t.tasks → (w, sub) ∈ s.tasks
  workers : t.workers w.url = s.workers w.url
  cursor : ∀ c, t.cursors w = some c → s.cursors w = some c
  tree : t.tree.Shows w → s.tree.Shows w
  returned : ∀ r ∈ t.returned, r.1 = w.url → r ∈ s.returned
  effects : t.effects = s.effects
  queue : t.queue = s.queue
  pump : t.pump = s.pump

theorem Elsewhere.kept (h : Elsewhere s t w) : Kept s t w where
  live := h.live.mp
  handle := h.handle
  cursor := h.cursor
  tree := h.tree
  returned := h.returned
  effects := by
    rw [h.effects]
    exact fun e he => he
  waiting := by
    simp only [waiting, h.pump, h.queue]
    exact fun ev hev _ => hev
  passed := by
    simp only [passed, h.pump]
    exact fun ev hev _ => hev

theorem Elsewhere.still (h : Elsewhere s t w) : Still s t w where
  live := h.live
  handle := h.handle
  task := h.task
  rest := by
    intro _ hpassed
    refine ⟨?_, ?_, h.tree⟩
    · simpa only [NotPassed, passed, h.pump] using hpassed
    · intro hnone
      by_contra hsome
      obtain ⟨c, hc⟩ := Option.ne_none_iff_exists'.mp hsome
      rw [h.cursor c hc] at hnone
      cases hnone

theorem mem_workerIds {ranks : List Nat} : w ∈ workerIds url ranks ↔
    w.url = url ∧ w.dpRank ∈ ranks := by
  obtain ⟨u, r⟩ := w
  simp only [workerIds, mem_map, KvWorkerId.mk.injEq]
  constructor
  · rintro ⟨rank, hrank, rfl, rfl⟩
    exact ⟨rfl, hrank⟩
  · rintro ⟨rfl, hr⟩
    exact ⟨r, hr, rfl, rfl⟩

theorem calls_split (hi : s.calls[i]? = some (url, c)) :
    ∃ before after, s.calls = before ++ (url, c) :: after ∧
      (∀ c', s.calls.set i (url, c') = before ++ (url, c') :: after) ∧
      s.calls.eraseIdx i = before ++ after := by
  obtain ⟨hlt, hget⟩ := List.getElem?_eq_some_iff.mp hi
  refine ⟨s.calls.take i, s.calls.drop (i + 1), ?_, fun c' => ?_, ?_⟩
  · rw [← hget, getElem_cons_drop, take_append_drop]
  · exact set_eq_take_append_cons_drop.trans (if_pos hlt)
  · exact eraseIdx_eq_take_drop_succ ..

theorem callsOf_of_append {before after : List (String × Call)}
    (hcalls : s.calls = before ++ (url, c) :: after) (u : String) :
    s.callsOf u = ((before.filter fun call => call.1 = u).map Prod.snd) ++
      (if url = u then [c] else []) ++ (after.filter fun call => call.1 = u).map Prod.snd := by
  by_cases hu : url = u <;> simp [callsOf, hcalls, hu]

theorem sound_of_call (h : ∀ w, s.Sound w)
    (hcalls : ∀ u, u ≠ url → t.callsOf u = s.callsOf u)
    (hother : ∀ w : KvWorkerId, w.url ≠ url → Elsewhere s t w)
    (hown : ∀ w : KvWorkerId, w.url = url → s.Traced w → s.Stage w (s.callsOf url) →
      t.Traced w ∧ t.Stage w (t.callsOf url)) : ∀ w, t.Sound w := by
  intro w
  by_cases hw : w.url = url
  · obtain ⟨htraced, hstage⟩ := hown w hw (h w).1 (hw ▸ (h w).2)
    exact ⟨htraced, hw ▸ hstage⟩
  · have he := hother w hw
    exact (h w).kept he.kept he.still he.workers (hcalls w.url hw)

theorem sound_of_begin (h : ∀ w, s.Sound w) (hcalls : t.calls = s.calls ++ [(url, c)])
    (hother : ∀ w : KvWorkerId, w.url ≠ url → Elsewhere s t w)
    (hown : ∀ w : KvWorkerId, w.url = url → s.Traced w → s.Stage w (s.callsOf url) →
      t.Traced w ∧ t.Stage w (s.callsOf url ++ [c])) : ∀ w, t.Sound w := by
  have ht := callsOf_of_append hcalls
  refine sound_of_call h (fun u hu => ?_) hother fun w hw htraced hstage => ?_
  · rw [ht u, if_neg hu.symm]
    simp [callsOf]
  · have hstage' := hown w hw htraced hstage
    rw [ht url, if_pos rfl]
    simpa [callsOf] using hstage'

theorem sound_of_move {c c' : Call} (h : ∀ w, s.Sound w)
    (hi : s.calls[i]? = some (url, c)) (hcalls : t.calls = s.calls.set i (url, c'))
    (hother : ∀ w : KvWorkerId, w.url ≠ url → Elsewhere s t w)
    (hown : ∀ w : KvWorkerId, w.url = url → s.Traced w → ∀ before after,
      s.Stage w (before ++ c :: after) → t.Traced w ∧ t.Stage w (before ++ c' :: after)) :
    ∀ w, t.Sound w := by
  obtain ⟨before, after, hs, hset, -⟩ := calls_split hi
  have ht := callsOf_of_append (hcalls.trans (hset c'))
  have hs := callsOf_of_append hs
  refine sound_of_call h (fun u hu => ?_) hother fun w hw htraced hstage => ?_
  · rw [ht u, hs u, if_neg hu.symm, if_neg hu.symm]
  · rw [hs url, if_pos rfl, append_assoc] at hstage
    rw [ht url, if_pos rfl, append_assoc]
    exact hown w hw htraced _ _ hstage

theorem sound_of_finish (h : ∀ w, s.Sound w)
    (hi : s.calls[i]? = some (url, c)) (hcalls : t.calls = s.calls.eraseIdx i)
    (hother : ∀ w : KvWorkerId, w.url ≠ url → Elsewhere s t w)
    (hown : ∀ w : KvWorkerId, w.url = url → s.Traced w → ∀ before after,
      s.Stage w (before ++ c :: after) → t.Traced w ∧ t.Stage w (before ++ after)) :
    ∀ w, t.Sound w := by
  obtain ⟨before, after, hs, -, herase⟩ := calls_split hi
  have hs := callsOf_of_append hs
  have ht : ∀ u, t.callsOf u = ((before.filter fun call => call.1 = u).map Prod.snd) ++
      (after.filter fun call => call.1 = u).map Prod.snd := by
    intro u
    simp [callsOf, hcalls, herase]
  refine sound_of_call h (fun u hu => ?_) hother fun w hw htraced hstage => ?_
  · rw [ht u, hs u, if_neg hu.symm, append_nil]
  · rw [hs url, if_pos rfl, append_assoc] at hstage
    rw [ht url]
    exact hown w hw htraced _ _ hstage

theorem Sound.leaving (h : s.Sound w) (hi : s.calls[i]? = some (w.url, c))
    (hc : ¬ c.Adds) : s.Leaving w c := by
  obtain ⟨before, after, hs, -, -⟩ := calls_split hi
  have hstage := h.2
  rw [callsOf_of_append hs, if_pos rfl, append_assoc] at hstage
  exact (hstage.leaving hc).2.2

theorem sound_of_removal {c c' : Call} (h : ∀ w, s.Sound w)
    (hi : s.calls[i]? = some (url, c)) (hc : ¬ c.Adds) (hcalls : t.calls = s.calls.set i (url, c'))
    (hother : ∀ w : KvWorkerId, w.url ≠ url → Elsewhere s t w)
    (hown : ∀ w : KvWorkerId, w.url = url → s.Traced w → s.Leaving w c →
      t.Traced w ∧ t.Leaving w c') : ∀ w, t.Sound w := by
  refine sound_of_move h hi hcalls hother fun w hw htraced before after hstage => ?_
  obtain ⟨rfl, rfl, hleaving⟩ := hstage.leaving hc
  exact (hown w hw htraced hleaving).imp_right fun hl => .inr ⟨c', rfl, hl⟩

theorem Elsewhere.refl (s : IndexState) (w : KvWorkerId) : Elsewhere s s w where
  live := Iff.rfl
  handle := rfl
  task := fun _ h => h
  workers := rfl
  cursor := fun _ h => h
  tree := fun h => h
  returned := fun _ h _ => h
  effects := rfl
  queue := rfl
  pump := rfl

theorem mem_of_waiting (h : ev ∈ s.waiting) : ev ∈ s.queue ++ s.inHand.toList := by
  unfold waiting at h
  unfold inHand
  split at h
  · next ev' hpump =>
    rcases mem_cons.mp h with rfl | h
    · simp [hpump]
    · exact mem_append_left _ h
  · exact mem_append_left _ h

theorem addWorker_sound {cfg : Option EventConfig} (h : s.Inv) (hg : s.Guarded (.add url cfg)) :
    (∀ w, (s.addWorker url cfg).Sound w) ∧ (s.addWorker url cfg).History (s.clock + 1) := by
  have hsame : ∀ value : UInt32, (∀ w, ({ s with blockSize := value } : IndexState).Sound w) ∧
      ({ s with blockSize := value } : IndexState).History (s.clock + 1) := by
    intro value
    refine ⟨fun w => ?_, h.history.quiet rfl rfl rfl⟩
    have he : Elsewhere s { s with blockSize := value } w :=
      { Elsewhere.refl s w with }
    exact (h.sound w).kept he.kept he.still rfl rfl
  cases cfg with
  | none => exact hsame s.blockSize
  | some cfg =>
    cases hset : trySet s.blockSize cfg.blockSize with
    | none =>
      simp only [addWorker, hset]
      exact hsame s.blockSize
    | some value =>
      simp only [addWorker, hset]
      split
      · exact hsame value
      · next hranks =>
        have hacc : s.accepted (some cfg) = cfg.dpRanks := by simp [accepted, hset]
        simp only [Guarded, hacc] at hg
        -- Some rank is marked, so no removal of the URL is in progress.
        have hadds : ∀ c ∈ s.callsOf url, c.Adds := by
          obtain ⟨rank, hrank⟩ := exists_mem_of_ne_nil _ hranks
          exact (hg ⟨url, rank⟩ (mem_workerIds.mpr ⟨rfl, hrank⟩)).1
        refine ⟨sound_of_begin h.sound rfl ?_ ?_, h.history.quiet rfl rfl rfl⟩
        · intro w hw
          refine { Elsewhere.refl s w with live := ?_ }
          have hnot : w ∉ workerIds url cfg.dpRanks := fun hmem => hw (mem_workerIds.mp hmem).1
          simp [begin, hnot]
        · intro w hw htraced hstage
          have hold := hstage.adding_of_all hadds
          have hranks : ∀ c ∈ s.callsOf url ++ [.marked cfg.dpRanks], w.dpRank ∈ c.added →
              w ∈ s.live ∪ (workerIds url cfg.dpRanks).toFinset := by
            intro c hc hr
            rcases mem_append.mp hc with hc | hc
            · exact Finset.mem_union_left _ (hold.ranks c hc hr)
            · cases mem_singleton.mp hc
              exact Finset.mem_union_right _ (mem_toFinset.mpr (mem_workerIds.mpr ⟨hw, hr⟩))
          have hadds' : ∀ c ∈ s.callsOf url ++ [.marked cfg.dpRanks], c.Adds := by
            intro c hc
            rcases mem_append.mp hc with hc | hc
            · exact hadds c hc
            · cases mem_singleton.mp hc
              trivial
          have hentered : ∀ ranks, .entered ranks ∈ s.callsOf url ++ [.marked cfg.dpRanks] →
              s.workers w.url ≠ none :=
            fun ranks hmem => hold.entered ranks (by simpa using hmem)
          by_cases hnew : w ∈ workerIds url cfg.dpRanks ∧ w ∉ s.live
          · -- A dead worker comes to life: the index has nothing of it, and nothing waits.
            have hblank : s.Blank w := (hold.entry.resolve_left fun hl => hnew.2 hl.1).2
            have hblank' : ({ s with
                blockSize := value
                live := s.live ∪ (workerIds url cfg.dpRanks).toFinset } : IndexState).Blank w :=
              { hblank with }
            refine ⟨Blank.traced { hblank' with } ?_,
              .inl ⟨hadds', hold.owned, hranks, hentered, .inl ⟨?_, .inr { hblank' with }⟩⟩⟩
            · intro _ ev hev
              exact (hg w hnew.1).2 hnew.2 ev (mem_of_waiting hev)
            · exact Finset.mem_union_right _ (mem_toFinset.mpr hnew.1)
          · have hlive : w ∈ s.live ∪ (workerIds url cfg.dpRanks).toFinset ↔ w ∈ s.live := by
              rw [Finset.mem_union, mem_toFinset]
              tauto
            have he : Elsewhere s { s with
                live := s.live ∪ (workerIds url cfg.dpRanks).toFinset } w :=
              { Elsewhere.refl s w with live := hlive }
            refine ⟨htraced.kept { he.kept with },
              .inl ⟨hadds', hold.owned, hranks, hentered, ?_⟩⟩
            rcases hold.entry with ⟨hl, hentry⟩ | hgone
            · exact .inl ⟨hlive.mpr hl, hentry.imp_right fun hb => hb.still { he.still with }⟩
            · exact .inr (hgone.still { he.still with })

theorem removeWorker_sound (h : s.Inv) (hg : s.Guarded (.remove url)) :
    (∀ w, (s.removeWorker url).Sound w) ∧ (s.removeWorker url).History (s.clock + 1) := by
  obtain ⟨hadds, hfound⟩ := hg
  cases hentry : s.workers url with
  | none =>
    simp only [removeWorker, hentry]
    refine ⟨@sound_of_call s _ url h.sound (fun u _ => rfl) ?_ ?_, h.history.returns rfl rfl rfl⟩
    · intro w hw
      refine { Elsewhere.refl s w with returned := ?_ }
      intro r hr hurl
      refine (mem_cons.mp hr).resolve_left ?_
      rintro rfl
      exact hw hurl.symm
    · -- Without an entry the index has nothing of the workers of the URL.
      intro w hw htraced hstage
      have hold := hstage.adding_of_all hadds
      have hstill : Still s { s with returned := (url, s.clock) :: s.returned } w :=
        { (Elsewhere.refl s w).still with }
      have hblank : s.Blank w := by
        rcases hold.entry with ⟨_, hsome | hblank⟩ | hgone
        · exact (hsome (hw ▸ hentry)).elim
        · exact hblank
        · exact hgone.2
      refine ⟨(hblank.still hstill).traced ?_, .inl (hold.still hstill rfl)⟩
      intro hlive ev hev hw' hbatch
      have := (htraced.waiting ev hev hw' hbatch hlive).1
      rw [hblank.handle] at this
      cases this
  | some ranks =>
    obtain ⟨halone, hlisted⟩ := hfound ranks hentry
    simp only [removeWorker, hentry]
    refine ⟨sound_of_begin h.sound rfl ?_ ?_, h.history.quiet rfl rfl rfl⟩
    · intro w hw
      exact { Elsewhere.refl s w with workers := update_of_ne hw _ _ }
    · intro w hw htraced hstage
      have hold := hstage.adding_of_all hadds
      refine ⟨htraced.kept { (Elsewhere.refl s w).kept with }, ?_⟩
      rw [halone]
      refine .inr ⟨_, rfl, hold.owned, ?_, ?_⟩
      · intro id hid
        rw [(mem_workerIds.mp hid).1, hw]
      · rcases hold.entry with hl | hgone
        · exact .inl (mem_workerIds.mpr ⟨hw, hlisted w hl.1 hw⟩)
        · exact .inr (hgone.still { (Elsewhere.refl s w).still with })

theorem foldl_subscribe (ids : List KvWorkerId) : ∀ s : IndexState,
    ids.foldl subscribe s =
        { s with handles := (ids.foldl subscribe s).handles,
                 tasks := (ids.foldl subscribe s).tasks } ∧
      (∀ w, (ids.foldl subscribe s).handles w =
        if s.handles w = none ∧ w ∈ ids then some s.clock else s.handles w) ∧
      ∀ w sub, (w, sub) ∈ (ids.foldl subscribe s).tasks →
        (w, sub) ∈ s.tasks ∨ s.handles w = none ∧ w ∈ ids ∧ sub = s.clock := by
  induction ids with
  | nil =>
    intro s
    exact ⟨rfl, fun w => by simp, fun w sub h => .inl h⟩
  | cons id ids ih =>
    intro s
    obtain ⟨heq, hhandles, htasks⟩ := ih (s.subscribe id)
    rw [foldl_cons]
    cases hid : s.handles id with
    | some sub =>
      have hskip : s.subscribe id = s := by simp [subscribe, hid]
      rw [hskip] at heq hhandles htasks ⊢
      refine ⟨heq, fun w => ?_, fun w sub' h => ?_⟩
      · rw [hhandles w]
        by_cases hw : w = id
        · subst hw
          simp [hid]
        · simp [hw]
      · rcases htasks w sub' h with h | ⟨hnone, hmem, hsub⟩
        · exact .inl h
        · exact .inr ⟨hnone, mem_cons_of_mem _ hmem, hsub⟩
    | none =>
      have hnew : s.subscribe id = { s with
          handles := Function.update s.handles id (some s.clock)
          tasks := insert (id, s.clock) s.tasks } := by simp [subscribe, hid]
      rw [hnew] at heq hhandles htasks ⊢
      refine ⟨heq, fun w => ?_, fun w sub' h => ?_⟩
      · rw [hhandles w]
        by_cases hw : w = id
        · subst hw
          simp [hid]
        · simp [hw]
      · rcases htasks w sub' h with h | ⟨hnone, hmem, hsub⟩
        · rcases Finset.mem_insert.mp h with h | h
          · cases h
            exact .inr ⟨hid, mem_cons_self .., rfl⟩
          · exact .inl h
        · refine .inr ⟨?_, mem_cons_of_mem _ hmem, hsub⟩
          by_cases hw : w = id
          · subst hw
            exact hid
          · simpa [hw] using hnone

theorem enter_sound {ranks : List Nat} (h : s.Inv)
    (hi : s.calls[i]? = some (url, .marked ranks)) :
    ∀ w, (({ s with workers := Function.update s.workers url (some ranks) } : IndexState).moveTo i
      url (.entered ranks)).Sound w := by
  refine sound_of_move h.sound hi rfl ?_ ?_
  · intro w hw
    exact { Elsewhere.refl s w with workers := update_of_ne hw _ _ }
  · intro w hw htraced before after hstage
    have hold := hstage.adding (c := .marked ranks) (by simp) trivial
    have hsome : Function.update s.workers url (some ranks) w.url ≠ none := by simp [hw]
    refine ⟨htraced.kept { (Elsewhere.refl s w).kept with },
      .inl ⟨?_, hold.owned, ?_, fun _ _ => hsome, ?_⟩⟩
    · intro c hc
      rcases mem_append.mp hc with hc | hc
      · exact hold.adds c (by simp [hc])
      · rcases mem_cons.mp hc with rfl | hc
        · trivial
        · exact hold.adds c (by simp [hc])
    · intro c hc hr
      rcases mem_append.mp hc with hc | hc
      · exact hold.ranks c (by simp [hc]) hr
      · rcases mem_cons.mp hc with rfl | hc
        · exact hold.ranks (.marked ranks) (by simp) hr
        · exact hold.ranks c (by simp [hc]) hr
    · exact hold.entry.imp (fun hl => ⟨hl.1, .inl hsome⟩) fun hgone =>
        hgone.still { (Elsewhere.refl s w).still with }

/-- `add_worker` subscribes to the ranks without a handle and returns. -/
theorem subscribe_sound {ranks : List Nat} (h : s.Inv)
    (hi : s.calls[i]? = some (url, .entered ranks)) :
    ∀ w, (((workerIds url ranks).foldl subscribe s).finish i).Sound w := by
  obtain ⟨heq, hhandles, htasks⟩ := foldl_subscribe (workerIds url ranks) s
  rw [heq]
  generalize (workerIds url ranks).foldl subscribe s = u at hhandles htasks
  -- The handle and the tasks of a worker outside the list, or with a handle, stay.
  have hold : ∀ w, ¬ (s.handles w = none ∧ w ∈ workerIds url ranks) →
      u.handles w = s.handles w ∧ ∀ sub, (w, sub) ∈ u.tasks → (w, sub) ∈ s.tasks := by
    intro w hw
    refine ⟨by rw [hhandles, if_neg hw], fun sub hsub => ?_⟩
    exact (htasks w sub hsub).resolve_right fun hnew => hw ⟨hnew.1, hnew.2.1⟩
  refine sound_of_finish h.sound hi rfl ?_ ?_
  · intro w hw
    obtain ⟨hhandle, htask⟩ := hold w fun hnew => hw (mem_workerIds.mp hnew.2).1
    exact { Elsewhere.refl s w with handle := hhandle, task := htask }
  · intro w hw htraced before after hstage
    have hadding := hstage.adding (c := .entered ranks) (by simp) trivial
    -- The other calls of the URL stay.
    have hrest : ∀ c ∈ before ++ after, c ∈ before ++ .entered ranks :: after := by
      intro c hc
      rcases mem_append.mp hc with hc | hc <;> simp [hc]
    have hentered : ∀ ranks', .entered ranks' ∈ before ++ after → s.workers w.url ≠ none :=
      fun ranks' hmem => hadding.entered ranks' (hrest _ hmem)
    have hsome : s.workers w.url ≠ none := hadding.entered ranks (by simp)
    by_cases hnew : s.handles w = none ∧ w ∈ workerIds url ranks
    · have hlive : w ∈ s.live :=
        hadding.ranks (.entered ranks) (by simp) (mem_workerIds.mp hnew.2).2
      have hhandle : u.handles w = some s.clock := by rw [hhandles, if_pos hnew]
      -- A live worker without a subscription has nothing on its way.
      refine ⟨⟨?_, ?_, ?_, ?_, htraced.tree⟩,
        .inl ⟨?_, ?_, ?_, hentered, .inl ⟨hlive, .inl hsome⟩⟩⟩
      · intro sub hsub r hr _
        cases hhandle.symm.trans hsub
        exact h.history.returned_past r hr
      · intro ev hev hw' hbatch _
        have := (htraced.waiting ev hev hw' hbatch hlive).1
        rw [hnew.1] at this
        cases this
      · intro ev hev hw' hbatch
        have := (htraced.passed ev hev hw' hbatch).2.2.1 hlive
        rw [hnew.1] at this
        cases this
      · intro c hc _
        have := htraced.cursor c hc hlive
        rw [hnew.1] at this
        cases this
      · exact fun c hc => hadding.adds c (hrest c hc)
      · intro sub hsub
        rcases htasks w sub hsub with hold | ⟨_, _, rfl⟩
        · have := hadding.owned sub hold
          rw [hnew.1] at this
          cases this
        · exact hhandle
      · exact fun c hc hr => hadding.ranks c (hrest c hc) hr
    · obtain ⟨hhandle, htask⟩ := hold w hnew
      have he : Elsewhere s { s with handles := u.handles, tasks := u.tasks } w :=
        { Elsewhere.refl s w with handle := hhandle, task := htask }
      refine ⟨htraced.kept { he.kept with }, .inl ⟨fun c hc => hadding.adds c (hrest c hc),
        hadding.owned.still { he.still with }, fun c hc hr => hadding.ranks c (hrest c hc) hr,
        hentered, ?_⟩⟩
      exact hadding.entry.imp (fun hl => ⟨hl.1, .inl hsome⟩) fun hgone =>
        hgone.still { he.still with }

theorem markDead_sound {ids : List KvWorkerId} (h : s.Inv)
    (hi : s.calls[i]? = some (url, .taken ids)) :
    ∀ w, (({ s with live := s.live \ ids.toFinset } : IndexState).moveTo i url
      (.dead ids)).Sound w := by
  refine sound_of_removal h.sound hi not_false rfl ?_ ?_
  · intro w hw
    have hleaving := (h.sound ⟨url, 0⟩).leaving hi not_false
    have hnot : w ∉ ids := fun hmem => hw (hleaving.2.1 w hmem)
    exact { Elsewhere.refl s w with live := by simp [moveTo, hnot] }
  · intro w hw htraced hstage
    obtain ⟨howned, _, hor⟩ := hstage
    refine ⟨htraced.kept { (Elsewhere.refl s w).kept with
      live := fun hl => (Finset.mem_sdiff.mp hl).1 }, howned, ?_, ?_⟩
    · intro hl
      obtain ⟨hl, hnot⟩ := Finset.mem_sdiff.mp hl
      rcases hor with hmem | hgone
      · exact hnot (mem_toFinset.mpr hmem)
      · exact hgone.1 hl
    · refine hor.imp (fun hmem => hmem) fun hgone => ⟨?_, ?_⟩
      · exact fun hl => hgone.1 (Finset.mem_sdiff.mp hl).1
      · exact { hgone.2 with }

theorem drain_sound {ids : List KvWorkerId} (h : s.Inv) (hi : s.calls[i]? = some (url, .dead ids)) :
    ∀ w, (({ s with handles := fun id => if id.url = url then none else s.handles id } :
      IndexState).moveTo i url (.drained ids
        (s.tasks.filter fun t => t.1.url = url ∧ s.handles t.1 = some t.2))).Sound w := by
  refine sound_of_removal h.sound hi not_false rfl ?_ ?_
  · intro w hw
    exact { Elsewhere.refl s w with handle := if_neg hw }
  · intro w hw htraced hstage
    obtain ⟨howned, hdead, hor⟩ := hstage
    have hnone : (if w.url = url then none else s.handles w) = none := if_pos hw
    refine ⟨⟨?_, ?_, ?_, ?_, htraced.tree⟩, hdead, hnone, ?_, ?_⟩
    · intro sub hsub
      cases hnone.symm.trans hsub
    · exact fun ev hev hw' hbatch hl => (hdead hl).elim
    · intro ev hev hw' hbatch
      obtain ⟨hsub, hborn, _, hcursor⟩ := htraced.passed ev hev hw' hbatch
      exact ⟨hsub, hborn, fun hl => (hdead hl).elim, hcursor⟩
    · exact fun c hc hl => (hdead hl).elim
    · intro sub hsub
      exact Finset.mem_filter.mpr ⟨hsub, hw, howned sub hsub⟩
    · refine hor.imp (fun hmem => hmem) fun hgone => ⟨hgone.1, ?_⟩
      exact { hgone.2 with handle := hnone }

theorem lock_sound {ids : List KvWorkerId} {pending : Finset (KvWorkerId × Nat)} (h : s.Inv)
    (hi : s.calls[i]? = some (url, .drained ids pending)) (hjoined : ∀ t ∈ pending, t ∉ s.tasks)
    (hpassed : ∀ ev ∈ s.passed.toList, ev.worker.url = url → ¬ ev.IsBatch) :
    ∀ w, (({ s with cursorsLock := some url } : IndexState).moveTo i url
      (.clearing ids)).Sound w := by
  refine sound_of_removal h.sound hi not_false rfl (fun w hw => { Elsewhere.refl s w with }) ?_
  intro w hw htraced hstage
  obtain ⟨hdead, hhandle, htask, hor⟩ := hstage
  refine ⟨htraced.kept { (Elsewhere.refl s w).kept with }, ⟨hdead, hhandle, ?_, ?_⟩, ?_⟩
  · exact fun sub hsub => hjoined _ (htask sub hsub) hsub
  · intro ev hev hw'
    exact hpassed ev (Option.mem_toList.mpr hev) (hw' ▸ hw)
  · exact hor.imp (fun hmem => hmem) fun hgone =>
      hgone.still { (Elsewhere.refl s w).still with }

theorem return_sound (h : s.Inv) (hi : s.calls[i]? = some (url, .clearing [])) :
    ∀ w, (({ s with cursorsLock := none, returned := (url, s.clock) :: s.returned } :
      IndexState).finish i).Sound w := by
  refine sound_of_finish h.sound hi rfl ?_ ?_
  · intro w hw
    refine { Elsewhere.refl s w with returned := ?_ }
    intro r hr hurl
    refine (mem_cons.mp hr).resolve_left ?_
    rintro rfl
    exact hw hurl.symm
  · intro w hw _ before after hstage
    obtain ⟨rfl, rfl, hleaving⟩ := hstage.leaving not_false
    have hgone : s.Gone w := hleaving.2.resolve_left not_mem_nil
    have hgone' : (({ s with cursorsLock := none, returned := (url, s.clock) :: s.returned } :
        IndexState).finish i).Gone w := hgone.still { (Elsewhere.refl s w).still with }
    exact ⟨hgone'.traced, .inl ⟨forall_mem_nil _, fun sub hsub => (hgone.2.task sub hsub).elim,
      forall_mem_nil _, fun _ hmem => (not_mem_nil hmem).elim, .inr hgone'⟩⟩

theorem clearTree_sound {id : KvWorkerId} {ids : List KvWorkerId} {order : HashOrder} (h : s.Inv)
    (hi : s.calls[i]? = some (url, .clearing (id :: ids))) :
    ∀ w, (({ s with tree := s.tree.clearWorker order id } : IndexState).moveTo i url
      (.cleared id ids)).Sound w := by
  have hfewer := s.tree.fewer_clearWorker order id
  refine sound_of_removal h.sound hi not_false rfl
    (fun w hw => { Elsewhere.refl s w with tree := hfewer.shows }) ?_
  intro w hw htraced hstage
  obtain ⟨hclosed, hor⟩ := hstage
  have he : Elsewhere s { s with tree := s.tree.clearWorker order id } w :=
    { Elsewhere.refl s w with tree := hfewer.shows }
  refine ⟨htraced.kept { he.kept with }, hclosed.still { he.still with }, ?_, ?_⟩
  · exact hor.imp (fun hmem => hmem) fun hgone => hgone.still { he.still with }
  · rintro rfl
    exact s.tree.not_shows_clearWorker order w

theorem dropCursor_sound {id : KvWorkerId} {ids : List KvWorkerId} (h : s.Inv)
    (hi : s.calls[i]? = some (url, .cleared id ids)) :
    ∀ w, (({ s with cursors := Function.update s.cursors id none } : IndexState).moveTo i url
      (.clearing ids)).Sound w := by
  have hcursor : ∀ w c, Function.update s.cursors id none w = some c → s.cursors w = some c := by
    intro w c hc
    by_cases hw : w = id
    · subst hw
      simp at hc
    · rwa [update_of_ne hw] at hc
  refine sound_of_removal h.sound hi not_false rfl
    (fun w hw => { Elsewhere.refl s w with cursor := hcursor w }) ?_
  intro w hw htraced hstage
  obtain ⟨hclosed, hor, hshows⟩ := hstage
  have he : Elsewhere s { s with cursors := Function.update s.cursors id none } w :=
    { Elsewhere.refl s w with cursor := hcursor w }
  refine ⟨htraced.kept { he.kept with }, hclosed.still { he.still with }, ?_⟩
  by_cases hid : w = id
  · subst hid
    refine .inr ⟨hclosed.live, hclosed.handle, hclosed.task, ?_, hshows rfl, hclosed.passed⟩
    simp [moveTo]
  · rcases hor with hmem | hgone
    · exact .inl ((mem_cons.mp hmem).resolve_left hid)
    · exact .inr (hgone.still { he.still with })

theorem advance_sound {order : HashOrder} (h : s.Inv) (hg : s.Guarded (.advance order i))
    (ht : s.advance order i = some t) : (∀ w, t.Sound w) ∧ t.History (s.clock + 1) := by
  unfold advance at ht
  split at ht
  · cases ht
  · next url ranks hi =>
    cases ht
    exact ⟨enter_sound h hi, h.history.quiet rfl rfl rfl⟩
  · next url ranks hi =>
    cases ht
    refine ⟨subscribe_sound h hi, ?_⟩
    rw [(foldl_subscribe (workerIds url ranks) s).1]
    exact h.history.quiet rfl rfl rfl
  · next url ids hi =>
    cases ht
    exact ⟨markDead_sound h hi, h.history.quiet rfl rfl rfl⟩
  · next url ids hi =>
    cases ht
    exact ⟨drain_sound h hi, h.history.quiet rfl rfl rfl⟩
  · next url ids pending hi =>
    simp only [Guarded, hi] at hg
    split at ht
    · next hcond =>
      cases ht
      exact ⟨lock_sound h hi hcond.1 hg, h.history.quiet rfl rfl rfl⟩
    · cases ht
  · next url hi =>
    cases ht
    exact ⟨return_sound h hi, h.history.returns rfl rfl rfl⟩
  · next url id ids hi =>
    cases ht
    exact ⟨clearTree_sound h hi, h.history.quiet rfl rfl rfl⟩
  · next url id ids hi =>
    cases ht
    exact ⟨dropCursor_sound h hi, h.history.quiet rfl rfl rfl⟩

/-! ## Section 5: Tasks and the pump -/

theorem send_sound {worker : KvWorkerId} {sub : Nat} {event : WorkerEvent} (h : s.Inv)
    (ht : s.send worker sub event = some t) : (∀ w, t.Sound w) ∧ t.History (s.clock + 1) := by
  unfold send at ht
  split at ht
  · next hcond =>
    cases ht
    refine ⟨fun w => ?_, h.history.quiet rfl rfl rfl⟩
    obtain ⟨htraced, hstage⟩ := h.sound w
    have hwait : ∀ ev, ev ∈ ({ s with queue := s.queue ++ [⟨worker, event, sub, s.clock⟩] } :
        IndexState).waiting → ev ∈ s.waiting ∨ ev = ⟨worker, event, sub, s.clock⟩ := by
      intro ev hev
      simp only [waiting] at hev ⊢
      split at hev
      · simpa [or_assoc] using hev
      · simpa using hev
    refine ⟨⟨htraced.handle, ?_, htraced.passed, htraced.cursor, htraced.tree⟩, ?_⟩
    · intro ev hev hw hbatch hlive
      rcases hwait ev hev with hold | rfl
      · exact htraced.waiting ev hold hw hbatch hlive
      · cases hw
        refine ⟨hstage.owned hlive sub hcond.1, ?_⟩
        exact fun r hr _ => h.history.returned_past r hr
    · exact hstage.still { (Elsewhere.refl s w).still with } rfl
  · cases ht

theorem exit_sound {worker : KvWorkerId} {sub : Nat} (h : s.Inv)
    (ht : s.exit worker sub = some t) : (∀ w, t.Sound w) ∧ t.History (s.clock + 1) := by
  unfold exit at ht
  split at ht
  · cases ht
    refine ⟨fun w => ?_, h.history.quiet rfl rfl rfl⟩
    have he : Elsewhere s { s with tasks := s.tasks.erase (worker, sub) } w :=
      { Elsewhere.refl s w with task := fun _ hsub => Finset.mem_of_mem_erase hsub }
    exact (h.sound w).kept he.kept he.still rfl rfl
  · cases ht

theorem sound_of_pump {pump : Pump} {queue : List Sent}
    {cursors : KvWorkerId → Option Cursor} (h : s.Sound w)
    (hcursor : ∀ c, cursors w = some c → s.cursors w = some c)
    (hwait : ∀ ev ∈ ({ s with cursors := cursors, queue := queue, pump := pump } :
      IndexState).waiting, ev.worker = w → ev ∈ s.waiting)
    (hpassed : ∀ ev, ({ s with cursors := cursors, queue := queue, pump := pump } :
      IndexState).passed = some ev → ev.worker = w → s.passed = some ev) :
    ({ s with cursors := cursors, queue := queue, pump := pump } : IndexState).Sound w := by
  refine h.kept { (Elsewhere.refl s w).kept with
    cursor := hcursor, waiting := hwait, passed := hpassed } ⟨Iff.rfl, rfl, ?_, ?_⟩ rfl rfl
  · exact fun sub hsub => hsub
  · intro _ hnot
    refine ⟨fun ev hev hw => hnot ev (hpassed ev hev hw) hw, fun hnone => ?_, fun hs => hs⟩
    by_contra hsome
    obtain ⟨c, hc⟩ := Option.ne_none_iff_exists'.mp hsome
    rw [hcursor c hc] at hnone
    cases hnone

theorem sound_of_live (h : s.Sound w) (hpump : s.pump = .received ev)
    (hlive : ev.worker ∈ s.live) : ({ s with pump := .live ev } : IndexState).Sound w := by
  obtain ⟨htraced, hstage⟩ := h
  have hqueue : ∀ ev' ∈ s.queue, ev' ∈ s.waiting := by
    intro ev' hev'
    simp [waiting, hpump, hev']
  have hwaits : ev.worker = w → ev.IsBatch →
      s.handles w = some ev.sub ∧ s.Fresh w.url ev.born := by
    intro hw hbatch
    exact htraced.waiting ev (by simp [waiting, hpump]) hw hbatch (hw ▸ hlive)
  refine ⟨⟨htraced.handle, fun ev' hev' => htraced.waiting ev' (hqueue ev' hev'), ?_,
    htraced.cursor, htraced.tree⟩, ?_⟩
  · intro ev' hev' hw hbatch
    cases hev'
    obtain ⟨hhandle, hborn⟩ := hwaits hw hbatch
    refine ⟨htraced.handle _ hhandle, hborn, fun _ => hhandle, fun c hc => ?_⟩
    exact Option.some.inj ((htraced.cursor c hc (hw ▸ hlive)).symm.trans hhandle)
  · refine hstage.still ⟨Iff.rfl, rfl, fun sub hsub => hsub, fun hnone _ => ⟨?_, ?_, ?_⟩⟩ rfl
    · -- A live worker of which a batch waits has a handle.
      intro ev' hev' hw hbatch
      cases hev'
      have hhandle := (hwaits hw hbatch).1
      rw [hnone.resolve_left fun hdead => hdead (hw ▸ hlive)] at hhandle
      cases hhandle
    · exact fun hnone => hnone
    · exact fun hs => hs

theorem History.effect {update : Option KvCacheEvent} (h : s.History n)
    (htraced : s.Traced ev.worker) (hpassed : s.passed = some ev) (hbatch : ev.IsBatch)
    (happlying : ∀ ev seq rest, t.pump = .applying ev seq rest → ev.IsBatch)
    (hret : t.returned = s.returned)
    (heff : t.effects = ⟨ev.worker, ev.sub, ev.born, n, update⟩ :: s.effects) :
    t.History (n + 1) where
  applying := happlying
  effects := by
    rw [hret, heff]
    intro e he r hr hurl htime
    rcases mem_cons.mp he with rfl | he
    · obtain ⟨hsub, hborn, _⟩ := htraced.passed ev hpassed rfl hbatch
      exact ⟨hborn r hr hurl, hsub r hr hurl⟩
    · exact h.effects e he r hr hurl htime
  returned_past := by
    rw [hret]
    exact fun r hr => Nat.lt_succ_of_lt (h.returned_past r hr)
  effects_past := by
    rw [heff]
    intro e he
    rcases mem_cons.mp he with rfl | he
    · exact Nat.lt_succ_self n
    · exact Nat.lt_succ_of_lt (h.effects_past e he)

theorem sound_of_write {seq : Int64} {effects : List Effect} (h : s.Sound w)
    (hpump : s.pump = .applying ev seq []) (hbatch : ev.IsBatch)
    (heff : ∀ e ∈ s.effects, e ∈ effects) :
    ({ s with cursors := Function.update s.cursors ev.worker (some ⟨seq, ev.sub⟩), pump := .idle,
              effects := effects } : IndexState).Sound w := by
  obtain ⟨htraced, hstage⟩ := h
  have hpassed : s.passed = some ev := by simp [passed, hpump]
  refine ⟨⟨htraced.handle, ?_, ?_, ?_, ?_⟩, ?_⟩
  · intro ev' hev'
    apply htraced.waiting ev'
    simpa [waiting, hpump] using hev'
  · intro ev' hev'
    cases hev'
  · intro c hc hlive
    by_cases hw : w = ev.worker
    · subst hw
      have hc : Function.update s.cursors ev.worker (some ⟨seq, ev.sub⟩) ev.worker = some c := hc
      rw [update_self] at hc
      cases hc
      exact (htraced.passed ev hpassed rfl hbatch).2.2.1 hlive
    · have hc : Function.update s.cursors ev.worker (some ⟨seq, ev.sub⟩) w = some c := hc
      rw [update_of_ne hw] at hc
      exact htraced.cursor c hc hlive
  · intro hshow
    obtain ⟨e, he, hrest⟩ := htraced.tree hshow
    exact ⟨e, heff e he, hrest⟩
  · -- A detached worker is not the one whose batch is applied.
    refine hstage.still ⟨Iff.rfl, rfl, fun sub hsub => hsub, fun _ hnot => ⟨?_, ?_, ?_⟩⟩ rfl
    · intro ev' hev'
      cases hev'
    · intro hnone
      have hw : w ≠ ev.worker := fun hw => hnot ev hpassed hw.symm hbatch
      exact (update_of_ne hw _ _).trans hnone
    · exact fun hs => hs

/-- An event of a batch adds no worker but its own to the tree, and this one by a store only. -/
theorem shows_applyEvent {tree : TreeState} {order : HashOrder} {now : Nat} {worker : KvWorkerId}
    {event : KvCacheEvent} (h : (applyEvent tree order now worker event).Shows w) :
    tree.Shows w ∨ w = worker ∧ ∃ parentHash blockHashes,
    event = .blockStored parentHash blockHashes := by
  cases event with
  | blockStored parentHash blockHashes =>
    exact (TreeState.shows_insert h).imp (fun hs => hs) fun hw => ⟨hw, parentHash, blockHashes, rfl⟩
  | blockRemoved blockHashes => exact .inl ((tree.fewer_remove order worker blockHashes).shows h)
  | allBlocksCleared => exact .inl ((tree.fewer_clearWorker order worker).shows h)

theorem sound_of_apply {seq : Int64} {event : KvCacheEvent} {rest : List KvCacheEvent}
    {order : HashOrder} {now : Nat} (h : s.Sound w)
    (hpump : s.pump = .applying ev seq (event :: rest)) (hbatch : ev.IsBatch) :
    ({ s with tree := applyEvent s.tree order now ev.worker event
              pump := .applying ev seq rest
              effects := ⟨ev.worker, ev.sub, ev.born, s.clock, some event⟩ :: s.effects } :
      IndexState).Sound w := by
  obtain ⟨htraced, hstage⟩ := h
  have hpassed : s.passed = some ev := by simp [passed, hpump]
  refine ⟨⟨htraced.handle, ?_, ?_, htraced.cursor, ?_⟩, ?_⟩
  · intro ev' hev'
    apply htraced.waiting ev'
    simpa [waiting, hpump] using hev'
  · intro ev' hev'
    apply htraced.passed ev'
    simpa [passed, hpump] using hev'
  · intro hshow
    rcases shows_applyEvent hshow with hshow | ⟨hw, parentHash, blockHashes, hevent⟩
    · obtain ⟨e, he, hrest⟩ := htraced.tree hshow
      exact ⟨e, mem_cons_of_mem _ he, hrest⟩
    · refine ⟨_, mem_cons_self .., hw.symm, ?_, ?_⟩
      · rw [hevent]
        trivial
      · exact (htraced.passed ev hpassed hw.symm hbatch).1
  · refine hstage.still ⟨Iff.rfl, rfl, fun sub hsub => hsub, fun _ hnot => ⟨?_, ?_, ?_⟩⟩ rfl
    · intro ev' hev'
      apply hnot ev'
      simpa [passed, hpump] using hev'
    · exact fun hnone => hnone
    · intro hshow
      exact (shows_applyEvent hshow).resolve_right fun hw => hnot ev hpassed hw.1.symm hbatch

theorem pumpStep_sound {order : HashOrder} {now : Nat} (h : s.Inv)
    (ht : s.pumpStep order now = some t) : (∀ w, t.Sound w) ∧ t.History (s.clock + 1) := by
  -- only a batch reaches the tree or the map: the other steps have no effect
  have hquiet : ∀ {pump : Pump} {queue : List Sent} {cursors : KvWorkerId → Option Cursor},
      (∀ ev seq rest, pump = .applying ev seq rest → ev.IsBatch) →
      ({ s with cursors := cursors, queue := queue, pump := pump } :
        IndexState).History (s.clock + 1) := by
    intro pump queue cursors happlying
    have hh := @History.quiet s { s with cursors := cursors, queue := queue } _ h.history rfl rfl
      rfl
    exact ⟨happlying, hh.effects, hh.returned_past, hh.effects_past⟩
  unfold pumpStep at ht
  split at ht
  · next hpump =>
    split at ht
    · cases ht
    · next ev queue hqueue =>
      cases ht
      refine ⟨fun w => sound_of_pump (h.sound w) (fun c hc => hc) ?_ ?_, hquiet (by simp)⟩
      · intro ev' hev' _
        simpa [waiting, hpump, hqueue] using hev'
      · intro ev' hev'
        cases hev'
  · next ev hpump =>
    split at ht
    · next hlive =>
      cases ht
      exact ⟨fun w => sound_of_live (h.sound w) hpump hlive, hquiet (by simp)⟩
    · cases ht
      refine ⟨fun w => sound_of_pump (h.sound w) (fun c hc => hc) ?_ ?_, hquiet (by simp)⟩
      · -- the worker is gone: the event is dropped
        intro ev' hev' _
        have hev' : ev' ∈ s.queue := by simpa [waiting] using hev'
        simp [waiting, hpump, hev']
      · intro ev' hev'
        cases hev'
  · next ev hpump =>
    split at ht
    · cases ht
    · have hwait : ∀ {pump : Pump} {cursors : KvWorkerId → Option Cursor},
          (∀ ev, pump ≠ .received ev) → ∀ ev' ∈ ({ s with cursors := cursors, pump := pump } :
            IndexState).waiting, ev' ∈ s.waiting := by
        intro pump cursors hne ev' hev'
        have hev' : ev' ∈ s.queue := by
          cases pump with
          | received ev => exact (hne ev rfl).elim
          | _ => exact hev'
        simp [waiting, hpump, hev']
      split at ht
      · cases ht
        refine ⟨fun w => sound_of_pump (h.sound w) ?_ ?_ ?_, hquiet (by simp)⟩
        · intro c hc
          by_cases hw : w = ev.worker
          · subst hw
            simp at hc
          · rwa [update_of_ne hw] at hc
        · exact fun ev' hev' _ => hwait (by simp) ev' hev'
        · intro ev' hev'
          cases hev'
      · next seq events hevent =>
        have hbatch : ev.IsBatch := by simp [Sent.IsBatch, hevent]
        have happly : (∀ w, ({ s with pump := .applying ev seq events } : IndexState).Sound w) ∧
            ({ s with pump := .applying ev seq events } : IndexState).History (s.clock + 1) := by
          refine ⟨fun w => sound_of_pump (h.sound w) (fun c hc => hc) ?_ ?_, hquiet ?_⟩
          · exact fun ev' hev' _ => hwait (by simp) ev' hev'
          · intro ev' hev' _
            cases hev'
            simp [passed, hpump]
          · intro ev' seq' rest' heq
            cases heq
            exact hbatch
        split at ht
        · -- the batch is applied, unless the cursor already covers it
          cases ht
          exact happly
        · split at ht
          · cases ht
            refine ⟨fun w => sound_of_pump (h.sound w) (fun c hc => hc) ?_ ?_, hquiet (by simp)⟩
            · exact fun ev' hev' _ => hwait (by simp) ev' hev'
            · intro ev' hev'
              cases hev'
          · cases ht
            exact happly
  · next ev seq hpump =>
    split at ht
    · cases ht
    · cases ht
      have hbatch := h.history.applying ev seq [] hpump
      refine ⟨fun w => sound_of_write (h.sound w) hpump hbatch ?_, ?_⟩
      · exact fun e he => mem_cons_of_mem _ he
      · exact h.history.effect (h.sound ev.worker).1 (by simp [passed, hpump]) hbatch
          (by simp) rfl rfl
  · next ev seq event rest hpump =>
    cases ht
    have hbatch := h.history.applying ev seq _ hpump
    refine ⟨fun w => sound_of_apply (h.sound w) hpump hbatch, ?_⟩
    refine h.history.effect (h.sound ev.worker).1 (by simp [passed, hpump]) hbatch ?_ rfl rfl
    intro ev' seq' rest' heq
    cases heq
    exact hbatch

/-! ## Section 6: Runs -/

theorem Inv.step {op : IndexOp} (h : s.Inv) (hg : s.Guarded op) (ht : op.step s = some t) :
    t.Inv := by
  unfold IndexOp.step at ht
  rw [Option.map_eq_some_iff] at ht
  obtain ⟨u, hu, rfl⟩ := ht
  suffices hs : (∀ w, u.Sound w) ∧ u.History (s.clock + 1) from Inv.tick hs.1 hs.2
  cases op with
  | add url cfg =>
    cases hu
    exact addWorker_sound h hg
  | remove url =>
    cases hu
    exact removeWorker_sound h hg
  | advance order i => exact advance_sound h hg hu
  | send worker sub event => exact send_sound h hu
  | exit worker sub => exact exit_sound h hu
  | pump order now => exact pumpStep_sound h hu

theorem Inv.new (now : Nat) : (IndexState.new now).Inv where
  sound := by
    intro w
    have hgone : (IndexState.new now).Gone w := by
      refine ⟨Finset.notMem_empty _, rfl, fun sub => Finset.notMem_empty _, rfl, ?_, ?_⟩
      · exact TreeState.not_shows_new now w
      · intro ev hev
        cases hev
    have howned : (IndexState.new now).Owned w := fun sub hsub => (Finset.notMem_empty _ hsub).elim
    exact ⟨hgone.traced, .inl ⟨forall_mem_nil _, howned, forall_mem_nil _,
      fun _ hmem => (not_mem_nil hmem).elim, .inr hgone⟩⟩
  history := by
    refine ⟨?_, ?_, ?_, ?_⟩
    · intro ev seq rest heq
      cases heq
    · exact fun e he => (not_mem_nil he).elim
    · exact fun r hr => (not_mem_nil hr).elim
    · exact fun e he => (not_mem_nil he).elim

end IndexState

open IndexState

/-- The state after a sequence of steps, from a new index. -/
def IndexOp.run (now : Nat) (ops : List IndexOp) : Option IndexState :=
  Lib.run IndexOp.step (IndexState.new now) ops

/-- Every run of guarded steps, in any interleaving, reaches only states in which the removed
workers are detached. -/
theorem run_detached (now : Nat) (ops : List IndexOp) (t : IndexState)
    (hrun : IndexOp.run now ops = some t)
    (hguarded : Along IndexOp.step Guarded (IndexState.new now) ops) : t.Detached :=
  (Lib.invariant_of_run Inv (fun _ _ _ h hg ht => h.step hg ht)
    (Inv.new now) hguarded hrun).detached

/-- The configuration of a worker with one rank. -/
def oneRank : EventConfig := ⟨5557, 1, 64⟩

/-- A worker is added, and publishes a batch that stores one block. -/
def attachSteps : List IndexOp :=
  [.add "u" (some oneRank), .advance .ascending 0, .advance .ascending 0,
    .send ⟨"u", 0⟩ 2 (.batch 7 [.blockStored none [1]])]

/-- The pump takes an event from the channel and applies a batch of one event. -/
def pumpSteps : List IndexOp := List.replicate 5 (.pump .ascending 0)

/-- The worker is removed; its task stops. -/
def detachSteps : List IndexOp :=
  [.remove "u", .advance .ascending 0, .advance .ascending 0, .exit ⟨"u", 0⟩ 2] ++
    List.replicate 4 (.advance .ascending 0)

/-- The batch is applied before the removal; then two additions and a removal overlap. -/
def orderedRun : List IndexOp :=
  attachSteps ++ pumpSteps ++ detachSteps ++
    [.add "u" (some oneRank), .remove "u", .add "u" (some oneRank), .advance .ascending 1,
      .advance .ascending 0, .advance .ascending 0]

theorem orderedRun_detached : ∃ t, IndexOp.run 0 orderedRun = some t ∧ t.Detached ∧
    t.returned = [("u", 18), ("u", 16)] ∧ t.effects.map Effect.time = [8, 7] := by
  have hsome : (IndexOp.run 0 orderedRun).isSome := by decide +kernel
  obtain ⟨t, ht⟩ := Option.isSome_iff_exists.mp hsome
  have hvalues : (IndexOp.run 0 orderedRun).map (fun t => (t.returned, t.effects.map Effect.time)) =
      some ([("u", 18), ("u", 16)], [8, 7]) := by decide +kernel
  rw [ht, Option.map_some, Option.some.injEq, Prod.mk.injEq] at hvalues
  exact ⟨t, ht, run_detached 0 orderedRun t ht (by decide +kernel), hvalues.1, hvalues.2⟩

/-- The batch waits in the channel while the worker is removed and added again. -/
def readdedRun : List IndexOp :=
  attachSteps ++ detachSteps ++ [.add "u" (some oneRank)] ++ pumpSteps

/-- The live check does not tell the old subscription from the new one: the batch sent before the
removal reaches the tree after it. -/
theorem readdedRun_not_detached :
    ¬ ∀ (now : Nat) (ops : List IndexOp) (t : IndexState), IndexOp.run now ops = some t →
      t.Detached := by
  intro h
  have hsome : (IndexOp.run 0 readdedRun).isSome := by decide +kernel
  obtain ⟨t, ht⟩ := Option.isSome_iff_exists.mp hsome
  have hstale : (IndexOp.run 0 readdedRun).any (fun t => t.effects.any fun e =>
      t.returned.any fun r =>
      r.1 = e.worker.url ∧ r.2 < e.time ∧ ¬ r.2 < e.born) = true := by decide +kernel
  rw [ht] at hstale
  simp only [Option.any_some, any_eq_true, decide_eq_true_eq] at hstale
  obtain ⟨e, he, r, hr, hurl, htime, hborn⟩ := hstale
  exact hborn ((h 0 readdedRun t ht).effects e he r hr hurl htime).1

end Sglang.Router
