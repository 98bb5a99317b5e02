import Sglang.Router.KvEventIndexRuns
import Sglang.Router.WorkerChains

/-!
# A Fleet of Workers behind one Index

Workers run their caches and publish the events of their queues; the router subscribes to them, and
its pump applies the batches to one hash tree. All of these step in any interleaving. The transport
delivers the batches of a worker in order, and nobody is removed.

- `Fleet`, `FleetOp`: the caches, the channel and the index as one system,
- `Following`: the batches of attached workers are not dropped, and their numbers ascend,
- `Fleet.Inv`: for each worker, the tree, the events on their way and the cache agree,
- `fleet_matchPrefix`: a lookup in the tree, once all events are applied, is a lookup in all caches.
-/

namespace Sglang.Router

open List Option Function
open Sglang.Lib
open Sglang.MemCache
open RadixCache

/-! ## Section 1: The system -/

/-- The caches of the workers, the last number each one published, and the index. -/
structure Fleet where
  caches : KvWorkerId → Option CacheRun
  lastSeq : KvWorkerId → Option Int64
  index : IndexState

/-- No worker runs, and the index is new. -/
def Fleet.new (now : Nat) : Fleet where
  caches := fun _ => none
  lastSeq := fun _ => none
  index := IndexState.new now

/-- The steps of the system. -/
inductive FleetOp where
  /-- A worker comes up, with an empty cache -/
  | start (worker : KvWorkerId) (now : Int)
  /-- An operation on the cache of a worker -/
  | cache (worker : KvWorkerId) (op : CacheOp)
  /-- A worker drains its queue; the subscription `sub` sends the batch to the pump -/
  | publish (worker : KvWorkerId) (sub : Nat) (seq : Int64)
  /-- A call of `add_worker` starts -/
  | add (url : String) (cfg : Option EventConfig)
  /-- One of the calls in progress moves on -/
  | advance (order : HashOrder) (i : Nat)
  | pump (order : HashOrder) (now : Nat)

namespace Fleet

def indexStep (f : Fleet) (op : IndexOp) : Option Fleet :=
  (op.step f.index).map fun index => { f with index := index }

/-- The number comes after the last one of the worker. -/
def Ascends (f : Fleet) (worker : KvWorkerId) (seq : Int64) : Prop :=
    ∀ last ∈ f.lastSeq worker, last < seq

instance (f : Fleet) (worker : KvWorkerId) (seq : Int64) : Decidable (f.Ascends worker seq) :=
  Option.decidableForallMem (f.lastSeq worker)

/-- `publish`: nothing is sent for an empty queue, and the numbers of a worker ascend. -/
def publish (cfg : KvWorkerId → CacheConfig) (f : Fleet) (worker : KvWorkerId) (sub : Nat)
    (seq : Int64) : Option Fleet := do
  let r ← f.caches worker
  let (s, events) := r.cache.takeEvents (cfg worker)
  if events ≠ [] ∧ f.Ascends worker seq then
    let index ← (IndexOp.send worker sub (.batch seq (events.map wireEvent))).step f.index
    some {
      caches := Function.update f.caches worker (some { r with cache := s })
      lastSeq := Function.update f.lastSeq worker (some seq)
      index := index }
  else none

end Fleet

/-- One step, `none` where it is not enabled. -/
def FleetOp.step (cfg : KvWorkerId → CacheConfig) (f : Fleet) : FleetOp → Option Fleet
  | .start worker now =>
    match f.caches worker with
    | some _ => none
    | none =>
      some { f with
        caches := Function.update f.caches worker (some (CacheRun.start (cfg worker) now)) }
  | .cache worker op => do
    let r ← f.caches worker
    let r' ← r.step (cfg worker) op
    some { f with caches := Function.update f.caches worker (some r') }
  | .publish worker sub seq => f.publish cfg worker sub seq
  | .add url config => f.indexStep (.add url config)
  | .advance order i => f.indexStep (.advance order i)
  | .pump order now => f.indexStep (.pump order now)

def FleetOp.Valid (cfg : KvWorkerId → CacheConfig) (f : Fleet) : FleetOp → Prop
  | .cache worker op =>
    match f.caches worker with
    | none => True
    | some r => op.Valid (cfg worker) r
  | _ => True

instance (cfg : KvWorkerId → CacheConfig) (f : Fleet) (op : FleetOp) : Decidable
    (op.Valid cfg f) := by
  unfold FleetOp.Valid
  split
  · split <;> infer_instance
  · infer_instance

/-- Keys of 32-bit ids without `extra_key`, and no release of a session. -/
def FleetOp.Plain : FleetOp → Prop
  | .cache _ op => CacheOp.Plain op
  | _ => True

instance (op : FleetOp) : Decidable op.Plain :=
  match op with
  | .cache _ op => inferInstanceAs (Decidable (CacheOp.Plain op))
  | .start _ _ | .publish _ _ _ | .add _ _ | .advance _ _ | .pump _ _ => isTrue trivial

/-- The operations of one worker's cache. -/
def cacheOps (ops : List FleetOp) (worker : KvWorkerId) : List EventOp :=
  ops.filterMap fun op =>
    match op with
    | .cache w o => if w = worker then some (.op o) else none
    | _ => none

theorem mem_cacheOps {ops : List FleetOp} {worker : KvWorkerId} {o : CacheOp} :
    .op o ∈ cacheOps ops worker ↔ .cache worker o ∈ ops := by
  rw [cacheOps, mem_filterMap]
  constructor
  · rintro ⟨op, hop, heq⟩
    cases op with
    | cache w o' =>
      simp only at heq
      split at heq
      · next hw =>
        cases heq
        rw [← hw]
        exact hop
      · cases heq
    | _ => cases heq
  · intro h
    exact ⟨_, h, by simp⟩

namespace Fleet

/-- The cache of a worker holds the pages of a chain of block hashes. -/
def Holds (cfg : KvWorkerId → CacheConfig) (f : Fleet) (worker : KvWorkerId) (hashes : List Int64) :
    Prop :=
  ∃ r, f.caches worker = some r ∧ hashes ∈ heldChains (cfg worker) r.cache

/-- All events were published and applied. -/
structure Drained (f : Fleet) : Prop where
  caches : ∀ w r, f.caches w = some r → r.cache.kvEventQueue = []
  queue : f.index.queue = []
  pump : f.index.pump = .idle

end Fleet

/-! ## Section 2: Events on their way -/

/-- The events of a batch of this worker. -/
def Sent.eventsOf (worker : KvWorkerId) (ev : Sent) : List KvCacheEvent :=
  if ev.worker = worker then
    match ev.event with
    | .batch _ events => events
    | .publisherReset => []
  else []

/-- The number of a batch of this worker. -/
def Sent.seqsOf (worker : KvWorkerId) (ev : Sent) : List Int64 :=
  if ev.worker = worker then
    match ev.event with
    | .batch seq _ => [seq]
    | .publisherReset => []
  else []

/-- The events of a worker that the pump has still to apply to what it holds. -/
def Pump.eventsOf (worker : KvWorkerId) : Pump → List KvCacheEvent
  | .idle => []
  | .received ev => ev.eventsOf worker
  | .live ev => ev.eventsOf worker
  | .applying ev _ rest => if ev.worker = worker then rest else []

def Pump.seqsOf (worker : KvWorkerId) : Pump → List Int64
  | .idle => []
  | .received ev => ev.seqsOf worker
  | .live ev => ev.seqsOf worker
  | .applying ev seq _ => if ev.worker = worker then [seq] else []

namespace IndexState

/-- The events of a worker between its queue and the tree. -/
def pending (x : IndexState) (worker : KvWorkerId) : List KvCacheEvent :=
  x.pump.eventsOf worker ++ x.queue.flatMap (Sent.eventsOf worker)

/-- The numbers of a worker: that of the last batch applied, then those on their way. -/
def seqs (x : IndexState) (worker : KvWorkerId) : List Int64 :=
  ((x.cursors worker).map Cursor.seq).toList ++ x.pump.seqsOf worker ++
    x.queue.flatMap (Sent.seqsOf worker)

/-- An addition in progress, of live workers. -/
def AddsLive (x : IndexState) (call : String × Call) : Prop :=
  ∃ ranks, (call.2 = .marked ranks ∨ call.2 = .entered ranks) ∧
    ∀ id ∈ workerIds call.1 ranks, id ∈ x.live

/-- Nobody is removed, so no batch is dropped. -/
structure Following (lastSeq : KvWorkerId → Option Int64) (x : IndexState) : Prop where
  lock : x.cursorsLock = none
  calls : ∀ call ∈ x.calls, x.AddsLive call
  tasks : ∀ t ∈ x.tasks, t.1 ∈ x.live
  batches : ∀ ev ∈ x.inHand.toList ++ x.queue, ev.worker ∈ x.live ∧ ev.IsBatch
  ascending : ∀ w, (x.seqs w).Pairwise (· < ·)
  bounded : ∀ w, ∀ q ∈ x.seqs w, ∃ last, lastSeq w = some last ∧ q ≤ last

theorem Following.new (now : Nat) : Following (fun _ => none) (IndexState.new now) where
  lock := rfl
  calls := by simp [IndexState.new]
  tasks := by simp [IndexState.new]
  batches := by simp [IndexState.new, inHand]
  ascending := by simp [IndexState.new, seqs, Pump.seqsOf]
  bounded := by simp [IndexState.new, seqs, Pump.seqsOf]

/-! ## Section 3: Steps of the index -/

/-- A worker is attached: more workers are live, and nothing else the pump sees has changed. -/
structure Attaches (x y : IndexState) : Prop where
  tree : y.tree = x.tree
  queue : y.queue = x.queue
  pump : y.pump = x.pump
  cursors : y.cursors = x.cursors
  lock : y.cursorsLock = x.cursorsLock
  live : x.live ⊆ y.live

theorem Attaches.pending {x y : IndexState} (h : Attaches x y) (w : KvWorkerId) :
    y.pending w = x.pending w := by
  rw [IndexState.pending, IndexState.pending, h.pump, h.queue]

section Index

variable {lastSeq : KvWorkerId → Option Int64} {x y : IndexState}

theorem Following.attaches (h : Following lastSeq x) (ha : Attaches x y)
    (hcalls : ∀ call ∈ y.calls, y.AddsLive call)
    (htasks : ∀ t ∈ y.tasks, t.1 ∈ y.live) : Following lastSeq y := by
  have hhand : y.inHand = x.inHand := by rw [inHand, inHand, ha.pump]
  have hseqs : ∀ w, y.seqs w = x.seqs w := by
    intro w
    rw [seqs, seqs, ha.pump, ha.queue, ha.cursors]
  refine ⟨ha.lock.trans h.lock, hcalls, htasks, ?_, ?_, ?_⟩
  · intro ev hev
    rw [hhand, ha.queue] at hev
    exact ⟨ha.live (h.batches ev hev).1, (h.batches ev hev).2⟩
  · intro w
    rw [hseqs]
    exact h.ascending w
  · intro w
    rw [hseqs]
    exact h.bounded w

theorem AddsLive.attaches {call : String × Call} (h : x.AddsLive call) (ha : Attaches x y) :
    y.AddsLive call := by
  obtain ⟨ranks, hpoint, hlive⟩ := h
  exact ⟨ranks, hpoint, fun id hid => ha.live (hlive id hid)⟩

theorem Following.addWorker (h : Following lastSeq x) (url : String) (cfg : Option EventConfig) :
    Following lastSeq (x.addWorker url cfg) ∧ Attaches x (x.addWorker url cfg) := by
  have hself : Attaches x x := ⟨rfl, rfl, rfl, rfl, rfl, subset_rfl⟩
  unfold IndexState.addWorker
  split
  · exact ⟨h, hself⟩
  · next cfg =>
    split
    · exact ⟨h, hself⟩
    · next value _ =>
      have hsize : Attaches x { x with blockSize := value } := ⟨rfl, rfl, rfl, rfl, rfl, subset_rfl⟩
      dsimp only
      split
      · exact ⟨h.attaches hsize h.calls h.tasks, hsize⟩
      · have ha : Attaches x ({ x with
            blockSize := value
            live := x.live ∪ (workerIds url cfg.dpRanks).toFinset }.begin url
              (.marked cfg.dpRanks)) :=
          ⟨rfl, rfl, rfl, rfl, rfl, Finset.subset_union_left⟩
        refine ⟨h.attaches ha ?_ fun t ht => ha.live (h.tasks t ht), ha⟩
        intro call hcall
        rcases mem_append.mp hcall with hcall | hcall
        · exact (h.calls call hcall).attaches ha
        · cases mem_singleton.mp hcall
          refine ⟨cfg.dpRanks, .inl rfl, fun id hid => ?_⟩
          exact Finset.mem_union_right _ (List.mem_toFinset.mpr hid)

theorem Following.advance (h : Following lastSeq x) {order : HashOrder} {i : Nat}
    (hstep : x.advance order i = some y) : Following lastSeq y ∧ Attaches x y := by
  cases hi : x.calls[i]? with
  | none => simp [IndexState.advance, hi] at hstep
  | some call =>
    obtain ⟨url, c⟩ := call
    obtain ⟨ranks, hpoint, hlive⟩ := h.calls (url, c) (mem_of_getElem? hi)
    rcases hpoint with rfl | rfl
    · simp only [IndexState.advance, hi, Option.some.injEq] at hstep
      rw [← hstep]
      have ha : Attaches x ({ x with workers := Function.update x.workers url (some ranks) }.moveTo
          i url (.entered ranks)) := ⟨rfl, rfl, rfl, rfl, rfl, subset_rfl⟩
      refine ⟨h.attaches ha ?_ h.tasks, ha⟩
      intro call hcall
      rcases mem_or_eq_of_mem_set hcall with hcall | rfl
      · exact (h.calls call hcall).attaches ha
      · exact ⟨ranks, .inr rfl, hlive⟩
    · simp only [IndexState.advance, hi, Option.some.injEq] at hstep
      rw [← hstep]
      obtain ⟨heq, _, htasks⟩ := foldl_subscribe (workerIds url ranks) x
      have ha : Attaches x (((workerIds url ranks).foldl subscribe x).finish i) := by
        rw [heq]
        exact ⟨rfl, rfl, rfl, rfl, rfl, subset_rfl⟩
      refine ⟨h.attaches ha ?_ ?_, ha⟩
      · intro call hcall
        have hcalls : ((workerIds url ranks).foldl subscribe x).calls = x.calls := by rw [heq]
        have hold : call ∈ x.calls := hcalls ▸ mem_of_mem_eraseIdx hcall
        exact (h.calls call hold).attaches ha
      · rintro ⟨w, sub⟩ ht
        apply ha.live
        rcases htasks w sub ht with ht | ⟨_, hid, _⟩
        · exact h.tasks _ ht
        · exact hlive w hid

theorem Following.send (h : Following lastSeq x) {w : KvWorkerId} {sub : Nat} {seq : Int64}
    {events : List KvCacheEvent} (hseq : ∀ last ∈ lastSeq w, last < seq)
    (hstep : x.send w sub (.batch seq events) = some y) :
    Following (Function.update lastSeq w (some seq)) y ∧ y.tree = x.tree ∧
      y.pending w = x.pending w ++ events ∧ ∀ v, v ≠ w → y.pending v = x.pending v := by
  unfold IndexState.send at hstep
  split at hstep
  swap
  · cases hstep
  · next henabled =>
    cases hstep
    have hseqs : ∀ v, seqs { x with queue := x.queue ++ [⟨w, .batch seq events, sub, x.clock⟩] } v =
        x.seqs v ++ if w = v then [seq] else [] := by
      intro v
      simp [seqs, Sent.seqsOf]
    have hlast : ∀ q ∈ x.seqs w, q < seq := by
      intro q hq
      obtain ⟨last, hlast, hle⟩ := h.bounded w q hq
      exact Int64.lt_of_le_of_lt hle (hseq last hlast)
    refine ⟨⟨h.lock, h.calls, h.tasks, ?_, ?_, ?_⟩, rfl, ?_, ?_⟩
    · intro ev hev
      rw [← List.append_assoc, mem_append, mem_singleton] at hev
      rcases hev with hev | rfl
      · exact h.batches ev hev
      · exact ⟨h.tasks _ henabled.1, trivial⟩
    · intro v
      rw [hseqs, pairwise_append]
      refine ⟨h.ascending v, by split <;> simp, ?_⟩
      intro q hq q' hq'
      split at hq'
      · next hv =>
        subst hv
        rw [mem_singleton.mp hq']
        exact hlast q hq
      · exact absurd hq' not_mem_nil
    · intro v q hq
      rw [hseqs, mem_append] at hq
      by_cases hv : v = w
      · subst hv
        refine ⟨seq, update_self .., ?_⟩
        rcases hq with hq | hq
        · exact Int64.le_of_lt (hlast q hq)
        · rw [if_pos rfl, mem_singleton] at hq
          exact Int64.le_of_eq hq
      · rw [update_of_ne hv]
        rw [if_neg (Ne.symm hv)] at hq
        exact h.bounded v q (hq.resolve_right not_mem_nil)
    · simp [IndexState.pending, Sent.eventsOf]
    · intro v hv
      simp [IndexState.pending, Sent.eventsOf, Ne.symm hv]

theorem Following.pumpStep (h : Following lastSeq x) {order : HashOrder} {now : Nat}
    (hstep : x.pumpStep order now = some y) :
    Following lastSeq y ∧
      ((y.tree = x.tree ∧ ∀ w, y.pending w = x.pending w) ∨
        ∃ w e, y.tree = applyEvent x.tree order now w e ∧ x.pending w = e :: y.pending w ∧
          ∀ v, v ≠ w → y.pending v = x.pending v) := by
  -- a step that keeps the numbers on their way
  have hkeep : ∀ {z : IndexState}, z.cursorsLock = x.cursorsLock → z.calls = x.calls →
      z.tasks = x.tasks → z.live = x.live →
      (∀ ev ∈ z.inHand.toList ++ z.queue, ev ∈ x.inHand.toList ++ x.queue) →
      (∀ w, (z.seqs w).Sublist (x.seqs w)) → Following lastSeq z := by
    intro z hlock hcalls htasks hlive hevents hseqs
    refine ⟨hlock.trans h.lock, ?_, ?_, ?_, ?_, ?_⟩
    · simp only [hcalls, AddsLive, hlive]
      exact h.calls
    · rw [htasks, hlive]
      exact h.tasks
    · rw [hlive]
      exact fun ev hev => h.batches ev (hevents ev hev)
    · exact fun w => (h.ascending w).sublist (hseqs w)
    · exact fun w q hq => h.bounded w q ((hseqs w).subset hq)
  unfold IndexState.pumpStep at hstep
  cases hpump : x.pump with
  | idle =>
    rw [hpump] at hstep
    cases hqueue : x.queue with
    | nil =>
      rw [hqueue] at hstep
      cases hstep
    | cons ev queue =>
      rw [hqueue] at hstep
      cases hstep
      refine ⟨hkeep rfl rfl rfl rfl ?_ ?_, .inl ⟨rfl, ?_⟩⟩
      · simp [inHand, hpump, hqueue]
      · intro w
        simp [seqs, hpump, hqueue, Pump.seqsOf]
      · intro w
        simp [IndexState.pending, hpump, hqueue, Pump.eventsOf]
  | received ev =>
    rw [hpump] at hstep
    have hlive : ev.worker ∈ x.live := (h.batches ev (by simp [inHand, hpump])).1
    simp only [hlive, if_true, Option.some.injEq] at hstep
    rw [← hstep]
    refine ⟨hkeep rfl rfl rfl rfl ?_ ?_, .inl ⟨rfl, ?_⟩⟩
    · simp [inHand, hpump]
    · intro w
      simp [seqs, hpump, Pump.seqsOf]
    · intro w
      simp [IndexState.pending, hpump, Pump.eventsOf]
  | live ev =>
    rw [hpump] at hstep
    have hbatch : ev.IsBatch := (h.batches ev (by simp [inHand, hpump])).2
    cases hevent : ev.event with
    | publisherReset => simp [Sent.IsBatch, hevent] at hbatch
    | batch seq events =>
      -- the number is above the cursor
      have hstep : some { x with pump := .applying ev seq events } = some y := by
        cases hcursor : x.cursors ev.worker with
        | none => simpa [h.lock, hevent, hcursor] using hstep
        | some c =>
          have hasc := h.ascending ev.worker
          simp only [seqs, hcursor, map_some, toList_some, hpump, Pump.seqsOf,
            Sent.seqsOf, if_true, hevent, cons_append, nil_append,
            pairwise_cons] at hasc
          have hlt : ¬ seq ≤ c.seq := Int64.not_le.mpr (hasc.1 seq (mem_cons_self ..))
          simpa [h.lock, hevent, hcursor, hlt] using hstep
      cases hstep
      refine ⟨hkeep rfl rfl rfl rfl ?_ ?_, .inl ⟨rfl, ?_⟩⟩
      · simp [inHand, hpump]
      · intro w
        simp [seqs, hpump, Pump.seqsOf, Sent.seqsOf, hevent]
      · intro w
        simp [IndexState.pending, hpump, Pump.eventsOf, Sent.eventsOf, hevent]
  | applying ev seq rest =>
    rw [hpump] at hstep
    cases rest with
    | nil =>
      simp only [h.lock, ne_eq, not_true, if_false, Option.some.injEq] at hstep
      rw [← hstep]
      refine ⟨hkeep h.lock.symm rfl rfl rfl ?_ ?_, .inl ⟨rfl, ?_⟩⟩
      · intro e he
        exact mem_append_right _ (by simpa [inHand] using he)
      · -- the cursor takes the number of the batch
        intro w
        by_cases hw : w = ev.worker
        · subst hw
          simp [seqs, hpump, Pump.seqsOf]
        · simp [seqs, hpump, Pump.seqsOf, hw, Ne.symm hw]
      · intro w
        simp [IndexState.pending, hpump, Pump.eventsOf]
    | cons e rest =>
      cases hstep
      refine ⟨hkeep rfl rfl rfl rfl ?_ ?_, .inr ⟨ev.worker, e, rfl, ?_, ?_⟩⟩
      · simp [inHand, hpump]
      · intro w
        simp [seqs, hpump, Pump.seqsOf]
      · simp [IndexState.pending, hpump, Pump.eventsOf]
      · intro v hv
        simp [IndexState.pending, hpump, Pump.eventsOf, Ne.symm hv]

end Index

end IndexState

/-! ## Section 4: The fleet -/

/-- The chains of the pages that the workers may store. -/
def knownChains (cfg : KvWorkerId → CacheConfig) (K : KvWorkerId → Set (List Letter)) :
    Set (List Int64) :=
  {c | ∃ w, ∃ p ∈ K w, hashChain (cfg w) p = c}

/-- For each worker, what the tree lists, what is on its way and what the cache holds agree. -/
structure Fleet.Inv (cfg : KvWorkerId → CacheConfig) (K : KvWorkerId → Set (List Letter))
    (C : Set (List Int64)) (f : Fleet) : Prop where
  index : IndexState.Following f.lastSeq f.index
  runs : ∀ w r, f.caches w = some r → RunInv (cfg w) r
  tree : ∃ H word, TreeState.Indexes C H f.index.tree word ∧
    (∀ w r, f.caches w = some r →
      Reported (cfg w) (K w) C (H w) (f.index.pending w) r.cache) ∧
    ∀ w, f.caches w = none → H w = ∅ ∧ f.index.pending w = []

section Steps

variable {cfg : KvWorkerId → CacheConfig} {K : KvWorkerId → Set (List Letter)}
  {C : Set (List Int64)} {f g : Fleet}

theorem indexes_new (C : Set (List Int64)) (now : Nat) :
    ∃ word, TreeState.Indexes C (fun _ => ∅) (TreeState.new now) word := by
  obtain ⟨word, hcore, hheld⟩ := TreeState.Inv.new now
  refine ⟨word, hcore, hheld, ?_, fun hc => hc.elim, fun hc => hc.elim, fun hc => hc.elim⟩
  rintro i w hi ⟨n, hn, _⟩
  have hnone : (TreeState.new now).nodes.lookup i = none := by
    rw [Finmap.lookup_eq_none]
    simpa [TreeState.new] using hi
  rw [hnone] at hn
  cases hn

theorem Fleet.Inv.new (now : Nat) : Fleet.Inv cfg K C (Fleet.new now) := by
  obtain ⟨word, hindexes⟩ := indexes_new C now
  refine ⟨IndexState.Following.new now, ?_, _, word, hindexes, ?_, fun w _ => ⟨rfl, rfl⟩⟩
  · intro w r hr
    cases hr
  · intro w r hr
    cases hr

theorem reported_of_bare {cfg : CacheConfig} {K : Set (List Letter)} {s : RadixCache}
    (hbare : ∀ i, s.view.core i = none) (hqueue : s.kvEventQueue = []) :
    Reported cfg K C ∅ [] s := by
  have hnone : ∀ p, p ∉ (s.assoc cfg).keys := by
    intro p hp
    obtain ⟨i, c, hi, _⟩ := TreeInv.mem_keys_assoc_iff.mp hp
    rw [hbare i] at hi
    cases hi
  have hempty : heldChains cfg s = ∅ := by
    ext c
    constructor
    · rintro ⟨p, hp, _⟩
      exact absurd hp (hnone p)
    · exact fun hc => hc.elim
  refine ⟨?_, fun p hp => absurd hp (hnone p), ?_⟩
  · intro i c hi
    rw [hbare i] at hi
    cases hi
  · rw [hqueue, hempty]
    exact .nil ∅

theorem reported_start {cfg : CacheConfig} {K : Set (List Letter)}
    (hon : cfg.enableKvCacheEvents = true) (now : Int) :
    Reported cfg K C ∅ [] (CacheRun.start cfg now).cache :=
  Reported.reset hon (reported_of_bare (fun _ => rfl) rfl) now

theorem Fleet.Inv.update (h : Fleet.Inv cfg K C f) {w : KvWorkerId} {r : CacheRun}
    (hrun : RunInv (cfg w) r)
    (hreported : ∀ H, (∀ r, f.caches w = some r →
        Reported (cfg w) (K w) C H (f.index.pending w) r.cache) →
      (f.caches w = none → H = ∅ ∧ f.index.pending w = []) →
      Reported (cfg w) (K w) C H (f.index.pending w) r.cache) :
    Fleet.Inv cfg K C { f with caches := Function.update f.caches w (some r) } := by
  obtain ⟨H, word, hindexes, hsome, hnone⟩ := h.tree
  refine ⟨h.index, ?_, H, word, hindexes, ?_, ?_⟩
  · intro v r' hr'
    by_cases hv : v = w
    · subst hv
      simp only [update_self, Option.some.injEq] at hr'
      rw [← hr']
      exact hrun
    · simp only [update_of_ne hv] at hr'
      exact h.runs v r' hr'
  · intro v r' hr'
    by_cases hv : v = w
    · subst hv
      simp only [update_self, Option.some.injEq] at hr'
      rw [← hr']
      exact hreported (H v) (hsome v) (hnone v)
    · simp only [update_of_ne hv] at hr'
      exact hsome v r' hr'
  · intro v hv'
    have hv : v ≠ w := by
      rintro rfl
      simp at hv'
    simp only [update_of_ne hv] at hv'
    exact hnone v hv'

theorem Fleet.Inv.attach (h : Fleet.Inv cfg K C f) {x : IndexState}
    (hfollow : IndexState.Following f.lastSeq x) (htree : x.tree = f.index.tree)
    (hpending : ∀ w, x.pending w = f.index.pending w) : Fleet.Inv cfg K C
    { f with index := x } := by
  obtain ⟨H, word, hindexes, hsome, hnone⟩ := h.tree
  refine ⟨hfollow, h.runs, H, word, ?_, ?_, ?_⟩
  · rw [htree]
    exact hindexes
  · intro w r hr
    rw [hpending]
    exact hsome w r hr
  · intro w hw
    rw [hpending]
    exact hnone w hw

theorem Fleet.Inv.apply (hC : TreeState.Determined C) (h : Fleet.Inv cfg K C f) {x : IndexState}
    (hfollow : IndexState.Following f.lastSeq x) {order : HashOrder} {now : Nat} {w : KvWorkerId}
    {e : KvCacheEvent} (htree : x.tree = IndexState.applyEvent f.index.tree order now w e)
    (hself : f.index.pending w = e :: x.pending w)
    (hother : ∀ v, v ≠ w → x.pending v = f.index.pending v) :
    Fleet.Inv cfg K C { f with index := x } := by
  obtain ⟨H, word, hindexes, hsome, hnone⟩ := h.tree
  cases hcache : f.caches w with
  | none =>
    have hempty := (hnone w hcache).2
    rw [hself] at hempty
    cases hempty
  | some r =>
    obtain ⟨hhash, hkeys, htold⟩ := hsome w r hcache
    rw [hself, cons_append] at htold
    cases htold with
    | @cons _ H₁ _ _ _ head tail =>
      obtain ⟨word', hindexes'⟩ := hindexes.event hC order now head
      refine ⟨hfollow, h.runs, Function.update H w H₁, word', ?_, ?_, ?_⟩
      · rw [htree]
        exact hindexes'
      · intro v r' hr'
        by_cases hv : v = w
        · subst hv
          rw [hcache] at hr'
          cases hr'
          rw [update_self]
          exact ⟨hhash, hkeys, tail⟩
        · rw [update_of_ne hv, hother v hv]
          exact hsome v r' hr'
      · intro v hv'
        have hv : v ≠ w := by
          rintro rfl
          rw [hcache] at hv'
          cases hv'
        rw [update_of_ne hv, hother v hv]
        exact hnone v hv'

/-- A worker publishes: its events move from the queue of the cache to the channel. -/
theorem Fleet.Inv.publish (hon : ∀ w, (cfg w).enableKvCacheEvents = true)
    (h : Fleet.Inv cfg K C f) {w : KvWorkerId} {sub : Nat} {seq : Int64}
    (hstep : f.publish cfg w sub seq = some g) : Fleet.Inv cfg K C g := by
  unfold Fleet.publish at hstep
  cases hcache : f.caches w with
  | none => simp [hcache] at hstep
  | some r =>
    simp only [hcache, bind_eq_bind, bind_some, takeEvents, hon w, if_true] at hstep
    split at hstep
    swap
    · cases hstep
    · next henabled =>
      obtain ⟨x, hx, heq⟩ := bind_eq_some_iff.mp hstep
      cases heq
      obtain ⟨y, hy, rfl⟩ := map_eq_some_iff.mp hx
      obtain ⟨hfollow, htree, hself, hother⟩ := h.index.send henabled.2 hy
      obtain ⟨H, word, hindexes, hsome, hnone⟩ := h.tree
      refine ⟨⟨hfollow.lock, hfollow.calls, hfollow.tasks, hfollow.batches, hfollow.ascending,
        hfollow.bounded⟩, ?_, H, word, ?_, ?_, ?_⟩
      · intro v r' hr'
        by_cases hv : v = w
        · subst hv
          simp only [update_self, Option.some.injEq] at hr'
          rw [← hr']
          exact ⟨(h.runs v r hcache).tree, (h.runs v r hcache).locks⟩
        · simp only [update_of_ne hv] at hr'
          exact h.runs v r' hr'
      · change TreeState.Indexes C H y.tree word
        rw [htree]
        exact hindexes
      · intro v r' hr'
        by_cases hv : v = w
        · subst hv
          simp only [update_self, Option.some.injEq] at hr'
          obtain ⟨hhash, hkeys, htold⟩ := hsome v r hcache
          rw [← hr']
          refine ⟨hashInv_congr hhash rfl fun _ => rfl, hkeys, ?_⟩
          change Tells C (H v) (y.pending v ++ List.map wireEvent []) (heldChains (cfg v) r.cache)
          rw [hself, map_nil, append_nil]
          exact htold
        · simp only [update_of_ne hv] at hr'
          change Reported (cfg v) (K v) C (H v) (y.pending v) r'.cache
          rw [hother v hv]
          exact hsome v r' hr'
      · intro v hv'
        have hv : v ≠ w := by
          rintro rfl
          simp at hv'
        simp only [update_of_ne hv] at hv'
        change H v = ∅ ∧ y.pending v = []
        rw [hother v hv]
        exact hnone v hv'

theorem Fleet.Inv.step (hon : ∀ w, (cfg w).enableKvCacheEvents = true)
    (hC : TreeState.Determined C) (hKC : ∀ w, Charted (cfg w) (K w) C) (h : Fleet.Inv cfg K C f)
    {op : FleetOp} (hvalid : op.Valid cfg f) (hplain : op.Plain)
    (hpages : ∀ w o, op = .cache w o → o.pages (cfg w) ⊆ K w) (hstep : op.step cfg f = some g) :
    Fleet.Inv cfg K C g := by
  cases op with
  | start w now =>
    simp only [FleetOp.step] at hstep
    split at hstep
    · cases hstep
    · next hnone =>
      cases hstep
      refine h.update (runInv_reset (cfg w) now _) fun H _ hH => ?_
      obtain ⟨rfl, hpending⟩ := hH hnone
      rw [hpending]
      exact reported_start (hon w) now
  | cache w o =>
    simp only [FleetOp.step, bind_eq_bind, bind_eq_some_iff, Option.some.injEq] at hstep
    obtain ⟨r, hr, r', hr', rfl⟩ := hstep
    have hrun := h.runs w r hr
    have hvalid : o.Valid (cfg w) r := by simpa [FleetOp.Valid, hr] using hvalid
    obtain ⟨r'', heq, hrun'⟩ := hrun.step hvalid
    rw [hr'] at heq
    cases heq
    refine h.update hrun' fun H hsome _ => ?_
    exact (hsome r hr).step (hon w) hC (hKC w) hrun hvalid hplain (hpages w o rfl) hr'
  | publish w sub seq => exact h.publish hon hstep
  | add url config =>
    cases hstep
    obtain ⟨hf, ha⟩ := h.index.addWorker url config
    exact h.attach ⟨hf.lock, hf.calls, hf.tasks, hf.batches, hf.ascending,
      hf.bounded⟩ ha.tree ha.pending
  | advance order i =>
    obtain ⟨x, hx, rfl⟩ := map_eq_some_iff.mp hstep
    obtain ⟨y, hy, rfl⟩ := map_eq_some_iff.mp hx
    obtain ⟨hf, ha⟩ := h.index.advance hy
    exact h.attach ⟨hf.lock, hf.calls, hf.tasks, hf.batches, hf.ascending,
      hf.bounded⟩ ha.tree ha.pending
  | pump order now =>
    obtain ⟨x, hx, rfl⟩ := map_eq_some_iff.mp hstep
    obtain ⟨y, hy, rfl⟩ := map_eq_some_iff.mp hx
    obtain ⟨hf, hcase⟩ := h.index.pumpStep hy
    have hf' : IndexState.Following f.lastSeq { y with clock := f.index.clock + 1 } :=
      ⟨hf.lock, hf.calls, hf.tasks, hf.batches, hf.ascending, hf.bounded⟩
    rcases hcase with ⟨htree, hpending⟩ | ⟨w, e, htree, hself, hother⟩
    · exact h.attach hf' htree hpending
    · exact h.apply hC hf' htree hself hother

end Steps

/-! ## Section 5: Lookups -/

/-- The pages that the workers of a run may store. -/
def fleetPages (cfg : KvWorkerId → CacheConfig) (ops : List FleetOp) (worker : KvWorkerId) :
    Set (List Letter) := insertedPages (cfg worker) (cacheOps ops worker)

/-- The block hashes of the pages of all workers collide only for equal byte strings. -/
def FleetCollisionFree (cfg : KvWorkerId → CacheConfig) (K : KvWorkerId → Set (List Letter)) :
    Prop :=
  ∀ v, ∀ p ∈ K v, ∀ w, ∀ q ∈ K w,
    (hashChain (cfg v) p).getLast? = (hashChain (cfg w) q).getLast? →
    chainWords (cfg v).pageSize (p.length / (cfg v).pageSize) (unitsOf p) =
      chainWords (cfg w).pageSize (q.length / (cfg w).pageSize) (unitsOf q)

section Lookups

variable {cfg : KvWorkerId → CacheConfig} {ops : List FleetOp}

theorem chain_of_fleetPages (hplain : ∀ op ∈ ops, op.Plain) {w : KvWorkerId} {p : List Letter}
    (hp : p ∈ fleetPages cfg ops w) :
    (∃ all, chain (cfg w) p = some all ∧ all ≠ []) ∧ ∀ l ∈ p, l.1 = none := by
  obtain ⟨o, ho, hp⟩ := hp
  have hop := hplain _ (mem_cacheOps.mp ho)
  cases o with
  | insert now key value priority chunked =>
    have hpage : IsPagePrefix (cfg w).pageSize p (alignedKey (cfg w) key).letters := hp
    refine ⟨?_, ?_⟩
    · have hunits : ∀ u ∈ unitsOf p, (unitWords u).isSome := by
        intro u hu
        obtain ⟨l, hl, rfl⟩ := List.mem_map.mp hu
        apply unitWords_isSome hop.2
        rw [← unitsOf_letters]
        exact List.mem_map_of_mem (hpage.isPrefix.subset hl)
      have hsome : (chain (cfg w) p).isSome := hashPages_isSome hunits
      obtain ⟨all, hall⟩ := isSome_iff_exists.mp hsome
      refine ⟨all, hall, ne_nil_of_length_pos ?_⟩
      rw [hashPages_length hall]
      exact Nat.div_pos hpage.page_le (cfg w).pageSize_pos
    · intro l hl
      rw [letters_extraKey (hpage.isPrefix.subset hl), alignedKey, RadixKey.pageAligned_extraKey,
        RadixKey.maybeToBigramView_extraKey]
      exact hop.1
  | _ => exact hp.elim

theorem determined_knownChains (hsha : ∀ v w, (cfg v).sha256 = (cfg w).sha256)
    (hplain : ∀ op ∈ ops, op.Plain) (hfree : FleetCollisionFree cfg (fleetPages cfg ops)) :
    TreeState.Determined (knownChains cfg (fleetPages cfg ops)) := by
  refine ⟨?_, ?_⟩
  · rintro c ⟨w, p, hp, rfl⟩
    obtain ⟨all, hall, hne⟩ := (chain_of_fleetPages hplain hp).1
    rw [hashChain_of_chain hall]
    simpa using hne
  · -- equal last hashes are hashes of equal words, and the words give the whole chain
    rintro c ⟨v, p, hp, rfl⟩ d ⟨w, q, hq, rfl⟩ hlast
    have hwords := hfree v p hp w q hq hlast
    rw [hashChain, hashChain, chain, chain, hashPages_eq_digests, hashPages_eq_digests, hwords,
      hsha v w]

theorem charted_fleetPages (hplain : ∀ op ∈ ops, op.Plain)
    (hfree : FleetCollisionFree cfg (fleetPages cfg ops)) (w : KvWorkerId) :
    Charted (cfg w) (fleetPages cfg ops w) (knownChains cfg (fleetPages cfg ops)) := by
  refine ⟨fun p hp => ⟨w, p, hp, rfl⟩, ?_⟩
  intro p hp q hq heq
  have hwords := hfree w p hp w q hq (by rw [heq])
  obtain ⟨⟨all, hall, _⟩, hpnone⟩ := chain_of_fleetPages hplain hp
  have hunits := (pageWords_insertedPages (cacheOps ops w)).units_eq hp hq hall hwords
  exact eq_of_unitsOf_eq none hpnone (chain_of_fleetPages hplain hq).2 hunits

/-- In every run of workers that insert, look up and evict plain keys, publish their events from the
start and are followed by the pump, and whose block hashes do not collide: when all events are
applied, a lookup in the index matches the most blocks that some worker's cache holds, and returns
the workers whose caches hold them. -/
theorem fleet_matchPrefix (cfg : KvWorkerId → CacheConfig)
    (hsha : ∀ v w, (cfg v).sha256 = (cfg w).sha256)
    (hon : ∀ w, (cfg w).enableKvCacheEvents = true) (now : Nat) (ops : List FleetOp) (f : Fleet)
    (hrun : run (FleetOp.step cfg) (Fleet.new now) ops = some f)
    (hvalid : Along (FleetOp.step cfg) (FleetOp.Valid cfg) (Fleet.new now) ops)
    (hplain : ∀ op ∈ ops, op.Plain) (hfree : FleetCollisionFree cfg (fleetPages cfg ops))
    (hdrained : f.Drained) (order : HashOrder) (now' : Nat) (hashes : List Int64) :
    IsGreatest {k | k ≤ hashes.length ∧ (k = 0 ∨ ∃ w, f.Holds cfg w (hashes.take k))}
        (f.index.tree.matchPrefix order now' none hashes).2.matchedBlocks ∧
      ∀ w, w ∈ (f.index.tree.matchPrefix order now' none hashes).2.workers ↔
        f.Holds cfg w
          (hashes.take (f.index.tree.matchPrefix order now' none hashes).2.matchedBlocks) := by
  have hC := determined_knownChains hsha hplain hfree
  have hKC := charted_fleetPages hplain hfree
  have hinv : Fleet.Inv cfg (fleetPages cfg ops) (knownChains cfg (fleetPages cfg ops)) f := by
    have hboth : Along (FleetOp.step cfg) (fun f op => op.Valid cfg f ∧
        op ∈ ops) (Fleet.new now) ops :=
      Along.imp (fun _ _ hop h => ⟨h, hop⟩) hvalid
    refine invariant_of_run _ ?_ (Fleet.Inv.new now) hboth hrun
    intro f op g h hop hstep
    refine h.step hon hC hKC hop.1 (hplain op hop.2) ?_ hstep
    rintro w o rfl p hp
    exact ⟨o, mem_cacheOps.mpr hop.2, hp⟩
  obtain ⟨H, word, hindexes, hsome, hnone⟩ := hinv.tree
  -- nothing is on its way, so the tree lists what the caches hold
  have hpending : ∀ w, f.index.pending w = [] := by
    intro w
    simp [IndexState.pending, hdrained.pump, hdrained.queue, Pump.eventsOf]
  have hholds : ∀ w c, c ∈ H w ↔ f.Holds cfg w c := by
    intro w c
    cases hcache : f.caches w with
    | none =>
      rw [(hnone w hcache).1, Fleet.Holds, hcache]
      simp
    | some r =>
      have htold := (hsome w r hcache).told
      rw [hpending, hdrained.caches w r hcache] at htold
      rw [htold.eq_of_nil, Fleet.Holds, hcache]
      simp
  have hlookup := hindexes.matchPrefix hC order now' hashes
  simp only [hholds] at hlookup
  exact hlookup

end Lookups

theorem start_mem_of_run {cfg : KvWorkerId → CacheConfig} {w : KvWorkerId} {r : CacheRun}
    (ops : List FleetOp) : ∀ {f g : Fleet}, run (FleetOp.step cfg) f ops = some g →
      g.caches w = some r → (∃ r₀, f.caches w = some r₀) ∨ ∃ now, .start w now ∈ ops := by
  induction ops with
  | nil =>
    intro f g hrun hr
    cases hrun
    exact .inl ⟨r, hr⟩
  | cons op ops ih =>
    intro f g hrun hr
    obtain ⟨f₁, hstep, hrun⟩ := bind_eq_some_iff.mp hrun
    rcases ih hrun hr with ⟨r₁, hr₁⟩ | ⟨now, hmem⟩
    swap
    · exact .inr ⟨now, mem_cons_of_mem _ hmem⟩
    -- a step that is no start leaves the set of caches alone
    have hindex : ∀ {o : IndexOp}, f.indexStep o = some f₁ → ∃ r₀, f.caches w = some r₀ := by
      intro o heq
      obtain ⟨x, _, rfl⟩ := map_eq_some_iff.mp heq
      exact ⟨r₁, hr₁⟩
    have hupdate : ∀ {v : KvWorkerId} {r₀ r' : CacheRun}, f.caches v = some r₀ →
        Function.update f.caches v (some r') w = some r₁ → ∃ r₀, f.caches w = some r₀ := by
      intro v r₀ r' hv hw
      by_cases hvw : w = v
      · subst hvw
        exact ⟨r₀, hv⟩
      · rw [update_of_ne hvw] at hw
        exact ⟨r₁, hw⟩
    cases op with
    | start v now =>
      simp only [FleetOp.step] at hstep
      split at hstep
      · cases hstep
      · cases hstep
        by_cases hv : w = v
        · subst hv
          exact .inr ⟨now, mem_cons_self ..⟩
        · simp only [update_of_ne hv] at hr₁
          exact .inl ⟨r₁, hr₁⟩
    | cache v o =>
      simp only [FleetOp.step, bind_eq_bind, bind_eq_some_iff, Option.some.injEq] at hstep
      obtain ⟨r₀, hr₀, r', _, rfl⟩ := hstep
      exact .inl (hupdate hr₀ hr₁)
    | publish v sub seq =>
      simp only [FleetOp.step, Fleet.publish, bind_eq_bind, bind_eq_some_iff] at hstep
      obtain ⟨r₀, hr₀, hstep⟩ := hstep
      split at hstep
      · obtain ⟨x, _, heq⟩ := bind_eq_some_iff.mp hstep
        cases heq
        exact .inl (hupdate hr₀ hr₁)
      · cases hstep
    | add url config => exact .inl (hindex hstep)
    | advance order i => exact .inl (hindex hstep)
    | pump order now => exact .inl (hindex hstep)

def workerU : KvWorkerId := ⟨"u", 0⟩

def workerV : KvWorkerId := ⟨"v", 0⟩

/-- `u` stores two pages and drops the second one; `v` stores the first page. -/
def fleetRun : List FleetOp :=
  [.add "u" (some ⟨5557, 1, 2⟩), .advance .ascending 0, .advance .ascending 0,
    .add "v" (some ⟨5557, 1, 2⟩), .advance .ascending 0, .advance .ascending 0,
    .start workerU 0, .start workerV 0,
    .cache workerU (.insert 1 { tokenIds := [1, 2, 3, 4] } [2, 3, 4, 5] 0 false),
    .cache workerV (.insert 1 { tokenIds := [1, 2] } [2, 3] 0 false),
    .publish workerV 5 0,
    .cache workerU (.matchPrefix 2 { tokenIds := [1, 2] }),
    .cache workerU (.evict (EvictionStrategy.order .lru) 1),
    .publish workerU 2 0] ++
    List.replicate 14 (.pump .ascending 0)

theorem fleetPages_fleetRun {w : KvWorkerId} {p : List Letter}
    (hp : p ∈ fleetPages (fun _ => sampleHashConfig) fleetRun w) :
    IsPagePrefix 2 p (alignedKey sampleHashConfig { tokenIds := [1, 2, 3, 4] }).letters := by
  obtain ⟨o, ho, hp⟩ := hp
  have hmem := mem_cacheOps.mp ho
  simp only [fleetRun, cons_append, nil_append, mem_cons, FleetOp.cache.injEq,
    reduceCtorEq, false_or, mem_replicate, and_false, or_false] at hmem
  rcases hmem with ⟨_, rfl⟩ | ⟨_, rfl⟩ | ⟨_, rfl⟩ | ⟨_, rfl⟩
  · exact hp
  · have hpage : IsPagePrefix 2 p (alignedKey sampleHashConfig { tokenIds := [1, 2] }).letters := hp
    apply hpage.trans
    decide +kernel
  · exact hp.elim
  · exact hp.elim

theorem collisionFree_fleetRun :
    FleetCollisionFree (fun _ => sampleHashConfig)
      (fleetPages (fun _ => sampleHashConfig) fleetRun) := by
  have hne : (hashChain sampleHashConfig
        ((alignedKey sampleHashConfig { tokenIds := [1, 2, 3, 4] }).letters.take 2)).getLast? ≠
      (hashChain sampleHashConfig
        ((alignedKey sampleHashConfig { tokenIds := [1, 2, 3, 4] }).letters.take 4)).getLast? := by
    decide +kernel
  intro v p hp w q hq hlast
  rcases eq_take_of_isPagePrefix (fleetPages_fleetRun hp) (by decide) with rfl | rfl <;>
    rcases eq_take_of_isPagePrefix (fleetPages_fleetRun hq) (by decide) with rfl | rfl
  · rfl
  · exact absurd hlast hne
  · exact absurd hlast.symm hne
  · rfl

theorem fleetRun_matchPrefix : ∃ f,
    run (FleetOp.step fun _ => sampleHashConfig) (Fleet.new 0) fleetRun = some f ∧
      ∀ hashes w, w ∈ (f.index.tree.matchPrefix .ascending 1 none hashes).2.workers ↔
        f.Holds (fun _ => sampleHashConfig) w
          (hashes.take (f.index.tree.matchPrefix .ascending 1 none hashes).2.matchedBlocks) := by
  have hdone : (run (FleetOp.step fun _ => sampleHashConfig) (Fleet.new 0) fleetRun).map (fun f =>
      (f.index.queue, f.index.pump, (f.caches workerU).map fun r => r.cache.kvEventQueue.length,
        (f.caches workerV).map fun r => r.cache.kvEventQueue.length)) =
      some ([], .idle, some 0, some 0) := by decide +kernel
  obtain ⟨f, hf, hvalues⟩ := map_eq_some_iff.mp hdone
  simp only [Prod.mk.injEq] at hvalues
  obtain ⟨hqueue, hpump, hU, hV⟩ := hvalues
  have hdrained : f.Drained := by
    refine ⟨?_, hqueue, hpump⟩
    intro w r hr
    rcases start_mem_of_run fleetRun hf hr with ⟨r₀, hr₀⟩ | ⟨now, hmem⟩
    · cases hr₀
    · simp only [fleetRun, cons_append, nil_append, mem_cons, FleetOp.start.injEq,
        reduceCtorEq, false_or, mem_replicate, and_false, or_false] at hmem
      rcases hmem with ⟨rfl, _⟩ | ⟨rfl, _⟩
      · rw [hr, map_some, Option.some.injEq, length_eq_zero_iff] at hU
        exact hU
      · rw [hr, map_some, Option.some.injEq, length_eq_zero_iff] at hV
        exact hV
  refine ⟨f, hf, fun hashes => ?_⟩
  exact (fleet_matchPrefix (fun _ => sampleHashConfig) (fun _ _ => rfl) (fun _ =>
    rfl) 0 fleetRun f hf
    (by decide +kernel) (by decide +kernel) collisionFree_fleetRun hdrained .ascending 1 hashes).2

end Sglang.Router
