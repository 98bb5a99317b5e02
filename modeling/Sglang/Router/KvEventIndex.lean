import Mathlib.Data.List.Basic
import Sglang.Lib.Runs
import Sglang.Router.HashTree

/-!
# The KV-Event Index of the Router

Model of `KvEventIndex` (`kv_events/index.rs`) and of `KvEventSubscriberRegistry`
(`kv_events/subscriber.rs`): the lifecycle calls, the subscriber tasks and the pump, one critical
section at a time, in any interleaving.

## Conventions

- A `HashMap` that nothing iterates over is a function to `Option`.
- Any number of lifecycle calls may be in progress, for one URL too: the worker manager awaits the
  calls of a worker's id, and two ids may have one URL.
- `clock` counts the steps. A subscription is named by the time at which it was opened, and each
  event in the channel carries the time at which it was sent. Neither the tree nor the cursors
  depend on these times, nor on the two histories `returned` and `effects`.
- A subscriber task may stop at any moment: it is cancelled, its socket fails, or it panics.
-/

namespace Sglang.Router

/-! ## Section 1: Events -/

inductive KvCacheEvent where
  /-- `BlockStored` -/
  | blockStored (parentBlockHash : Option Int64) (blockHashes : List Int64)
  /-- `BlockRemoved` -/
  | blockRemoved (blockHashes : List Int64)
  /-- `AllBlocksCleared` -/
  | allBlocksCleared
deriving DecidableEq

/-- `WorkerEvent`, without its worker: the task that sends it knows it. -/
inductive WorkerEvent where
  /-- A decoded batch with the sequence number of its publisher -/
  | batch (seq : Int64) (events : List KvCacheEvent)
  /-- The publisher signalled its end -/
  | publisherReset
deriving DecidableEq

/-- An event in the channel, or in the hand of the pump. -/
structure Sent where
  worker : KvWorkerId
  event : WorkerEvent
  /-- The subscription that sent it -/
  sub : Nat
  /-- The time at which it entered the channel -/
  born : Nat
deriving DecidableEq

def Sent.IsBatch (ev : Sent) : Prop :=
  match ev.event with
  | .batch _ _ => True
  | .publisherReset => False

instance (ev : Sent) : Decidable ev.IsBatch := by
  unfold Sent.IsBatch
  split <;> infer_instance

/-- The last sequence number applied for a worker, and the subscription it came from. -/
structure Cursor where
  seq : Int64
  sub : Nat
deriving DecidableEq

/-- What a batch changed: the tree, by one of its events, or the cursor of its worker (`none`). -/
structure Effect where
  worker : KvWorkerId
  sub : Nat
  born : Nat
  /-- The time of the change -/
  time : Nat
  update : Option KvCacheEvent
deriving DecidableEq

/-- The channel capacity, `EVENT_CHANNEL_BUFFER`. -/
def eventChannelBuffer : Nat := 1024

/-! ## Section 2: Configurations -/

structure EventConfig where
  portBase : UInt16
  dpSize : UInt32
  blockSize : UInt32

/-- The ranks whose port does not overflow: those `add_worker` marks live, and those the registry
subscribes to. -/
def EventConfig.dpRanks (cfg : EventConfig) : List Nat :=
  (List.range cfg.dpSize.toNat).filter fun rank => cfg.portBase.toNat + rank ≤ 65535

/-- `try_set`: `none` is a rejected candidate, and `0` is no established value. -/
def trySet (value candidate : UInt32) : Option UInt32 :=
  if candidate = 0 then none
  else if value = 0 then some candidate
  else if value = candidate then some value
  else none

def workerIds (url : String) (ranks : List Nat) : List KvWorkerId :=
  ranks.map fun rank => ⟨url, rank⟩

/-! ## Section 3: State -/

/-- Where a lifecycle call stands. -/
inductive Call where
  /-- `add_worker` marked the ranks live -/
  | marked (ranks : List Nat)
  /-- `add_worker` inserted its entry; it subscribes next -/
  | entered (ranks : List Nat)
  /-- `remove_worker` took the entry -/
  | taken (ids : List KvWorkerId)
  /-- `remove_worker` marked the ranks dead -/
  | dead (ids : List KvWorkerId)
  /-- `remove_worker` took the handles and awaits the tasks `pending` -/
  | drained (ids : List KvWorkerId) (pending : Finset (KvWorkerId × Nat))
  /-- `remove_worker` holds the lock on the cursors; `ids` are still to clear -/
  | clearing (ids : List KvWorkerId)
  /-- As `clearing`, with the tree state of `id` dropped and its cursor still there -/
  | cleared (id : KvWorkerId) (ids : List KvWorkerId)
deriving DecidableEq

/-- Where the pump stands. -/
inductive Pump where
  | idle
  /-- An event left the channel -/
  | received (ev : Sent)
  /-- Its worker was live -/
  | live (ev : Sent)
  /-- Its sequence number was new; `rest` is still to apply, then the cursor to write -/
  | applying (ev : Sent) (seq : Int64) (rest : List KvCacheEvent)
deriving DecidableEq

/-- `KvEventIndex`, with the channel, the tasks and the pump. -/
structure IndexState where
  tree : TreeState
  cursors : KvWorkerId → Option Cursor
  /-- The URL of the call that holds the lock on `cursors` from one step to the next -/
  cursorsLock : Option String
  /-- `live_workers` -/
  live : Finset KvWorkerId
  workers : String → Option (List Nat)
  /-- The value of `block_size_oracle` -/
  blockSize : UInt32
  /-- `handles`, each with the subscription of its task -/
  handles : KvWorkerId → Option Nat
  /-- The tasks that still run -/
  tasks : Finset (KvWorkerId × Nat)
  queue : List Sent
  pump : Pump
  /-- The calls in progress, each with its URL -/
  calls : List (String × Call)
  clock : Nat
  /-- The calls of `remove_worker` that have returned -/
  returned : List (String × Nat)
  effects : List Effect

/-- `new_with_http_and_oracle`. -/
def IndexState.new (now : Nat) : IndexState where
  tree := TreeState.new now
  cursors := fun _ => none
  cursorsLock := none
  live := ∅
  workers := fun _ => none
  blockSize := 0
  handles := fun _ => none
  tasks := ∅
  queue := []
  pump := .idle
  calls := []
  clock := 0
  returned := []
  effects := []

namespace IndexState

/-- The event that the pump holds, before the live check or after it. -/
def inHand (s : IndexState) : Option Sent :=
  match s.pump with
  | .idle => none
  | .received ev => some ev
  | .live ev => some ev
  | .applying ev _ _ => some ev

/-- The event that passed the live check. -/
def passed (s : IndexState) : Option Sent :=
  match s.pump with
  | .idle => none
  | .received _ => none
  | .live ev => some ev
  | .applying ev _ _ => some ev

def waiting (s : IndexState) : List Sent :=
  match s.pump with
  | .received ev => ev :: s.queue
  | _ => s.queue

/-- The points of the calls in progress for a URL. -/
def callsOf (s : IndexState) (url : String) : List Call :=
  (s.calls.filter fun call => call.1 = url).map Prod.snd

def begin (s : IndexState) (url : String) (c : Call) : IndexState :=
  { s with calls := s.calls ++ [(url, c)] }

/-- Move the `i`-th call to its next point. -/
def moveTo (s : IndexState) (i : Nat) (url : String) (c : Call) : IndexState :=
  { s with calls := s.calls.set i (url, c) }

/-- The `i`-th call returns. -/
def finish (s : IndexState) (i : Nat) : IndexState :=
  { s with calls := s.calls.eraseIdx i }

/-! ## Section 4: Lifecycle Calls -/

/-- `add_worker`, up to the marking of the ranks. Without a configuration the worker does not
publish, or its introspection failed. -/
def addWorker (s : IndexState) (url : String) (cfg : Option EventConfig) : IndexState :=
  match cfg with
  | none => s
  | some cfg =>
    match trySet s.blockSize cfg.blockSize with
    | none => s
    | some value =>
      let s := { s with blockSize := value }
      if cfg.dpRanks = [] then s
      else
        let s := { s with live := s.live ∪ (workerIds url cfg.dpRanks).toFinset }
        s.begin url (.marked cfg.dpRanks)

/-- `remove_worker`, up to the removal of the entry. -/
def removeWorker (s : IndexState) (url : String) : IndexState :=
  match s.workers url with
  | none => { s with returned := (url, s.clock) :: s.returned }
  | some ranks =>
    let s := { s with workers := Function.update s.workers url none }
    s.begin url (.taken (workerIds url ranks))

/-- The body of the loop of the registry's `add_worker`. -/
def subscribe (s : IndexState) (id : KvWorkerId) : IndexState :=
  match s.handles id with
  | some _ => s
  | none =>
    { s with
      handles := Function.update s.handles id (some s.clock)
      tasks := insert (id, s.clock) s.tasks }

/-- The next critical section of the `i`-th call in progress. -/
def advance (s : IndexState) (order : HashOrder) (i : Nat) : Option IndexState :=
  match s.calls[i]? with
  | none => none
  | some (url, .marked ranks) =>
    let s := { s with workers := Function.update s.workers url (some ranks) }
    some (s.moveTo i url (.entered ranks))
  | some (url, .entered ranks) =>
    some (((workerIds url ranks).foldl subscribe s).finish i)
  | some (url, .taken ids) =>
    let s := { s with live := s.live \ ids.toFinset }
    some (s.moveTo i url (.dead ids))
  | some (url, .dead ids) =>
    let pending := s.tasks.filter fun t => t.1.url = url ∧ s.handles t.1 = some t.2
    let s := { s with handles := fun id => if id.url = url then none else s.handles id }
    some (s.moveTo i url (.drained ids pending))
  | some (url, .drained ids pending) =>
    if (∀ t ∈ pending, t ∉ s.tasks) ∧ s.cursorsLock = none then
      let s := { s with cursorsLock := some url }
      some (s.moveTo i url (.clearing ids))
    else none
  | some (url, .clearing []) =>
    let s := { s with cursorsLock := none, returned := (url, s.clock) :: s.returned }
    some (s.finish i)
  | some (url, .clearing (id :: ids)) =>
    let s := { s with tree := s.tree.clearWorker order id }
    some (s.moveTo i url (.cleared id ids))
  | some (url, .cleared id ids) =>
    let s := { s with cursors := Function.update s.cursors id none }
    some (s.moveTo i url (.clearing ids))

/-! ## Section 5: Tasks and the Pump -/

/-- `tx.send(event)` in a subscriber task; it waits while the channel is full. -/
def send (s : IndexState) (worker : KvWorkerId) (sub : Nat) (event : WorkerEvent) :
    Option IndexState :=
  if (worker, sub) ∈ s.tasks ∧ s.queue.length < eventChannelBuffer then
    some { s with queue := s.queue ++ [⟨worker, event, sub, s.clock⟩] }
  else none

def exit (s : IndexState) (worker : KvWorkerId) (sub : Nat) : Option IndexState :=
  if (worker, sub) ∈ s.tasks then some { s with tasks := s.tasks.erase (worker, sub) } else none

def applyEvent (tree : TreeState) (order : HashOrder) (now : Nat) (worker : KvWorkerId) :
    KvCacheEvent → TreeState
  | .blockStored parentBlockHash blockHashes =>
    tree.insert order now worker parentBlockHash blockHashes
  | .blockRemoved blockHashes => tree.remove order worker blockHashes
  | .allBlocksCleared => tree.clearWorker order worker

/-- The next step of `pump_loop`. The pump waits for the lock on the cursors. -/
def pumpStep (s : IndexState) (order : HashOrder) (now : Nat) : Option IndexState :=
  match s.pump with
  | .idle =>
    match s.queue with
    | [] => none
    | ev :: queue => some { s with queue := queue, pump := .received ev }
  | .received ev =>
    if ev.worker ∈ s.live then some { s with pump := .live ev } else some { s with pump := .idle }
  | .live ev =>
    if s.cursorsLock ≠ none then none
    else
      match ev.event with
      | .publisherReset =>
        some { s with cursors := Function.update s.cursors ev.worker none, pump := .idle }
      | .batch seq events =>
        match s.cursors ev.worker with
        | none => some { s with pump := .applying ev seq events }
        | some c =>
          if seq ≤ c.seq then some { s with pump := .idle }
          else some { s with pump := .applying ev seq events }
  | .applying ev seq [] =>
    if s.cursorsLock ≠ none then none
    else
      some { s with
        cursors := Function.update s.cursors ev.worker (some ⟨seq, ev.sub⟩)
        pump := .idle
        effects := ⟨ev.worker, ev.sub, ev.born, s.clock, none⟩ :: s.effects }
  | .applying ev seq (event :: rest) =>
    some { s with
      tree := applyEvent s.tree order now ev.worker event
      pump := .applying ev seq rest
      effects := ⟨ev.worker, ev.sub, ev.born, s.clock, some event⟩ :: s.effects }

end IndexState

/-! ## Section 6: Steps -/

/-- The steps of the system. -/
inductive IndexOp where
  /-- A call of `add_worker` starts, with the configuration it found -/
  | add (url : String) (cfg : Option EventConfig)
  /-- A call of `remove_worker` starts -/
  | remove (url : String)
  /-- One of the calls in progress moves on -/
  | advance (order : HashOrder) (i : Nat)
  | send (worker : KvWorkerId) (sub : Nat) (event : WorkerEvent)
  | exit (worker : KvWorkerId) (sub : Nat)
  | pump (order : HashOrder) (now : Nat)

/-- One step, `none` where it is not enabled. -/
def IndexOp.step (s : IndexState) (op : IndexOp) : Option IndexState :=
  let next :=
    match op with
    | .add url cfg => some (s.addWorker url cfg)
    | .remove url => some (s.removeWorker url)
    | .advance order i => s.advance order i
    | .send worker sub event => s.send worker sub event
    | .exit worker sub => s.exit worker sub
    | .pump order now => s.pumpStep order now
  next.map fun t => { t with clock := s.clock + 1 }

end Sglang.Router
