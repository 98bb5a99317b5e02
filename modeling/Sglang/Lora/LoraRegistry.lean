import Mathlib
import Sglang.Lib.Runs

/-!
# The LoRA Registry

Model of `LoRARegistry` (`lora/lora_registry.py`) with its `RWLock` (`utils/aio_rwlock.py`) and the
`ConcurrentCounter`s of `utils/common.py`, as the tokenizer manager drives them from one event loop.

- `LoRARegistry`: the registered adapters and the counters,
- `Task`: where a call is between two suspensions,
- `step`: the event loop runs one task to its next suspension.

## Conventions

- An `await` that does not suspend is no switch. No task waits while it holds the inner lock of
  `RWLock` or of a counter, so these are free whenever a task asks for them: a task switches only
  while it waits for the reader or the writer lock, for the children of `asyncio.gather`, or for a
  counter to be zero.
- A task that waits may be resumed at any time, and looks again.
- An id is registered once (`uuid4`), so that the counter of an id is one object.
- The adapters of `--lora-paths` are registered by the first calls.
-/

namespace Sglang.Lora

/-! ## Section 1: The registry -/

/-- `LoRARef`, as far as the registry reads it. -/
structure LoRARef where
  loraId : String
  loraName : String
deriving DecidableEq

inductive LoraError where
  | alreadyExists (name : String)
  | doesNotExist (name : String)
  | notLoaded (name : String)
  /-- The assertion that the adapter has been unregistered. -/
  | stillRegistered (id : String)
  /-- `_counters` has no such key. -/
  | missingCounter (id : String)
deriving DecidableEq

/-- `LoRARegistry`: the adapters from the least to the most recently used, the keys of `_counters`,
the values of the counters, and the ids that have been registered. -/
structure LoRARegistry where
  registry : List LoRARef
  counters : List String
  counts : String → Int
  issued : List String

namespace LoRARegistry

def get (r : LoRARegistry) (name : String) : Option LoRARef := r.registry.find? (·.loraName = name)

def registerAdapter (r : LoRARegistry) (ref : LoRARef) : Except LoraError LoRARegistry :=
  match r.get ref.loraName with
  | some _ => .error (.alreadyExists ref.loraName)
  | none => .ok ⟨r.registry ++ [ref], r.counters.insert ref.loraId,
      Function.update r.counts ref.loraId 0, ref.loraId :: r.issued⟩

/-- `unregister`, under the writer lock. -/
def unregister (r : LoRARegistry) (name : String) : Except LoraError (String × LoRARegistry) :=
  match r.get name with
  | none => .error (.doesNotExist name)
  | some ref => .ok (ref.loraId, { r with registry := r.registry.filter (·.loraName ≠ name) })

def lookup (r : LoRARegistry) (name : String) : Except LoraError (String × LoRARegistry) :=
  match r.get name with
  | none => .error (.notLoaded name)
  | some ref =>
    .ok (ref.loraId, { r with registry := r.registry.filter (·.loraName ≠ name) ++ [ref] })

/-- `[_lookup(name) for name in lora_name]`; an error keeps the order the earlier lookups left. -/
def lookupAll (r : LoRARegistry) : List (Option String) →
    LoRARegistry × Except LoraError (List (Option String))
  | [] => (r, .ok [])
  | none :: names =>
    let (r', result) := r.lookupAll names
    (r', result.map (none :: ·))
  | some name :: names =>
    match r.lookup name with
    | .error e => (r, .error e)
    | .ok (id, r₁) =>
      let (r', result) := lookupAll r₁ names
      (r', result.map (some id :: ·))

/-- `increment` and `decrement` of a counter. -/
def add (r : LoRARegistry) (id : String) (n : Int) : LoRARegistry :=
  { r with counts := Function.update r.counts id (r.counts id + n) }

/-- `del self._counters[lora_id]`. -/
def delCounter (r : LoRARegistry) (id : String) : LoRARegistry :=
  { r with counters := r.counters.filter (· ≠ id) }

end LoRARegistry

/-! ## Section 2: Calls and tasks -/

/-- A call of the tokenizer manager. `unload` is `unregister` followed by `wait_for_unload`. -/
inductive Call where
  | register (ref : LoRARef)
  | unload (name : String)
  | acquire (name : String)
  | acquireAll (names : List (Option String))
  | release (id : String)
  | releaseAll (ids : List (Option String))
deriving DecidableEq

/-- Whether the call takes the writer lock or the reader lock. -/
def Call.writes : Call → Bool
  | .release _ | .releaseAll _ => false
  | _ => true

/-- Where a call is. -/
inductive Task where
  /-- It has not run yet. -/
  | called (call : Call)
  /-- It waits for the lock. -/
  | waiting (call : Call)
  /-- It waits for the increments of `asyncio.gather`: those to run, those that have run, the
  result. -/
  | incrementing (pending counted : List String) (ids : List (Option String))
  /-- It waits for the decrements of `asyncio.gather`, with the reader lock. -/
  | decrementing (pending : List String)
  /-- It waits for the counter to be zero. -/
  | unloading (id : String)
  /-- `wait_for_unload` has returned. -/
  | unloaded (id : String)
  | returned
  | raised (error : LoraError)
deriving DecidableEq

/-- The registry, its lock and the tasks; `held` are the ids that `acquire` has returned and for
which `release` has not been called. -/
structure World where
  lora : LoRARegistry
  readers : Nat
  waitingWriters : Nat
  tasks : List Task
  held : List String

namespace World

def init : World := ⟨⟨[], [], fun _ => 0, []⟩, 0, 0, [], []⟩

def goto (w : World) (i : Nat) (t : Task) : World := { w with tasks := w.tasks.set i t }

/-- `wait_for_zero`, and the deletion of the counter. -/
def waitForZero (w : World) (i : Nat) (id : String) : World :=
  if w.lora.counts id = 0 then
    if id ∈ w.lora.counters then { w with lora := w.lora.delCounter id }.goto i (.unloaded id)
    else w.goto i (.raised (.missingCounter id))
  else w.goto i (.unloading id)

/-- `wait_for_unload`. The first assertion compares the id with the names. -/
def waitForUnload (w : World) (i : Nat) (id : String) : World :=
  if id ∈ w.lora.registry.map (·.loraName) then w.goto i (.raised (.stillRegistered id))
  else if id ∉ w.lora.counters then w.goto i (.raised (.missingCounter id))
  else w.waitForZero i id

/-- What a call does once it has the lock, up to its next suspension. -/
def body (w : World) (i : Nat) : Call → Option World
  | .register ref =>
    if ref.loraId ∈ w.lora.issued then none
    else match w.lora.registerAdapter ref with
      | .error e => some (w.goto i (.raised e))
      | .ok lora => some ({ w with lora := lora }.goto i .returned)
  | .unload name =>
    match w.lora.unregister name with
    | .error e => some (w.goto i (.raised e))
    | .ok (id, lora) => some ({ w with lora := lora }.waitForUnload i id)
  | .acquire name =>
    match w.lora.lookup name with
    | .error e => some (w.goto i (.raised e))
    | .ok (id, lora) =>
      if id ∈ lora.counters then
        some ({ w with lora := lora.add id 1, held := w.held ++ [id] }.goto i .returned)
      else some ({ w with lora := lora }.goto i (.raised (.missingCounter id)))
  | .acquireAll names =>
    match w.lora.lookupAll names with
    | (lora, .error e) => some ({ w with lora := lora }.goto i (.raised e))
    | (lora, .ok ids) =>
      -- the counters are read at once, the increments are left to the children
      match ids.reduceOption.find? (· ∉ lora.counters) with
      | some id => some ({ w with lora := lora }.goto i (.raised (.missingCounter id)))
      | none => some ({ w with lora := lora }.goto i (.incrementing ids.reduceOption [] ids))
  | .release id =>
    if id ∈ w.lora.counters then some ({ w with lora := w.lora.add id (-1) }.goto i .returned)
    else some (w.goto i (.raised (.missingCounter id)))
  | .releaseAll ids =>
    match ids.reduceOption.find? (· ∉ w.lora.counters) with
    | some id => some (w.goto i (.raised (.missingCounter id)))
    | none => some ({ w with readers := w.readers + 1 }.goto i (.decrementing ids.reduceOption))

/-- `acquire_writer` or `acquire_reader`, then the call. No writer is active between two tasks. -/
def enter (w : World) (i : Nat) (call : Call) (waited : Bool) : Option World :=
  if call.writes then
    if w.readers = 0 then
      { w with waitingWriters := if waited then w.waitingWriters - 1 else w.waitingWriters }.body i
        call
    else
      some ({ w with
        waitingWriters := if waited then w.waitingWriters else w.waitingWriters + 1 }.goto i
          (.waiting call))
  else if w.waitingWriters = 0 then w.body i call
  else some (w.goto i (.waiting call))

def resume (w : World) (i : Nat) : Task → Option World
  | .called call => w.enter i call false
  | .waiting call => w.enter i call true
  | .incrementing [] _ ids => some ({ w with held := w.held ++ ids.reduceOption }.goto i .returned)
  | .decrementing [] => some ({ w with readers := w.readers - 1 }.goto i .returned)
  | .unloading id => some (w.waitForZero i id)
  | _ => none

/-- The event loop runs a child of the `asyncio.gather` of a task. -/
def child (w : World) (i k : Nat) : Task → Option World
  | .incrementing pending counted ids => do
    let id ← pending[k]?
    some ({ w with lora := w.lora.add id 1 }.goto i
      (.incrementing (pending.eraseIdx k) (id :: counted) ids))
  | .decrementing pending => do
    let id ← pending[k]?
    some ({ w with lora := w.lora.add id (-1) }.goto i (.decrementing (pending.eraseIdx k)))
  | _ => none

/-- The tokenizer manager makes a call. It releases what it has acquired, and no more. -/
def call (w : World) (c : Call) : Option World :=
  match c with
  | .release id =>
    if id ∈ w.held then some { w with held := w.held.erase id, tasks := w.tasks ++ [.called c] }
    else none
  | .releaseAll ids =>
    if ∀ id ∈ ids.reduceOption, ids.reduceOption.count id ≤ w.held.count id then
      some { w with held := w.held.diff ids.reduceOption, tasks := w.tasks ++ [.called c] }
    else none
  | _ => some { w with tasks := w.tasks ++ [.called c] }

end World

/-- What happens next. -/
inductive Event where
  | call (c : Call)
  | resume (i : Nat)
  | child (i k : Nat)
deriving DecidableEq

def step (w : World) : Event → Option World
  | .call c => w.call c
  | .resume i => w.tasks[i]? >>= w.resume i
  | .child i k => w.tasks[i]? >>= w.child i k

/-! ## Section 3: Acquisitions -/

/-- The acquisitions of `x` in the hands of a task: counted, and not yet released. -/
def Task.outstanding (x : String) : Task → Nat
  | .called (.release id) | .waiting (.release id) => if id = x then 1 else 0
  | .called (.releaseAll ids) | .waiting (.releaseAll ids) => ids.reduceOption.count x
  | .incrementing _ counted _ => counted.count x
  | .decrementing pending => pending.count x
  | _ => 0

/-- The increments of `x` that a task has yet to run. -/
def Task.uncounted (x : String) : Task → Nat
  | .incrementing pending _ _ => pending.count x
  | _ => 0

namespace World

/-- The acquisitions of `x` that are outstanding. -/
def outstanding (w : World) (x : String) : Nat :=
  w.held.count x + (w.tasks.map (Task.outstanding x)).sum

/-- The increments of `x` that list acquisitions have yet to run. -/
def uncounted (w : World) (x : String) : Nat := (w.tasks.map (Task.uncounted x)).sum

/-- No adapter that an acquisition has not released is unloaded, no counter is missing, and the
counters count the acquisitions. -/
structure Protected (w : World) : Prop where
  notUnloaded : ∀ x, 0 < w.outstanding x → .unloaded x ∉ w.tasks
  counter : ∀ x, .raised (.missingCounter x) ∉ w.tasks
  count : ∀ x, 0 < w.outstanding x ∨ x ∈ w.lora.counters →
    x ∈ w.lora.counters ∧ w.lora.counts x = w.outstanding x

/-- The adapter whose unload may complete when the task is resumed. -/
def unloadTarget (w : World) : Task → Option String
  | .called (.unload name) | .waiting (.unload name) => (w.lora.get name).map (·.loraId)
  | .unloading id => some id
  | _ => none

/-- The event does not complete the unload of an adapter that a list acquisition has looked up and
has yet to count. -/
def NotOvertaken (w : World) : Event → Prop
  | .resume i =>
    ∀ x ∈ w.tasks[i]? >>= w.unloadTarget, w.lora.counts x = 0 → w.uncounted x = 0
  | _ => True

instance (w : World) : DecidablePred w.NotOvertaken := fun e =>
  match e with
  | .call _ => isTrue trivial
  | .child _ _ => isTrue trivial
  | .resume i =>
    match h : w.tasks[i]? >>= w.unloadTarget with
    | none => isTrue (by simp [NotOvertaken, h])
    | some x =>
      decidable_of_iff (w.lora.counts x = 0 → w.uncounted x = 0) (by simp [NotOvertaken, h])

end World

end Sglang.Lora
