import Mathlib
import Sglang.Lib.Runs

/-!
# The Worker Registry

Model of `WorkerRegistry` (`core/worker_registry.rs`): the workers by id, and the maps that are kept
beside them.

- `HashRing`: the virtual nodes of the workers of a model, sorted by their position,
- `register`, `reserveIdForUrl`, `remove`, `removeByUrl`: the calls that change the registry,
- `getByModel`, `getByType`, `getByConnection`, `getWorkersFiltered`: the calls that read it,
- `step`: the calls one at a time.

## Conventions

- A `DashMap` whose entries are listed is an `AList`, the others are functions. The order in which
  entries are listed is not part of any statement.
- A call comes with the `Uuid` it may draw: the `k`-th call draws `newV4 k`.
- `hash` is what `u64::from_le_bytes` makes of the first eight bytes of a `blake3` hash. Virtual
  nodes at one position may stand in any order (`sort_unstable_by_key`); here they keep theirs.
- The attributes of a worker do not change. Whether it is healthy does, and is a parameter of the
  call that asks for it.
-/

namespace Sglang.Registry

open List Function

/-! ## Section 1: Workers -/

inductive WorkerType where
  | regular
  | prefill (bootstrapPort : Option UInt16)
  | decode
deriving DecidableEq

inductive ConnectionMode where
  | http
  | grpc (port : Option UInt16)
deriving DecidableEq

def ConnectionMode.matches : ConnectionMode → ConnectionMode → Bool
  | .http, .http => true
  | .grpc _, .grpc none => true
  | .grpc p₁, .grpc (some p₂) => p₁ = some p₂
  | _, _ => false

inductive RuntimeType where
  | sglang
  | vllm
  | external
deriving DecidableEq

/-- A `Worker`, as far as the registry reads it. -/
structure Worker where
  url : String
  modelId : String
  workerType : WorkerType
  connectionMode : ConnectionMode
  runtimeType : RuntimeType
deriving DecidableEq

structure WorkerId where
  id : String
deriving DecidableEq

/-! ## Section 2: The hash ring -/

def virtualNodesPerWorker : Nat := 150

/-- `HashRing`: positions and urls. -/
structure HashRing where
  entries : List (UInt64 × String)
  sorted : entries.Pairwise fun a b => a.1 ≤ b.1

namespace HashRing

variable (hash : List UInt8 → UInt64)

/-- `(vnode as u64).to_le_bytes()`. -/
def leBytes (n : Nat) : List UInt8 := (List.range 8).map fun k => UInt8.ofNat (n / 256 ^ k)

/-- The position of a virtual node of a worker. -/
def position (url : String) (vnode : Nat) : UInt64 :=
  hash (url.toUTF8.data.toList ++ "#".toUTF8.data.toList ++ leBytes vnode)

/-- The virtual nodes of the workers, before they are sorted. -/
def virtualNodes (workers : List Worker) : List (UInt64 × String) :=
  workers.flatMap fun w => (List.range virtualNodesPerWorker).map fun v =>
    (position hash w.url v, w.url)

/-- The order of `sort_unstable_by_key`. -/
def byPosition (a b : UInt64 × String) : Bool := a.1 ≤ b.1

theorem byPosition_iff {a b : UInt64 × String} : byPosition a b = true ↔ a.1 ≤ b.1 :=
    decide_eq_true_iff

theorem sorted_virtualNodes (workers : List Worker) :
    ((virtualNodes hash workers).mergeSort byPosition).Pairwise fun a b => a.1 ≤ b.1 := by
  have hsorted := @List.pairwise_mergeSort _ byPosition
    (fun a b c hab hbc =>
      byPosition_iff.mpr (UInt64.le_trans (byPosition_iff.mp hab) (byPosition_iff.mp hbc)))
    (fun a b => by
      rw [Bool.or_eq_true, byPosition_iff, byPosition_iff]
      exact UInt64.le_total a.1 b.1)
    (virtualNodes hash workers)
  exact hsorted.imp byPosition_iff.mp

def new (workers : List Worker) : HashRing where
  entries := (virtualNodes hash workers).mergeSort byPosition
  sorted := sorted_virtualNodes hash workers

def urls (ring : HashRing) : List String := ring.entries.map Prod.snd

theorem mem_urls_new {workers : List Worker} {url : String} :
    url ∈ (new hash workers).urls ↔ ∃ w ∈ workers, w.url = url := by
  have hperm := mergeSort_perm (virtualNodes hash workers) byPosition
  have hpos : 0 ∈ List.range virtualNodesPerWorker := mem_range.mpr (Nat.succ_pos _)
  rw [urls, new, (hperm.map Prod.snd).mem_iff]
  simp only [virtualNodes, map_flatMap, mem_flatMap, map_map, mem_map,
    comp_apply]
  constructor
  · rintro ⟨w, hw, v, -, heq⟩
    exact ⟨w, hw, heq⟩
  · rintro ⟨w, hw, heq⟩
    exact ⟨w, hw, 0, hpos, heq⟩

end HashRing

/-! ## Section 3: Indexes by an attribute -/

/-- `DashMap<κ, Vec<α>>`. -/
abbrev Index (κ α : Type) := κ → Option (List α)

namespace Index

variable {κ α : Type} [DecidableEq κ]

def list (index : Index κ α) (key : κ) : List α := (index key).getD []

/-- `entry(key).or_default().push(value)`. -/
def push (index : Index κ α) (key : κ) (value : α) : Index κ α :=
  update index key (some (index.list key ++ [value]))

/-- `get_mut(key)` and `retain`. -/
def retain (index : Index κ α) (key : κ) (p : α → Bool) : Index κ α :=
  update index key ((index key).map (List.filter p))

variable {index : Index κ α} {key : κ}

theorem list_push (value : α) (k : κ) :
    (index.push key value).list k = if k = key then index.list key ++
      [value] else index.list k := by
  unfold list push update
  split
  · next h =>
    cases h
    rfl
  · rfl

theorem list_retain (p : α → Bool) (k : κ) :
    (index.retain key p).list k = if k = key then (index.list key).filter p else index.list k := by
  unfold list retain update
  split
  · next h =>
    cases h
    change (Option.map _ _).getD _ = _
    cases index key with
    | none => rfl
    | some l => rfl
  · rfl

end Index

/-! ## Section 4: The registry -/

/-- `DashMap<WorkerId, Arc<dyn Worker>>`. -/
abbrev Workers := AList fun _ : WorkerId => Worker

def Workers.pairs (workers : Workers) : List (WorkerId × Worker) := workers.entries.map fun e =>
    (e.1, e.2)

structure WorkerRegistry where
  workers : Workers
  modelIndex : Index String Worker
  hashRings : String → Option HashRing
  typeWorkers : Index WorkerType WorkerId
  connectionWorkers : Index ConnectionMode WorkerId
  urlToId : String → Option WorkerId

namespace WorkerRegistry

def new : WorkerRegistry where
  workers := ∅
  modelIndex := fun _ => none
  hashRings := fun _ => none
  typeWorkers := fun _ => none
  connectionWorkers := fun _ => none
  urlToId := fun _ => none

def get (r : WorkerRegistry) (id : WorkerId) : Option Worker := r.workers.lookup id

def getByUrl (r : WorkerRegistry) (url : String) : Option Worker := (r.urlToId url).bind r.get

def getAllWithIds (r : WorkerRegistry) : List (WorkerId × Worker) := r.workers.pairs

def getAll (r : WorkerRegistry) : List Worker := r.getAllWithIds.map Prod.snd

def getByModel (r : WorkerRegistry) (modelId : String) : List Worker := r.modelIndex.list modelId

def getByType (r : WorkerRegistry) (workerType : WorkerType) : List Worker :=
  (r.typeWorkers.list workerType).filterMap r.get

def getByConnection (r : WorkerRegistry) (connectionMode : ConnectionMode) : List Worker :=
  (r.connectionWorkers.list connectionMode).filterMap r.get

/-- The urls on the ring that `get_hash_ring` returns. -/
def ringUrls (r : WorkerRegistry) (modelId : String) : List String :=
  ((r.hashRings modelId).map HashRing.urls).getD []

def getWorkersFiltered (r : WorkerRegistry) (isHealthy : Worker → Bool) (modelId : Option String)
    (workerType : Option WorkerType) (connectionMode : Option ConnectionMode)
    (runtimeType : Option RuntimeType) (healthyOnly : Bool) : List Worker :=
  let workers := match modelId with
    | some model => r.getByModel model
    | none => r.getAll
  workers.filter fun w =>
    workerType.all (w.workerType = ·) && connectionMode.all w.connectionMode.matches &&
      runtimeType.all (w.runtimeType = ·) && (!healthyOnly || isHealthy w)

variable (hash : List UInt8 → UInt64)

def rebuildHashRing (r : WorkerRegistry) (modelId : String) : WorkerRegistry :=
  { r with
    hashRings := update r.hashRings modelId ((r.modelIndex modelId).map (HashRing.new hash)) }

/-- The id that `register` gives a worker. -/
def idFor (r : WorkerRegistry) (fresh : WorkerId) (url : String) : WorkerId :=
    (r.urlToId url).getD fresh

def register (r : WorkerRegistry) (fresh : WorkerId) (worker : Worker) : WorkerRegistry :=
  let workerId := r.idFor fresh worker.url
  let r := { r with
    workers := r.workers.insert workerId worker
    urlToId := update r.urlToId worker.url (some workerId)
    modelIndex := r.modelIndex.push worker.modelId worker }
  let r := r.rebuildHashRing hash worker.modelId
  { r with
    typeWorkers := r.typeWorkers.push worker.workerType workerId
    connectionWorkers := r.connectionWorkers.push worker.connectionMode workerId }

def reserveIdForUrl (r : WorkerRegistry) (fresh : WorkerId) (url : String) : WorkerRegistry :=
  { r with urlToId := update r.urlToId url (some (r.idFor fresh url)) }

def remove (r : WorkerRegistry) (workerId : WorkerId) : WorkerRegistry :=
  match r.workers.lookup workerId with
  | none => r
  | some worker =>
    let r := { r with
      workers := r.workers.erase workerId
      urlToId := update r.urlToId worker.url none
      modelIndex := r.modelIndex.retain worker.modelId (·.url ≠ worker.url) }
    let r := r.rebuildHashRing hash worker.modelId
    { r with
      typeWorkers := r.typeWorkers.retain worker.workerType (· ≠ workerId)
      connectionWorkers := r.connectionWorkers.retain worker.connectionMode (· ≠ workerId) }

def removeByUrl (r : WorkerRegistry) (url : String) : WorkerRegistry :=
  match r.urlToId url with
  | none => r
  | some workerId => remove hash { r with urlToId := update r.urlToId url none } workerId

end WorkerRegistry

/-! ## Section 5: Calls one at a time -/

/-- A call that changes the registry. -/
inductive Call where
  | register (worker : Worker)
  | reserveIdForUrl (url : String)
  | remove (workerId : WorkerId)
  | removeByUrl (url : String)
deriving DecidableEq

/-- The registry, and the number of calls so far. -/
structure State where
  registry : WorkerRegistry
  calls : Nat

def State.init : State := ⟨.new, 0⟩

def WorkerRegistry.apply (hash : List UInt8 → UInt64) (r : WorkerRegistry) (fresh : WorkerId) :
    Call → WorkerRegistry
  | .register worker => r.register hash fresh worker
  | .reserveIdForUrl url => r.reserveIdForUrl fresh url
  | .remove workerId => r.remove hash workerId
  | .removeByUrl url => r.removeByUrl hash url

def step (hash : List UInt8 → UInt64) (newV4 : Nat → WorkerId) (s : State) (call : Call) :
    Option State :=
  some ⟨s.registry.apply hash (newV4 s.calls) call, s.calls + 1⟩

end Sglang.Registry
