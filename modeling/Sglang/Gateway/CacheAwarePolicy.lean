import Mathlib
import Sglang.Gateway.Policies
import Sglang.Gateway.TenantTree

/-!
# Cache-Aware Routing Policy

Model of `policies/cache_aware.rs`: a routing tree for each pool and model, and `select_worker` over
it.

## Conventions

- Calls on the trees are sequential. Each call comes with the orders and epochs that it meets.
- The comparisons of loads and of the match rate are made in `f32`; both tests are parameters of the
  policy.
- `none` is a panic. What the mesh is told is left out.
-/

namespace Sglang.Gateway

def poolTag : WorkerType → String
  | .regular => "regular"
  | .prefill => "prefill"
  | .decode => "decode"

def makeTreeKey (pool model : String) : String := pool ++ "::" ++ model

structure CacheAwarePolicy where
  trees : String → Option Tree
  /-- `max_load.saturating_sub(min_load) > balance_abs_threshold` and `max_load as f32 > min_load as
  f32 * balance_rel_threshold`, of `max_load` and `min_load`. -/
  imbalanced : Nat → Nat → Bool
  /-- `match_rate > cache_threshold`, of the matched and of all characters. -/
  cacheHit : Nat → Nat → Bool
  unknownModelId : String

/-- What a call of `select_worker` meets. -/
structure SelectChoices where
  order : DashOrder
  matchEpoch : Nat
  insertEpoch : Nat
  random : Nat

namespace CacheAwarePolicy

def withConfig (imbalanced cacheHit : Nat → Nat → Bool) (unknownModelId : String) :
    CacheAwarePolicy :=
  ⟨fun _ => none, imbalanced, cacheHit, unknownModelId⟩

def treeKeyForWorker (p : CacheAwarePolicy) (w : Worker) : String :=
  makeTreeKey (poolTag w.workerType) (normalizeModelKey p.unknownModelId w.modelId)

def setTree (p : CacheAwarePolicy) (key : String) (tree : Tree) : CacheAwarePolicy :=
  { p with trees := Function.update p.trees key (some tree) }

/-- `trees.entry(key).or_insert_with(|| Arc::new(Tree::new()))`. -/
def entry (p : CacheAwarePolicy) (key : String) : Tree := (p.trees key).getD Tree.new

/-- `add_worker`; `init_workers` calls it for each worker. -/
def addWorker (p : CacheAwarePolicy) (w : Worker) (epoch : Nat) : Option CacheAwarePolicy := do
  let key := p.treeKeyForWorker w
  let tree ← (p.entry key).insert epoch [] w.url
  some (p.setTree key tree)

/-- What `remove_worker_by_url` does to one tree. -/
def removeUrlFrom (p : CacheAwarePolicy) (key url : String) (order : DashOrder) :
    Option CacheAwarePolicy :=
  match p.trees key with
  | none => some p
  | some tree => do
    let tree ← tree.removeTenant order url
    some (p.setTree key tree)

def removeWorker (p : CacheAwarePolicy) (w : Worker) (order : DashOrder) :
    Option CacheAwarePolicy :=
  p.removeUrlFrom (p.treeKeyForWorker w) w.url order

def normalizeMeshModelId (p : CacheAwarePolicy) (treeKey : String) : String :=
  if treeKey = "" then p.unknownModelId else treeKey

/-- `apply_remote_tree_operation` of an insertion. -/
def applyRemoteInsert (p : CacheAwarePolicy) (meshKey : String) (text : List Char) (tenant : String)
    (epoch : Nat) : Option CacheAwarePolicy := do
  let key := p.normalizeMeshModelId meshKey
  let tree ← (p.entry key).insert epoch text tenant
  some (p.setTree key tree)

/-- `apply_remote_tree_operation` of a removal. -/
def applyRemoteRemove (p : CacheAwarePolicy) (meshKey tenant : String) (order : DashOrder) :
    Option CacheAwarePolicy := do
  let key := p.normalizeMeshModelId meshKey
  let tree ← (p.entry key).removeTenant order tenant
  some (p.setTree key tree)

/-- What `evict_cache` and the eviction task do to one tree. -/
def evictFrom (p : CacheAwarePolicy) (key : String) (order : DashOrder)
    (tie : List EvictionEntry → Nat) (maxSize : Nat) : Option CacheAwarePolicy :=
  match p.trees key with
  | none => some p
  | some tree => do
    let tree ← tree.evictTenantBySize order tie maxSize
    some (p.setTree key tree)

/-- The first of the healthy workers with the least load. -/
def minLoadIndex (workers : List Worker) (healthyIndices : List Nat) : Option Nat :=
  healthyIndices.argmin fun i => (workers[i]?.map Worker.load).getD 0

/-- The least and the greatest load, with zero for the least of none. -/
def loadRange (workers : List Worker) : Nat × Nat :=
  let range :=
    workers.foldl (fun (low, high) w => (min low w.load, max high w.load)) (2 ^ 64 - 1, 0)
  (if range.1 = 2 ^ 64 - 1 then 0 else range.1, range.2)

def selectWorkerMinLoad (p : CacheAwarePolicy) (workers : List Worker)
    (requestText : Option (List Char)) (healthyIndices : List Nat) (treeKey : String)
    (insertEpoch : Nat) :
    Option (CacheAwarePolicy × Option Nat) :=
  match minLoadIndex workers healthyIndices with
  | none => some (p, none)
  | some idx =>
    match requestText, p.trees treeKey with
    | some text, some tree => do
      let tree ← tree.insert insertEpoch text (urlAt workers idx)
      some (p.setTree treeKey tree, some idx)
    | _, _ => some (p, some idx)

def selectWorker (p : CacheAwarePolicy) (workers : List Worker) (requestText : Option (List Char))
    (c : SelectChoices) : Option (CacheAwarePolicy × Option Nat) :=
  let healthyIndices := getHealthyWorkerIndices workers
  match healthyIndices.head?.bind fun i => workers[i]? with
  | none => some (p, none)
  | some pivot =>
    let treeKey := p.treeKeyForWorker pivot
    let (minLoad, maxLoad) := loadRange workers
    if p.imbalanced maxLoad minLoad then
      p.selectWorkerMinLoad workers requestText healthyIndices treeKey c.insertEpoch
    else
      let text := requestText.getD []
      match p.trees treeKey with
      | none => (randomSelect healthyIndices c.random).map fun idx => (p, some idx)
      | some tree => do
        let (tree, result) ← tree.prefixMatchWithCounts c.order c.matchEpoch text
        let hit := p.cacheHit result.matchedCharCount result.inputCharCount
        let selected :=
          if hit then
            -- only the health is looked at, not the circuit breaker
            (positionOf workers result.tenant).filter fun idx => workers[idx]?.any Worker.isHealthy
          else minLoadIndex workers healthyIndices
        match selected with
        | some idx => do
          let tree ← tree.insert c.insertEpoch text (urlAt workers idx)
          some (p.setTree treeKey tree, some idx)
        | none => do
          let tree ← if hit then tree.removeTenant c.order result.tenant else some tree
          some (p.setTree treeKey tree, healthyIndices.head?)

/-- What happens to the policy. -/
inductive Op where
  | addWorker (w : Worker) (epoch : Nat)
  | removeWorker (w : Worker) (order : DashOrder)
  | removeUrlFrom (key url : String) (order : DashOrder)
  | applyRemoteInsert (meshKey : String) (text : List Char) (tenant : String) (epoch : Nat)
  | applyRemoteRemove (meshKey tenant : String) (order : DashOrder)
  | evictFrom (key : String) (order : DashOrder) (tie : List EvictionEntry → Nat) (maxSize : Nat)
  | selectWorker (workers : List Worker) (requestText : Option (List Char)) (c : SelectChoices)

def step (p : CacheAwarePolicy) : Op → Option CacheAwarePolicy
  | .addWorker w epoch => p.addWorker w epoch
  | .removeWorker w order => p.removeWorker w order
  | .removeUrlFrom key url order => p.removeUrlFrom key url order
  | .applyRemoteInsert meshKey text tenant epoch => p.applyRemoteInsert meshKey text tenant epoch
  | .applyRemoteRemove meshKey tenant order => p.applyRemoteRemove meshKey tenant order
  | .evictFrom key order tie maxSize => p.evictFrom key order tie maxSize
  | .selectWorker workers requestText c => (p.selectWorker workers requestText c).map Prod.fst

end CacheAwarePolicy

end Sglang.Gateway
