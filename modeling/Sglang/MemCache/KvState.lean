import Sglang.MemCache.Allocator
import Sglang.MemCache.RadixCacheInvariant

/-!
# Requests over a Radix Cache and an Allocator

Model of `RadixCache.cache_finished_req` and `cache_unfinished_req` (`mem_cache/radix_cache.py`),
of `release_kv_cache`, `alloc_for_extend` and `alloc_for_decode` (`mem_cache/common.py`), and of the
steps of a request around them: its prefix is looked up and locked, slots are appended to its row
of `req_to_token`, its tokens are cached, and it finishes or is aborted.

## Conventions

- `Req.row` is the allocated part of the request's row of `req_to_token`.
- `fillLen` is `req.extend_range.end`, `commitLen` is `req._cache_commit_len()`.
- An allocation that fails raises in the source; the state after it keeps the allocator as the
  failed call left it.
-/

namespace Sglang.MemCache

open Lib

/-! ## Section 1: State -/

/-- The parts of a `Req` that the cache reads and writes. `tokenIds` is
`origin_input_ids + output_ids`. -/
structure Req where
  tokenIds : List Int
  extraKey : Option String
  priority : Int
  sessionId : Option String
  row : List Nat
  cacheProtectedLen : Nat
  lastNode : Nat

/-- A cache and an allocator with the same page size, and the rows of `req_to_token`. -/
structure KvConfig where
  cache : CacheConfig
  pool : PoolConfig
  page_eq : pool.pageSize = cache.pageSize
  maxReqs : Nat

/-- Cache, allocator and live requests, the latter by `req_pool_idx`. -/
structure KvState where
  cache : RadixCache
  allocator : Allocator
  reqs : Nat → Option Req

/-- The key of the first `n` tokens of a request, rounded to whole pages. -/
def Req.radixKey (cfg : KvConfig) (r : Req) (n : Nat) : RadixKey :=
  RadixKey.pageAligned
    { tokenIds := r.tokenIds.take n, extraKey := r.extraKey, isBigram := cfg.cache.isEagle }
    cfg.cache.pageSize

namespace KvState

variable (cfg : KvConfig)

def setReq (s : KvState) (i : Nat) (r : Option Req) : KvState :=
  { s with reqs := Function.update s.reqs i r }

/-! ## Section 2: Steps of a request -/

/-- A new request: `match_prefix` on its first `matchLen` tokens, then `inc_lock_ref`. -/
def newReq (now : Int) (s : KvState) (i : Nat) (tokenIds : List Int) (extraKey : Option String)
    (priority : Int) (sessionId : Option String) (matchLen : Nat) : Option KvState := do
  let (c, m) ← s.cache.matchPrefix cfg.cache now
    { tokenIds := tokenIds.take matchLen, extraKey := extraKey }
  let (c, _) ← c.incLockRef cfg.cache m.lastDeviceNode
  some ({ s with cache := c }.setReq i (some
    { tokenIds := tokenIds
      extraKey := extraKey
      priority := priority
      sessionId := sessionId
      row := m.deviceIndices
      cacheProtectedLen := m.deviceIndices.length
      lastNode := m.lastDeviceNode }))

def appendTokens (s : KvState) (i : Nat) (tokens : List Int) : Option KvState := do
  let r ← s.reqs i
  some (s.setReq i (some { r with tokenIds := r.tokenIds ++ tokens }))

def batchRows (s : KvState) : List Nat → Option (List (List Nat))
  | [] => some []
  | i :: is => do
    let r ← s.reqs i
    let rows ← s.batchRows is
    some (r.row :: rows)

/-- Append allocated indices to the rows of a batch. -/
def writeRows (s : KvState) : List Nat → List (List Nat) → KvState
  | i :: is, out :: outs =>
    writeRows (s.setReq i ((s.reqs i).map fun r => { r with row := r.row ++ out })) is outs
  | _, _ => s

/-- The arguments of a batched allocation that continues the rows by `lens` slots. -/
def extendReqs (rows : List (List Nat)) (lens : List Nat) : List Allocator.ExtendReq :=
  List.zipWith (fun row n => ⟨row.length, row.length + n, Allocator.lastLoc row⟩) rows lens

/-- Write the indices of an allocation, if there are any. -/
def settle (s : KvState) (is : List Nat) : Allocator × Option (List (List Nat)) → KvState
  | (a, none) => { s with allocator := a }
  | (a, some outs) => { s with allocator := a }.writeRows is outs

/-- `alloc_for_extend`: `lens` new slots for the requests `is`. -/
def allocForExtend (s : KvState) (is lens : List Nat) : Option KvState := do
  let rows ← s.batchRows is
  if cfg.cache.pageSize = 1 then
    let (a, out) := s.allocator.alloc cfg.pool lens.sum
    some (s.settle is (a, out.map (Allocator.sliceBy lens)))
  else some (s.settle is (s.allocator.allocExtend cfg.pool (extendReqs rows lens)))

/-- `alloc_for_decode`: one new slot for each of the requests `is`. -/
def allocForDecode (s : KvState) (is : List Nat) : Option KvState := do
  let rows ← s.batchRows is
  let lens := List.replicate is.length 1
  if cfg.cache.pageSize = 1 then
    let (a, out) := s.allocator.alloc cfg.pool lens.sum
    some (s.settle is (a, out.map (Allocator.sliceBy lens)))
  else some (s.settle is (s.allocator.allocDecode cfg.pool (extendReqs rows lens)))

def cacheUnfinishedReq (now : Int) (s : KvState) (i fillLen : Nat) (chunked : Bool) :
    Option KvState := do
  let r ← s.reqs i
  if cfg.cache.disable then some s
  else do
    let kvIndices := r.row.take (r.tokenIds.take fillLen).length
    let radixKey := r.radixKey cfg fillLen
    let values := kvIndices.take radixKey.len
    let (c, res) ← s.cache.insert cfg.cache now radixKey values r.priority chunked
    let res ← res
    -- the pages that another request has stored meanwhile
    let a := s.allocator.free cfg.pool (pySlice kvIndices r.cacheProtectedLen res.prefixLen)
    let (c, m) ← c.matchPrefix cfg.cache now radixKey
    if m.deviceIndices.length = radixKey.len then do
      let row := r.row.take r.cacheProtectedLen ++ m.deviceIndices.drop r.cacheProtectedLen ++
        r.row.drop m.deviceIndices.length
      let (c, _) ← c.decLockRef cfg.cache r.lastNode
      let (c, _) ← c.incLockRef cfg.cache m.lastDeviceNode
      let c ← c.tagSessionLeaf cfg.cache now r.sessionId radixKey (some m.lastDeviceNode)
      some ({ s with cache := c, allocator := a }.setReq i (some
        { r with row := row
                 cacheProtectedLen := m.deviceIndices.length
                 lastNode := m.lastDeviceNode }))
    else none

def cacheFinishedReq (now : Int) (s : KvState) (r : Req) (commitLen : Nat) (isInsert : Bool) :
    Option KvState := do
  let isInsert := isInsert && !cfg.cache.disableFinishedInsert
  if cfg.cache.disable then
    some { s with allocator := s.allocator.free cfg.pool (r.row.take commitLen) }
  else do
    let kvIndices := r.row.take (r.tokenIds.take commitLen).length
    let radixKey := r.radixKey cfg commitLen
    let keyLen := radixKey.len
    let values := kvIndices.take keyLen
    let (c, a, sessionLeaf) ←
      if isInsert then do
        let (c, res) ← s.cache.insert cfg.cache now radixKey values r.priority false
        let res ← res
        -- the duplicates that were already in the tree
        some (c, s.allocator.free cfg.pool (pySlice kvIndices r.cacheProtectedLen res.prefixLen),
          res.lastDeviceNode)
      else
        some (s.cache,
          s.allocator.free cfg.pool (pySlice kvIndices r.cacheProtectedLen keyLen), none)
    -- the unaligned tail
    let a := a.free cfg.pool (kvIndices.drop keyLen)
    let c ← c.tagSessionLeaf cfg.cache now r.sessionId radixKey sessionLeaf
    let (c, _) ← c.decLockRef cfg.cache r.lastNode
    some { s with cache := c, allocator := a }

/-- `release_kv_cache`: `cache_finished_req`, then the over-allocated rest of the row. -/
def releaseKvCache (now : Int) (s : KvState) (i commitLen : Nat) (isInsert : Bool) :
    Option KvState := do
  let r ← s.reqs i
  let s ← s.cacheFinishedReq cfg now r commitLen isInsert
  let startP :=
    if cfg.cache.pageSize > 1 then pageCeil cfg.cache.pageSize commitLen else commitLen
  let a :=
    if startP < r.row.length then s.allocator.free cfg.pool (r.row.drop startP) else s.allocator
  some ({ s with allocator := a }.setReq i none)

/-- A request that holds nothing but its lock is aborted: `dec_lock_ref`. -/
def abortReq (s : KvState) (i : Nat) : Option KvState := do
  let r ← s.reqs i
  let (c, _) ← s.cache.decLockRef cfg.cache r.lastNode
  some ({ s with cache := c }.setReq i none)

/-- `evict`, with the freed values given to the allocator one by one. -/
def evict (order : RadixCache.EvictionOrder) (s : KvState) (numTokens : Nat) : Option KvState := do
  let (c, res) ← s.cache.evict cfg.cache order numTokens
  let res ← res
  some { s with cache := c, allocator := s.allocator.freeAll cfg.pool res.freed }

/-- `release_radix_session`, with the freed values given to the allocator one by one. -/
def releaseRadixSession (iter : List Nat → List Nat) (s : KvState) (sid : String) :
    Option KvState := do
  let (c, freed) ← s.cache.releaseRadixSession cfg.cache iter sid
  some { s with cache := c, allocator := s.allocator.freeAll cfg.pool freed }

/-- Cache and allocator right after their construction, no requests. -/
def init (now : Int) : KvState where
  cache := RadixCache.init cfg.cache now
  allocator := Allocator.clear cfg.pool
  reqs := fun _ => none

end KvState

/-! ## Section 3: Runs -/

/-- The steps of the system. -/
inductive KvOp where
  | newReq (now : Int) (i : Nat) (tokenIds : List Int) (extraKey : Option String) (priority : Int)
      (sessionId : Option String) (matchLen : Nat)
  | appendTokens (i : Nat) (tokens : List Int)
  | allocForExtend (is lens : List Nat)
  | allocForDecode (is : List Nat)
  | cacheUnfinishedReq (now : Int) (i fillLen : Nat) (chunked : Bool)
  | releaseKvCache (now : Int) (i commitLen : Nat) (isInsert : Bool)
  | abortReq (i : Nat)
  | evict (order : RadixCache.EvictionOrder) (numTokens : Nat)
  | releaseRadixSession (iter : List Nat → List Nat) (sid : String)
  | freeGroupBegin
  | freeGroupEnd

namespace KvState

/-- One step; `none` if it raises. -/
def step (cfg : KvConfig) (s : KvState) : KvOp → Option KvState
  | .newReq now i tokenIds extraKey priority sessionId matchLen =>
    s.newReq cfg now i tokenIds extraKey priority sessionId matchLen
  | .appendTokens i tokens => s.appendTokens i tokens
  | .allocForExtend is lens => s.allocForExtend cfg is lens
  | .allocForDecode is => s.allocForDecode cfg is
  | .cacheUnfinishedReq now i fillLen chunked => s.cacheUnfinishedReq cfg now i fillLen chunked
  | .releaseKvCache now i commitLen isInsert => s.releaseKvCache cfg now i commitLen isInsert
  | .abortReq i => s.abortReq cfg i
  | .evict order numTokens => s.evict cfg order numTokens
  | .releaseRadixSession iter sid => s.releaseRadixSession cfg iter sid
  | .freeGroupBegin => some { s with allocator := s.allocator.freeGroupBegin }
  | .freeGroupEnd => some { s with allocator := s.allocator.freeGroupEnd cfg.pool }

def exec (cfg : KvConfig) : KvState → List KvOp → Option KvState
  | s, [] => some s
  | s, op :: ops =>
    match s.step cfg op with
    | none => none
    | some s' => s'.exec cfg ops

/-- A live request that satisfies `P`. -/
def LiveReq (s : KvState) (i : Nat) (P : Req → Prop) : Prop :=
  match s.reqs i with
  | none => False
  | some r => P r

instance (s : KvState) (i : Nat) (P : Req → Prop) [DecidablePred P] :
    Decidable (s.LiveReq i P) := by
  unfold LiveReq
  split <;> infer_instance

/-- What the scheduler owes. A new request takes a free row. The requests of a batch are live and
distinct. What is cached has slots, and reaches at least as far as what is cached already. Only a
request without slots of its own is aborted. Free groups are not nested. -/
def Valid (cfg : KvConfig) (s : KvState) : KvOp → Prop
  | .newReq _ i _ _ _ _ _ => i < cfg.maxReqs ∧ (s.reqs i).isNone
  | .appendTokens i _ => s.LiveReq i fun _ => True
  | .allocForExtend is lens =>
    is.length = lens.length ∧ is.Nodup ∧ ∀ i ∈ is, s.LiveReq i fun _ => True
  | .allocForDecode is => is.Nodup ∧ ∀ i ∈ is, s.LiveReq i fun _ => True
  | .cacheUnfinishedReq _ i fillLen _ => s.LiveReq i fun r =>
      fillLen ≤ r.tokenIds.length ∧ fillLen ≤ r.row.length ∧
        r.cacheProtectedLen ≤ (r.radixKey cfg fillLen).len
  | .releaseKvCache _ i commitLen _ => s.LiveReq i fun r =>
      commitLen ≤ r.tokenIds.length ∧ commitLen ≤ r.row.length ∧
        r.cacheProtectedLen ≤ (r.radixKey cfg commitLen).len
  | .abortReq i => s.LiveReq i fun r => r.row.length = r.cacheProtectedLen
  | .evict _ _ => True
  | .releaseRadixSession _ _ => True
  | .freeGroupBegin => s.allocator.inFreeGroup = false
  | .freeGroupEnd => s.allocator.inFreeGroup = true

instance (cfg : KvConfig) (s : KvState) (op : KvOp) : Decidable (s.Valid cfg op) := by
  cases op <;> unfold Valid <;> infer_instance

/-- Every step is valid in the state in which it is executed. -/
def ValidOps (cfg : KvConfig) : KvState → List KvOp → Prop
  | _, [] => True
  | s, op :: ops =>
    s.Valid cfg op ∧
      match s.step cfg op with
      | none => True
      | some s' => s'.ValidOps cfg ops

instance decidableValidOps (cfg : KvConfig) :
    ∀ (s : KvState) (ops : List KvOp), Decidable (s.ValidOps cfg ops)
  | _, [] => isTrue trivial
  | s, op :: ops =>
    match h : s.step cfg op with
    | none => decidable_of_iff (s.Valid cfg op) (by simp [ValidOps, h])
    | some s' =>
      have := decidableValidOps cfg s' ops
      decidable_of_iff (s.Valid cfg op ∧ s'.ValidOps cfg ops) (by simp [ValidOps, h])

end KvState

end Sglang.MemCache
