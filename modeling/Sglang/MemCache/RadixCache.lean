import Sglang.MemCache.TreeLinks

/-!
# The Radix Cache

Model of `RadixCache` (`mem_cache/radix_cache.py`) with its two mixins, the KV placement events
(`mem_cache/events.py`) and the session tags (`mem_cache/session_radix_cache.py`).

## Conventions

- Nodes live in a heap indexed by `TreeNode.id`; `counter` is the class variable
  `TreeNode.counter`. A node removed from the tree leaves the heap.
- Operations return `Option`: `none` is a raised exception (a failed assertion, a missing
  attribute, incompatible keys) or an exhausted loop. That neither happens in a reachable
  state is a theorem, not an assumption.
- Calls to `token_to_kv_pool_allocator.free` are returned as the list of freed tensors, in call
  order; the allocator itself is modelled separately.
- `now` is the reading of `time.monotonic()` in the call.
- Python sets are duplicate-free lists. Where the source iterates over a set, the iteration
  order is a parameter.
-/

namespace Sglang.MemCache

open Function
open Lib

/-! ## Section 1: State -/

/-- The part of a `TreeNode` that the accounting reads. -/
structure NodeCore extends TreeLinks where
  lockRef : Int := 0

/-- `TreeNode`. `session_ids` is absent in the source exactly when it is empty here. The `value`
of a linked node is never `None` in this class, so `evicted` is always false. -/
structure TreeNode extends NodeCore where
  lastAccessTime : Int
  creationTime : Int
  hitCount : Nat := 0
  hashValue : Option (List String) := none
  priority : Int := 0
  sessionIds : List String := []

/-- The events a subscriber sees. -/
inductive KvEvent where
  | blockStored (blockHash : Int) (parentBlockHash : Option Int) (tokenIds : List KeyUnit)
      (blockSize : Nat)
  | blockRemoved (blockHashes : List Int)
  | allBlocksCleared
deriving DecidableEq, Repr

/-- Constructor parameters, and SHA-256 over the previous digest and the page's 32-bit words. -/
structure CacheConfig where
  pageSize : Nat
  pageSize_pos : 0 < pageSize
  disable : Bool := false
  isEagle : Bool := false
  disableFinishedInsert : Bool := false
  enableKvCacheEvents : Bool := false
  enableSessionRadixCache : Bool := false
  sha256 : Option String → List Nat → String := fun _ _ => ""

/-- The mutable state of a `RadixCache`. -/
structure RadixCache where
  nodes : Nat → Option TreeNode
  counter : Nat
  rootNode : Nat
  evictableSize : Int
  protectedSize : Int
  evictableLeaves : List Nat
  sessionLeaves : AList (fun _ : String => List Nat)
  closedSessionIds : List String
  kvEventQueue : List KvEvent

def closedSessionTombstoneLimit : Nat := 8192

/-! ## Section 2: Page hashes and events -/

/-- `checked_u32`: `none` is the `out_of_range` exception. -/
def checkedU32 (t : Int) : Option Nat := if 0 ≤ t ∧ t < 2 ^ 32 then some t.toNat else none

/-- The words a unit contributes to its page: a token, or both tokens of a bigram. -/
def unitWords : KeyUnit → Option (List Nat)
  | .token t => (checkedU32 t).map ([·])
  | .bigram a b => do
    let x ← checkedU32 a
    let y ← checkedU32 b
    some [x, y]

def pageWords : List KeyUnit → Option (List Nat)
  | [] => some []
  | u :: us => do
    let w ← unitWords u
    let ws ← pageWords us
    some (w ++ ws)

/-- Number of pages an event loop visits. -/
def numPages (pageSize len : Nat) : Nat := (len + pageSize - 1) / pageSize

/-- `hash_pages_to_hex_blob`: each page is hashed after the digest of the page before it. -/
def hashPages (cfg : CacheConfig) : Nat → List KeyUnit → Option String → Option (List String)
  | 0, _, _ => some []
  | n + 1, us, prior => do
    let words ← pageWords (us.take cfg.pageSize)
    let digest := cfg.sha256 prior words
    let rest ← hashPages cfg n (us.drop cfg.pageSize) (some digest)
    some (digest :: rest)

/-- `get_hash_str` with a page size. -/
def getHashStr (cfg : CacheConfig) (key : RadixKey) (prior : Option String) :
    Option (List String) :=
  hashPages cfg (numPages cfg.pageSize key.len) key.units prior

/-- `int(hash_str[:16], 16)` on lower-case hexadecimal digits. -/
def hexValue (cs : List Char) : Nat :=
  cs.foldl (fun acc c => acc * 16 +
    (if c.isDigit then c.toNat - '0'.toNat else c.toNat - 'a'.toNat + 10)) 0

def hashStrToInt64 (hash : String) : Int :=
  let v : Nat := hexValue (hash.toList.take 16)
  if v ≥ 2 ^ 63 then (v : Int) - 2 ^ 64 else v

def splitNodeHashValue (childHash : Option (List String)) (splitLen pageSize : Nat) :
    Option (List String) × Option (List String) :=
  match childHash with
  | none => (none, none)
  | some hs =>
    let splitPages := if pageSize = 1 then splitLen else splitLen / pageSize
    (some (hs.take splitPages), some (hs.drop splitPages))

namespace RadixCache

def setNode (s : RadixCache) (i : Nat) (nd : TreeNode) : RadixCache :=
  { s with nodes := update s.nodes i (some nd) }

def dropNode (s : RadixCache) (i : Nat) : RadixCache :=
  { s with nodes := update s.nodes i none }

def modifyNode (s : RadixCache) (i : Nat) (f : TreeNode → TreeNode) : RadixCache :=
  { s with nodes := update s.nodes i ((s.nodes i).map f) }

/-- The last hash of the parent, as `compute_node_hash_values` chains it. -/
def parentHash (s : RadixCache) (nd : TreeNode) : Option String := do
  let p ← nd.parent
  let pn ← s.nodes p
  let hs ← pn.hashValue
  if 0 < pn.key.len ∧ 0 < hs.length then hs.getLast? else none

def computeNodeHashValues (cfg : CacheConfig) (s : RadixCache) (nd : TreeNode) :
    Option (List String) :=
  getHashStr cfg nd.key (s.parentHash nd)

/-- `parent_block_hash` of the first page of a node. -/
def parentBlockHash (s : RadixCache) (nd : TreeNode) : Option Int := do
  let p ← nd.parent
  if p = s.rootNode then none
  else
    let pn ← s.nodes p
    let hs ← pn.hashValue
    (hs.getLast?).map hashStrToInt64

/-- The `BlockStored` events of a node, one a page; `units` are the pages still to visit. -/
def storeEvents (pageSize : Nat) : List String → List KeyUnit → Option Int → List KvEvent
  | [], _, _ => []
  | h :: hs, units, parent =>
    let page := units.take pageSize
    .blockStored (hashStrToInt64 h) parent page page.length ::
      storeEvents pageSize hs (units.drop pageSize) (some (hashStrToInt64 h))

/-- `_record_store_event`. The flag is false when hashing raised. -/
def recordStoreEvent (cfg : CacheConfig) (s : RadixCache) (node : Nat) : RadixCache × Bool :=
  if cfg.enableKvCacheEvents then
    match s.nodes node with
    | none => (s, false)
    | some nd =>
      match nd.hashValue.or (s.computeNodeHashValues cfg nd) with
      | none => (s, false)
      | some hs =>
        let s := s.setNode node { nd with hashValue := some hs }
        let events := storeEvents cfg.pageSize (hs.take (numPages cfg.pageSize nd.key.len))
          nd.key.units (s.parentBlockHash nd)
        ({ s with kvEventQueue := s.kvEventQueue ++ events }, true)
  else (s, true)

/-- `_record_remove_event` for a node that has just been unlinked. -/
def recordRemoveEvent (cfg : CacheConfig) (s : RadixCache) (nd : TreeNode) : RadixCache × Bool :=
  if cfg.enableKvCacheEvents then
    match nd.hashValue.or (s.computeNodeHashValues cfg nd) with
    | none => (s, false)
    | some hs =>
      let blockHashes := (hs.take (numPages cfg.pageSize nd.key.len)).map hashStrToInt64
      if blockHashes = [] then (s, true)
      else ({ s with kvEventQueue := s.kvEventQueue ++ [.blockRemoved blockHashes] }, true)
  else (s, true)

def takeEvents (cfg : CacheConfig) (s : RadixCache) : RadixCache × List KvEvent :=
  if cfg.enableKvCacheEvents then ({ s with kvEventQueue := [] }, s.kvEventQueue) else (s, [])

/-! ## Section 3: Leaf set and sessions -/

def updateLeafStatus (s : RadixCache) (node : Nat) : RadixCache :=
  match s.nodes node with
  | none => s
  | some nd =>
    if nd.lockRef > 0 then { s with evictableLeaves := s.evictableLeaves.erase node }
    else if nd.children.entries ≠ [] then
      { s with evictableLeaves := s.evictableLeaves.erase node }
    else if node ∈ s.evictableLeaves then s
    else { s with evictableLeaves := node :: s.evictableLeaves }

/-- `_discard_session_leaf`, on the session index; the node's own tags go with the node. -/
def discardSessionLeaf (s : RadixCache) (node : Nat) (sessionIds : List String) : RadixCache :=
  { s with sessionLeaves := sessionIds.foldl (fun idx sid =>
      match idx.lookup sid with
      | none => idx
      | some leaves =>
        let leaves := leaves.erase node
        if leaves = [] ∧ sid ∉ s.closedSessionIds then idx.erase sid
        else idx.insert sid leaves) s.sessionLeaves }

/-- `_delete_leaf`: unlink a node and settle the accounting. -/
def deleteLeaf (cfg : CacheConfig) (s : RadixCache) (node : Nat) : Option RadixCache := do
  let nd ← s.nodes node
  let p ← nd.parent
  let pn ← s.nodes p
  let k := nd.key.childKey cfg.pageSize
  -- `v = node.parent.children.pop(key, None); assert v == node`
  if pn.children.lookup k = some node then
    let s := (s.setNode p { pn with children := pn.children.erase k }).dropNode node
    let s := s.discardSessionLeaf node nd.sessionIds
    let s := { s with evictableSize := s.evictableSize - nd.key.len,
                      evictableLeaves := s.evictableLeaves.erase node }
    some (s.updateLeafStatus p)
  else none

/-! ## Section 4: Locks -/

/-- The loops of `inc_lock_ref` and `dec_lock_ref`: visit the nodes from `node` up to, and
without, the root. -/
def climbLocks (visit : RadixCache × Int → Nat → TreeNode → RadixCache × Int) :
    Nat → RadixCache × Int → Nat → Option (RadixCache × Int)
  | 0, _, _ => none
  | fuel + 1, (s, delta), node =>
    if node = s.rootNode then some (s, delta)
    else do
      let nd ← s.nodes node
      let p ← nd.parent
      climbLocks visit fuel (visit (s, delta) node nd) p

/-- Body of the loop of `inc_lock_ref`. -/
def incLockNode : RadixCache × Int → Nat → TreeNode → RadixCache × Int
  | (s, delta), node, nd =>
    let (s, delta) :=
      if nd.lockRef = 0 then
        ({ s with evictableSize := s.evictableSize - nd.key.len,
                  protectedSize := s.protectedSize + nd.key.len }, delta - nd.key.len)
      else (s, delta)
    ((s.setNode node { nd with lockRef := nd.lockRef + 1 }).updateLeafStatus node, delta)

/-- Body of the loop of `dec_lock_ref`. -/
def decLockNode : RadixCache × Int → Nat → TreeNode → RadixCache × Int
  | (s, delta), node, nd =>
    let (s, delta) :=
      if nd.lockRef = 1 then
        ({ s with evictableSize := s.evictableSize + nd.key.len,
                  protectedSize := s.protectedSize - nd.key.len }, delta + nd.key.len)
      else (s, delta)
    ((s.setNode node { nd with lockRef := nd.lockRef - 1 }).updateLeafStatus node, delta)

/-- `inc_lock_ref`, with the returned delta. -/
def incLockRef (cfg : CacheConfig) (s : RadixCache) (node : Nat) : Option (RadixCache × Int) :=
  if cfg.disable then some (s, 0) else climbLocks incLockNode (s.counter + 1) (s, 0) node

/-- `dec_lock_ref`, with the returned delta. -/
def decLockRef (cfg : CacheConfig) (s : RadixCache) (node : Nat) : Option (RadixCache × Int) :=
  if cfg.disable then some (s, 0) else climbLocks decLockNode (s.counter + 1) (s, 0) node

/-! ## Section 5: Matching -/

/-- `_split_node`: a new node takes the first `splitLen` units of `child`. -/
def splitNode (cfg : CacheConfig) (now : Int) (s : RadixCache) (key : RadixKey) (child : Nat)
    (splitLen : Nat) : Option (RadixCache × Nat) := do
  let c ← s.nodes child
  let p ← c.parent
  let pn ← s.nodes p
  let newNode := s.counter
  let hashes := splitNodeHashValue c.hashValue splitLen cfg.pageSize
  let front : TreeNode :=
    { parent := some p
      children := AList.singleton ((key.dropUnits splitLen).childKey cfg.pageSize) child
      key := c.key.takeUnits splitLen
      value := c.value.take splitLen
      lockRef := c.lockRef
      lastAccessTime := now
      creationTime := now
      hitCount := c.hitCount
      hashValue := hashes.1
      priority := c.priority }
  let back : TreeNode :=
    { c with parent := some newNode
             key := c.key.dropUnits splitLen
             value := c.value.drop splitLen
             hashValue := hashes.2 }
  some ({ s with
    counter := s.counter + 1
    nodes := update (update (update s.nodes newNode (some front))
      child (some back)) p
      (some { pn with children := pn.children.insert (key.childKey cfg.pageSize) newNode }) },
    newNode)

/-- `node.last_access_time = access_time`. -/
def accessNode (now : Int) (n : TreeNode) : TreeNode := { n with lastAccessTime := now }

structure MatchResult where
  deviceIndices : List Nat
  lastDeviceNode : Nat

/-- Loop of `_match_prefix_helper`. -/
def matchLoop (cfg : CacheConfig) (now : Int) :
    Nat → RadixCache → Nat → RadixKey → List Nat → Option (RadixCache × List Nat × Nat)
  | 0, _, _, _, _ => none
  | fuel + 1, s, node, key, value =>
    if 0 < key.len then do
      let nd ← s.nodes node
      match nd.children.lookup (key.childKey cfg.pageSize) with
      | none => some (s, value, node)
      | some child => do
        let s := s.modifyNode child (accessNode now)
        let c ← s.nodes child
        let prefixLen ← c.key.match key cfg.pageSize
        if prefixLen < c.key.len then do
          let (s, newNode) ← s.splitNode cfg now c.key child prefixLen
          let nn ← s.nodes newNode
          some (s, value ++ nn.value, newNode)
        else
          matchLoop cfg now fuel s child (key.dropUnits prefixLen) (value ++ c.value)
    else some (s, value, node)

/-- `_match_prefix_helper` from the root. -/
def matchPrefixHelper (cfg : CacheConfig) (now : Int) (s : RadixCache) (key : RadixKey) :
    Option (RadixCache × List Nat × Nat) :=
  matchLoop cfg now (key.len + 1)
    (s.modifyNode s.rootNode (accessNode now)) s.rootNode key []

def matchPrefix (cfg : CacheConfig) (now : Int) (s : RadixCache) (key : RadixKey) :
    Option (RadixCache × MatchResult) :=
  let key := key.maybeToBigramView cfg.isEagle
  if cfg.disable ∨ key.len = 0 then some (s, ⟨[], s.rootNode⟩)
  else
    let key := key.pageAligned cfg.pageSize
    if key.len = 0 then some (s, ⟨[], s.rootNode⟩)
    else do
      let (s, value, last) ← s.matchPrefixHelper cfg now key
      some (s, ⟨value, last⟩)

/-! ## Section 6: Insertion -/

def incHitCount (chunked : Bool) (n : TreeNode) : TreeNode :=
  if chunked then n else { n with hitCount := n.hitCount + 1 }

/-- Raise the priority of a visited node and count the hit. -/
def visitNode (priority : Int) (chunked : Bool) (n : TreeNode) : TreeNode :=
  incHitCount chunked { n with priority := max n.priority priority }

/-- Loop of `_insert_helper`: the node reached, the rest of key and value, and the length
matched. -/
def insertLoop (cfg : CacheConfig) (now : Int) (priority : Int) (chunked : Bool) :
    Nat → RadixCache → Nat → RadixKey → List Nat → Nat →
      Option (RadixCache × Nat × RadixKey × List Nat × Nat)
  | 0, _, _, _, _, _ => none
  | fuel + 1, s, node, key, value, total =>
    if 0 < key.len then do
      let nd ← s.nodes node
      match nd.children.lookup (key.childKey cfg.pageSize) with
      | none => some (s, node, key, value, total)
      | some child => do
        let s := s.modifyNode child (accessNode now)
        let c ← s.nodes child
        let prefixLen ← c.key.match key cfg.pageSize
        let key := key.dropUnits prefixLen
        let value := value.drop prefixLen
        let total := total + prefixLen
        if prefixLen < c.key.len then do
          let (s, newNode) ← s.splitNode cfg now c.key child prefixLen
          insertLoop cfg now priority chunked fuel
            (s.modifyNode newNode (visitNode priority chunked)) newNode key value total
        else
          insertLoop cfg now priority chunked fuel
            (s.modifyNode child (visitNode priority chunked)) child key value total
    else some (s, node, key, value, total)

/-- The `if len(key):` block of `_insert_helper`, up to the event: hang a new leaf under
`node`. -/
def addNode (cfg : CacheConfig) (now : Int) (priority : Int) (chunked : Bool) (s : RadixCache)
    (node : Nat) (key : RadixKey) (value : List Nat) : Option (RadixCache × Nat) := do
  let nd ← s.nodes node
  let newNode := s.counter
  let leaf : TreeNode := incHitCount chunked
    { parent := some node
      children := ∅
      key := key
      value := value
      lastAccessTime := now
      creationTime := now
      priority := priority }
  let s := { s with
    counter := s.counter + 1
    nodes := update (update s.nodes newNode (some leaf)) node
      (some { nd with children := nd.children.insert (key.childKey cfg.pageSize) newNode })
    evictableSize := s.evictableSize + key.len }
  some ((s.updateLeafStatus node).updateLeafStatus newNode, newNode)

structure InsertResult where
  prefixLen : Nat
  lastDeviceNode : Option Nat

/-- `_insert_helper` from the root. The inner `none` is an exception raised by the event hash,
after the tree has been updated. -/
def insertHelper (cfg : CacheConfig) (now : Int) (s : RadixCache) (key : RadixKey)
    (value : List Nat) (priority : Int) (chunked : Bool) :
    Option (RadixCache × Option InsertResult) := do
  let s := s.modifyNode s.rootNode fun n =>
    { accessNode now n with priority := max n.priority priority }
  if key.len = 0 then some (s, some ⟨0, some s.rootNode⟩)
  else do
    let (s, node, key, value, total) ←
      insertLoop cfg now priority chunked (key.len + 1) s s.rootNode key value 0
    if 0 < key.len then do
      let (s, newNode) ← s.addNode cfg now priority chunked node key value
      let (s, ok) := s.recordStoreEvent cfg newNode
      some (s, if ok then some ⟨total, some newNode⟩ else none)
    else some (s, some ⟨total, some node⟩)

/-- `insert` with a value tensor. -/
def insert (cfg : CacheConfig) (now : Int) (s : RadixCache) (key : RadixKey) (value : List Nat)
    (priority : Int := 0) (chunked : Bool := false) : Option (RadixCache × Option InsertResult) :=
  if cfg.disable then some (s, some ⟨0, none⟩)
  else
    let value := key.bigramValue cfg.isEagle value
    let key := (key.maybeToBigramView cfg.isEagle).pageAligned cfg.pageSize
    s.insertHelper cfg now key (value.take key.len) priority chunked

/-! ## Section 7: Eviction and sessions -/

/-- Which entry of the heap `heapq.heappop` takes: its index, modulo the length of the heap. -/
abbrev EvictionOrder := RadixCache → List Nat → Nat

/-- `EvictResult`, with the freed tensors. -/
structure EvictResult where
  numTokensEvicted : Nat
  freed : List (List Nat)

/-- Loop of `evict`. -/
def evictLoop (cfg : CacheConfig) (order : EvictionOrder) (numTokens : Nat) :
    Nat → RadixCache → List Nat → EvictResult → Option (RadixCache × Option EvictResult)
  | 0, _, _, _ => none
  | fuel + 1, s, heap, acc =>
    if acc.numTokensEvicted < numTokens ∧ heap ≠ [] then do
      let i := order s heap % heap.length
      let x ← heap[i]?
      let heap := heap.eraseIdx i
      let xn ← s.nodes x
      let acc : EvictResult :=
        ⟨acc.numTokensEvicted + xn.value.length, acc.freed ++ [xn.value]⟩
      let s ← s.deleteLeaf cfg x
      let p ← xn.parent
      let pn ← s.nodes p
      let heap := if pn.children.entries = [] ∧ pn.lockRef = 0 then p :: heap else heap
      match s.recordRemoveEvent cfg xn with
      | (s, true) => evictLoop cfg order numTokens fuel s heap acc
      | (s, false) => some (s, none)
    else some (s, some acc)

/-- `evict`. Every iteration removes a node, so the loop runs at most `counter` times. -/
def evict (cfg : CacheConfig) (order : EvictionOrder) (s : RadixCache) (numTokens : Nat) :
    Option (RadixCache × Option EvictResult) :=
  if cfg.disable then some (s, some ⟨0, []⟩)
  else evictLoop cfg order numTokens (s.counter + 1) s s.evictableLeaves ⟨0, []⟩

/-- Add a session to the holders of a node and index the node under the session. -/
def tagNode (s : RadixCache) (sid : String) (node : Nat) : RadixCache :=
  if node = s.rootNode then s
  else
    let leaves := (s.sessionLeaves.lookup sid).getD []
    let s := { s with sessionLeaves :=
      s.sessionLeaves.insert sid (if node ∈ leaves then leaves else node :: leaves) }
    s.modifyNode node fun n => { n with
      sessionIds := if sid ∈ n.sessionIds then n.sessionIds else sid :: n.sessionIds }

/-- `_tag_session_leaf`, for a request with session `sid`. -/
def tagSessionLeaf (cfg : CacheConfig) (now : Int) (s : RadixCache) (sid : Option String)
    (radixKey : RadixKey) (node : Option Nat) : Option RadixCache :=
  match cfg.enableSessionRadixCache, sid with
  | true, some sid =>
    if sid ∈ s.closedSessionIds then some s
    else
      match node with
      | some node => some (s.tagNode sid node)
      | none => do
        let (s, r) ← s.matchPrefix cfg now radixKey
        some (s.tagNode sid r.lastDeviceNode)
  | _, _ => some s

/-- `_remember_closed_session`: move to the end, then drop the oldest beyond the limit. -/
def rememberClosedSession (s : RadixCache) (sid : String) : RadixCache :=
  let closed := s.closedSessionIds.erase sid ++ [sid]
  { s with closedSessionIds := closed.drop (closed.length - closedSessionTombstoneLimit) }

/-- `session_ids.discard(session_id)`. -/
def untagNode (sid : String) (n : TreeNode) : TreeNode :=
  { n with sessionIds := n.sessionIds.filter (· ≠ sid) }

/-- The `while True` loop of `release_radix_session`, from one tagged leaf upwards. -/
def releaseLoop (cfg : CacheConfig) (sid : String) :
    Nat → RadixCache → Nat → List (List Nat) → Option (RadixCache × List (List Nat))
  | 0, _, _, _ => none
  | fuel + 1, s, node, freed => do
    let s := s.modifyNode node (untagNode sid)
    let nd ← s.nodes node
    if node = s.rootNode ∨ nd.lockRef ≠ 0 ∨ nd.children.entries ≠ [] ∨
        node ∉ s.evictableLeaves ∨ nd.sessionIds ≠ [] then some (s, freed)
    else do
      let p ← nd.parent
      let s ← s.deleteLeaf cfg node
      releaseLoop cfg sid fuel s p (freed ++ [nd.value])

/-- The loop over the tagged leaves of a session. -/
def releaseLeaves (cfg : CacheConfig) (sid : String) :
    List Nat → RadixCache → List (List Nat) → Option (RadixCache × List (List Nat))
  | [], s, freed => some (s, freed)
  | leaf :: leaves, s, freed =>
    match s.nodes leaf with
    | none => releaseLeaves cfg sid leaves s freed
    | some nd =>
      if sid ∉ nd.sessionIds then releaseLeaves cfg sid leaves s freed
      else do
        let (s, freed) ← releaseLoop cfg sid (s.counter + 1) s leaf freed
        releaseLeaves cfg sid leaves s freed

/-- `release_radix_session`. `iter` is the order in which Python iterates over the set of
tagged leaves. The returned tensors are those freed. -/
def releaseRadixSession (cfg : CacheConfig) (iter : List Nat → List Nat) (s : RadixCache)
    (sid : String) : Option (RadixCache × List (List Nat)) :=
  let s := s.rememberClosedSession sid
  let indexed := (s.sessionLeaves.lookup sid).getD []
  releaseLeaves cfg sid (iter indexed) { s with sessionLeaves := s.sessionLeaves.erase sid } []

/-! ## Section 8: Reset -/

/-- The root node of `reset`. -/
def newRoot (now : Int) : TreeNode where
  parent := none
  children := ∅
  key := { tokenIds := [] }
  value := []
  lockRef := 1
  lastAccessTime := now
  creationTime := now
  hashValue := some []
  priority := -(2 ^ 63 - 1)

def reset (cfg : CacheConfig) (now : Int) (s : RadixCache) : RadixCache :=
  { nodes := update (fun _ => none) s.counter (some (newRoot now))
    counter := s.counter + 1
    rootNode := s.counter
    evictableSize := 0
    protectedSize := 0
    evictableLeaves := []
    sessionLeaves := ∅
    closedSessionIds := []
    kvEventQueue :=
      s.kvEventQueue ++ (if cfg.enableKvCacheEvents then [.allBlocksCleared] else []) }

/-- `__init__`: nothing but a `reset`. -/
def init (cfg : CacheConfig) (now : Int) : RadixCache :=
  reset cfg now
    { nodes := fun _ => none, counter := 0, rootNode := 0, evictableSize := 0, protectedSize := 0
      evictableLeaves := [], sessionLeaves := ∅, closedSessionIds := [], kvEventQueue := [] }

end RadixCache

/-! ## Section 9: Eviction strategies -/

/-- The strategies of `mem_cache/evict_policy.py`. -/
inductive EvictionStrategy where
  | lru | lfu | fifo | mru | filo | priority
  | slru (protectedThreshold : Nat)
deriving DecidableEq, Repr

/-- `get_priority`; a bare time is a tuple with a constant first component. -/
def EvictionStrategy.getPriority : EvictionStrategy → TreeNode → Int × Int
  | .lru, n => (0, n.lastAccessTime)
  | .lfu, n => (n.hitCount, n.lastAccessTime)
  | .fifo, n => (0, n.creationTime)
  | .mru, n => (0, -n.lastAccessTime)
  | .filo, n => (0, -n.creationTime)
  | .priority, n => (n.priority, n.lastAccessTime)
  | .slru threshold, n => (if n.hitCount ≥ threshold then 1 else 0, n.lastAccessTime)

/-- Python's comparison of heap entries: the strategy's tuple, then `TreeNode.__lt__`. -/
def EvictionStrategy.before (st : EvictionStrategy) (a b : TreeNode) : Bool :=
  let (x, y) := st.getPriority a
  let (x', y') := st.getPriority b
  decide (x < x' ∨ (x = x' ∧ (y < y' ∨ (y = y' ∧ a.lastAccessTime < b.lastAccessTime))))

/-- The index of a least entry of the heap. -/
def EvictionStrategy.order (st : EvictionStrategy) : RadixCache.EvictionOrder := fun s heap =>
  (List.range heap.length).foldl (fun best i =>
    match heap[i]?.bind s.nodes, heap[best]?.bind s.nodes with
    | some a, some b => if st.before a b then i else best
    | _, _ => best) 0

end Sglang.MemCache
