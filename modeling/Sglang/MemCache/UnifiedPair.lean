import Sglang.MemCache.MultiEndedCalls

/-!
# Two Ends over One Buffer

Model of the pairs of `MultiEndedAllocator`s (`mem_cache/multi_ended_allocator.py`) over a
`UnifiedKVPool` (`mem_cache/unified_memory_pool.py`): `UnifiedSWATokenToKVPoolAllocator`, where the
second end binds the virtual pages of the first, and `UnifiedMambaTokenToKVPoolAllocator`, where
each end has virtual pages of its own.

## Conventions

- `full` is the full-attention end. `other` is the sliding-window end or the Mamba end.
- A call that raises leaves the state it had reached; its outcome is the outer `none` of `Outcome`.
  Only an assertion inside `free` or `_flush` of an end has no state of its own (the outer `none` of
  the call).
- The base class keeps `release_pages` at `None` in the ends, and no tensor is ever merged.
-/

namespace Sglang.MemCache

open MultiEndedAllocator

/-! ## Section 1: The buffer -/

def GrowDirection.opposite : GrowDirection → GrowDirection
  | .up => .down
  | .down => .up

/-- A `SubPoolSpec` with the page size of its allocator. -/
structure SubPool where
  entryBytes : Nat
  entryBytes_pos : 0 < entryBytes
  pageSize : Nat
  pageSize_pos : 0 < pageSize

/-- A `UnifiedKVPool` with two sub-pools that grow towards each other, and what the two allocators
have in common. -/
structure PairConfig where
  totalBytes : Nat
  full : SubPool
  other : SubPool
  fullDirection : GrowDirection
  /-- The Mamba end owns its virtual pages, the sliding-window end does not. -/
  otherIsIdOwner : Bool
  lazyCompaction : Bool
  needSort : Bool := false
  sortAfterMerge : Bool := false
  maxMovesPerCall : Nat := 4096

namespace PairConfig

variable (cfg : PairConfig)

def entryMax : Nat := max cfg.full.entryBytes cfg.other.entryBytes

def maxSlots (pool : SubPool) : Nat := cfg.totalBytes / pool.entryBytes

/-- `min_slot_index`: real data starts behind the sink. -/
def minSlotIndex (pool : SubPool) : Nat :=
  (cfg.entryMax + pool.entryBytes - 1) / pool.entryBytes

def minPageIndex (pool : SubPool) : Nat :=
  (cfg.minSlotIndex pool + pool.pageSize - 1) / pool.pageSize

theorem entryMax_le_minPage (pool : SubPool) :
    cfg.entryMax ≤ cfg.minPageIndex pool * (pool.entryBytes * pool.pageSize) := by
  have hceil : ∀ a b : Nat, 0 < b → a ≤ (a + b - 1) / b * b := by
    intro a b hb
    have hmod := Nat.div_add_mod' (a + b - 1) b
    have := Nat.mod_lt (a + b - 1) hb
    omega
  calc cfg.entryMax ≤ cfg.minSlotIndex pool * pool.entryBytes :=
        hceil cfg.entryMax pool.entryBytes pool.entryBytes_pos
    _ ≤ cfg.minPageIndex pool * pool.pageSize * pool.entryBytes := by
        apply Nat.mul_le_mul_right
        exact hceil (cfg.minSlotIndex pool) pool.pageSize pool.pageSize_pos
    _ = cfg.minPageIndex pool * (pool.entryBytes * pool.pageSize) := by ring

theorem minPageIndex_pos (pool : SubPool) : 0 < cfg.minPageIndex pool := by
  apply Nat.pos_of_ne_zero
  intro hz
  have hle := cfg.entryMax_le_minPage pool
  have hfull : cfg.full.entryBytes ≤ cfg.entryMax := le_max_left _ _
  have hpos := cfg.full.entryBytes_pos
  rw [hz, Nat.zero_mul] at hle
  omega

/-- The parameters of the allocator of a sub-pool. -/
def endConfig (pool : SubPool) (growDirection : GrowDirection) (isIdOwner : Bool) : EndConfig where
  growDirection := growDirection
  totalBytes := cfg.totalBytes
  numPages := cfg.maxSlots pool / pool.pageSize
  minPageIndex := cfg.minPageIndex pool
  minPage_pos := cfg.minPageIndex_pos pool
  pageSize := pool.pageSize
  pageSize_pos := pool.pageSize_pos
  entryBytesPerPage := pool.entryBytes * pool.pageSize
  entryBytes_pos := Nat.mul_pos pool.entryBytes_pos pool.pageSize_pos
  isIdOwner := isIdOwner
  lazyCompaction := cfg.lazyCompaction
  needSort := cfg.needSort
  sortAfterMerge := cfg.sortAfterMerge
  maxMovesPerCall := cfg.maxMovesPerCall

/-- `full_attn_allocator`. -/
def fullEnd : EndConfig := cfg.endConfig cfg.full cfg.fullDirection true

/-- `swa_attn_allocator` or `mamba_allocator`. -/
def otherEnd : EndConfig := cfg.endConfig cfg.other cfg.fullDirection.opposite cfg.otherIsIdOwner

end PairConfig

/-! ## Section 2: The pair -/

/-- The state of a composite allocator. -/
structure Pair where
  full : MultiEndedAllocator
  other : MultiEndedAllocator
  inFreeGroup : Bool
  freeGroup : List (List Nat)

/-- What a call returns: `none` if it raised, `some none` for `None`. -/
abbrev Outcome := Option (Option (List Nat))

/-- The answers of the events in the urgent flushes of a call. -/
structure PairQueries where
  full : Queries
  other : Queries

def Pair.clear (cfg : PairConfig) : Pair :=
  ⟨MultiEndedAllocator.clear cfg.fullEnd, MultiEndedAllocator.clear cfg.otherEnd, false, []⟩

namespace EndConfig

/-- An allocation of one end that asks for `need` tokens. If it comes to its shortfall gate and is
short, it flushes the peer. The results are both ends and the outcome. -/
def allocWithPeer (cfg peerCfg : EndConfig) (own peer : MultiEndedAllocator) (q : Queries)
    (atGate : Bool) (need : Nat)
    (call : Option Int → Option Int → Option (MultiEndedAllocator × Option (List Nat))) :
    Option (MultiEndedAllocator × MultiEndedAllocator × Outcome) := do
  let front := some (peer.frontier peerCfg)
  let short : Bool := atGate && cfg.lazyCompaction && own.availableSize cfg front < need
  let peer ← if short then (peer.flush peerCfg q true).map Prod.fst else some peer
  match call front (some (peer.frontier peerCfg)) with
  | none => some (own, peer, none)
  | some (own, out) => some (own, peer, some out)

/-- `alloc` of one end. -/
def alloc (cfg peerCfg : EndConfig) (q : Queries) (needSize : Nat)
    (own peer : MultiEndedAllocator) :
    Option (MultiEndedAllocator × MultiEndedAllocator × Outcome) :=
  cfg.allocWithPeer peerCfg own peer q (needSize ≠ 0 ∧ needSize % cfg.pageSize = 0) needSize
    fun front flushed => own.alloc cfg front flushed needSize

/-- `alloc_extend` of one end. -/
def allocExtend (cfg peerCfg : EndConfig) (q : Queries) (reqs : List Allocator.ExtendReq)
    (own peer : MultiEndedAllocator) :
    Option (MultiEndedAllocator × MultiEndedAllocator × Outcome) :=
  let numNewPages := Allocator.getNumNewPages cfg.pageSize reqs
  cfg.allocWithPeer peerCfg own peer q (numNewPages ≤ own.freeVirtualIds.length)
    (numNewPages * cfg.pageSize) fun front flushed => own.allocExtend cfg front flushed reqs

/-- `alloc_decode` of one end. -/
def allocDecode (cfg peerCfg : EndConfig) (q : Queries) (reqs : List Allocator.ExtendReq)
    (own peer : MultiEndedAllocator) :
    Option (MultiEndedAllocator × MultiEndedAllocator × Outcome) :=
  let numNewPages := Allocator.getNumNewPagesDecode cfg.pageSize reqs
  cfg.allocWithPeer peerCfg own peer q (numNewPages ≤ own.freeVirtualIds.length)
    (numNewPages * cfg.pageSize) fun front flushed => own.allocDecode cfg front flushed reqs

end EndConfig

namespace Pair

variable (cfg : PairConfig)

/-! ## Section 3: What both composites have -/

def setLatestForwardDoneEvent (S : Pair) (event : Option Event) : Pair :=
  { S with
    full := S.full.setLatestForwardDoneEvent event
    other := S.other.setLatestForwardDoneEvent event }

def flushOpportunistic (S : Pair) (q : PairQueries) : Option Pair :=
  if S.full.freePhysPages = [] ∧ S.full.pendingReuse = [] ∧ S.other.freePhysPages = [] ∧
      S.other.pendingReuse = [] then some S
  else do
    let full ← S.full.flushOpportunistic cfg.fullEnd q.full
    let other ← S.other.flushOpportunistic cfg.otherEnd q.other
    some { S with full := full.1, other := other.1 }

def freeGroupBegin (S : Pair) : Pair := { S with inFreeGroup := true, freeGroup := [] }

/-! ## Section 4: The sliding-window pair -/

/-- The free bytes between the two ends, whichever way round they are. -/
def gapBytes (S : Pair) : Int :=
  match cfg.fullDirection with
  | .up => max 0 (S.other.byteLowFrontier cfg.otherEnd - S.full.byteHighFrontier cfg.fullEnd)
  | .down => max 0 (S.full.byteLowFrontier cfg.fullEnd - S.other.byteHighFrontier cfg.otherEnd)

def availableSize (S : Pair) : Int :=
  let eF : Int := cfg.fullEnd.entryBytesPerPage
  let eS : Int := cfg.otherEnd.entryBytesPerPage
  let gapBytes := S.gapBytes cfg
  let rF := cfg.fullEnd.numPages - cfg.fullEnd.minPageIndex - S.full.allocatedPages cfg.fullEnd
  let rS := cfg.otherEnd.numPages - cfg.otherEnd.minPageIndex -
    S.other.allocatedPages cfg.otherEnd
  if ¬ cfg.lazyCompaction then min (gapBytes / (eF + eS)) (min rF rS) * cfg.full.pageSize
  else
    let hF : Int := S.full.freePhysPages.length
    let hS : Int := S.other.freePhysPages.length
    let k1 := min hF hS
    let (ePhase2, kPhase2Max) := if hF ≤ hS then (eF, hS) else (eS, hF)
    let k2Room := kPhase2Max - k1
    let k2 := if 0 < ePhase2 then min k2Room (gapBytes / ePhase2) else k2Room
    let gapBytes := gapBytes - k2 * ePhase2
    let k3 := gapBytes / (eF + eS)
    min (k1 + k2 + k3) (min (hF + rF) (hS + rS)) * cfg.full.pageSize

/-- The joint check of an allocation, with `_flush_both_for_alloc` on shortfall. -/
def jointCheck (S : Pair) (q : PairQueries) (needTokens : Nat) : Option (Pair × Bool) :=
  if (needTokens : Int) > S.availableSize cfg then
    if ¬ cfg.lazyCompaction then some (S, needTokens ≤ S.availableSize cfg)
    else do
      let full ← S.full.flush cfg.fullEnd q.full true
      let other ← S.other.flush cfg.otherEnd q.other true
      let S := { S with full := full.1, other := other.1 }
      some (S, needTokens ≤ S.availableSize cfg)
  else some (S, true)

/-- The common part of `alloc`, `alloc_extend` and `alloc_decode`: `call` allocates `numPages` on
the full end, and the other end binds the same virtual pages. -/
def allocBoth (S : Pair) (q : PairQueries) (needTokens numPages : Nat)
    (call : MultiEndedAllocator → MultiEndedAllocator →
      Option (MultiEndedAllocator × MultiEndedAllocator × Outcome)) : Option (Pair × Outcome) := do
  let (S, room) ← S.jointCheck cfg q needTokens
  if ¬ room then some (S, some none)
  else
    let newVirtualPages := S.full.freeVirtualIds.take numPages
    let (full, other, out) ← call S.full S.other
    let S := { S with full := full, other := other }
    match out with
    -- raised, or `None` after the check has passed, which raises here
    | none | some none => some (S, none)
    | some (some ids) =>
      match S.other.allocWithVirtual cfg.otherEnd (some (S.full.frontier cfg.fullEnd))
        newVirtualPages with
      | none => some (S, none)
      | some other => some ({ S with other := other }, some (some ids))

/-- `UnifiedSWATokenToKVPoolAllocator.alloc`. -/
def swaAlloc (S : Pair) (q : PairQueries) (qGate : Queries) (needSize : Nat) :
    Option (Pair × Outcome) :=
  S.allocBoth cfg q needSize (needSize / cfg.full.pageSize)
    (cfg.fullEnd.alloc cfg.otherEnd qGate needSize)

/-- `UnifiedSWATokenToKVPoolAllocator.alloc_extend`. -/
def swaAllocExtend (S : Pair) (q : PairQueries) (qGate : Queries)
    (reqs : List Allocator.ExtendReq) : Option (Pair × Outcome) :=
  let numNewPages := Allocator.getNumNewPages cfg.full.pageSize reqs
  S.allocBoth cfg q (numNewPages * cfg.full.pageSize) numNewPages
    (cfg.fullEnd.allocExtend cfg.otherEnd qGate reqs)

/-- `UnifiedSWATokenToKVPoolAllocator.alloc_decode`. -/
def swaAllocDecode (S : Pair) (q : PairQueries) (qGate : Queries)
    (reqs : List Allocator.ExtendReq) : Option (Pair × Outcome) :=
  let numNewPages := Allocator.getNumNewPagesDecode cfg.full.pageSize reqs
  S.allocBoth cfg q (numNewPages * cfg.full.pageSize) numNewPages
    (cfg.fullEnd.allocDecode cfg.otherEnd qGate reqs)

/-- The tokens whose page the sliding-window end still holds; page 0 is the sink. -/
def liveTokens (S : Pair) (tokens : List Nat) : List Nat :=
  tokens.filter fun x =>
    match S.other.virtualToPhysical (x / cfg.full.pageSize) with
    | none => false
    | some p => 0 < p

def freeSwa (S : Pair) (freeIndex : List Nat) : Option Pair := do
  if S.liveTokens cfg freeIndex = [] then some S
  else
    let other ← S.other.free cfg.otherEnd (S.liveTokens cfg freeIndex)
    some { S with other := other.1 }

/-- `UnifiedSWATokenToKVPoolAllocator.free` outside of a free group. -/
def swaFreeNow (S : Pair) (freeIndex : List Nat) : Option Pair := do
  let S ← S.freeSwa cfg freeIndex
  let full ← S.full.free cfg.fullEnd freeIndex
  some { S with full := full.1 }

/-- `UnifiedSWATokenToKVPoolAllocator.free`. -/
def swaFree (S : Pair) (freeIndex : List Nat) : Option Pair :=
  if freeIndex = [] then some S
  else if S.inFreeGroup then some { S with freeGroup := S.freeGroup ++ [freeIndex] }
  else S.swaFreeNow cfg freeIndex

/-- `UnifiedSWATokenToKVPoolAllocator.free_group_end`. -/
def swaFreeGroupEnd (S : Pair) : Option Pair :=
  if S.freeGroup ≠ [] then
    { S with inFreeGroup := false, freeGroup := [] }.swaFree cfg S.freeGroup.flatten
  else some { S with inFreeGroup := false }

/-- `UnifiedSWATokenToKVPoolAllocator.set_inflight_forward`. -/
def swaSetInflightForward (S : Pair) (event : Event) (tokens : List Nat) : Pair :=
  { S with
    full := S.full.setInflightForward cfg.fullEnd event tokens
    other := S.other.setInflightForward cfg.otherEnd event tokens }

/-! ## Section 5: The Mamba pair -/

def onFull (S : Pair) (call : MultiEndedAllocator → MultiEndedAllocator →
    Option (MultiEndedAllocator × MultiEndedAllocator × Outcome)) : Option (Pair × Outcome) :=
  (call S.full S.other).map fun r => ({ S with full := r.1, other := r.2.1 }, r.2.2)

def onOther (S : Pair) (call : MultiEndedAllocator → MultiEndedAllocator →
    Option (MultiEndedAllocator × MultiEndedAllocator × Outcome)) : Option (Pair × Outcome) :=
  (call S.other S.full).map fun r => ({ S with full := r.2.1, other := r.1 }, r.2.2)

/-- `UnifiedMambaTokenToKVPoolAllocator.alloc`. -/
def mambaAlloc (S : Pair) (q : Queries) (needSize : Nat) : Option (Pair × Outcome) :=
  S.onFull (cfg.fullEnd.alloc cfg.otherEnd q needSize)

/-- `UnifiedMambaTokenToKVPoolAllocator.alloc_extend`. -/
def mambaAllocExtend (S : Pair) (q : Queries) (reqs : List Allocator.ExtendReq) :
    Option (Pair × Outcome) :=
  S.onFull (cfg.fullEnd.allocExtend cfg.otherEnd q reqs)

/-- `UnifiedMambaTokenToKVPoolAllocator.alloc_decode`. -/
def mambaAllocDecode (S : Pair) (q : Queries) (reqs : List Allocator.ExtendReq) :
    Option (Pair × Outcome) :=
  S.onFull (cfg.fullEnd.allocDecode cfg.otherEnd q reqs)

/-- `UnifiedMambaSlotAllocator.alloc`, past the slots of an `alloc_group`. -/
def mambaAllocSlots (S : Pair) (q : Queries) (needSize : Nat) : Option (Pair × Outcome) :=
  S.onOther (cfg.otherEnd.alloc cfg.fullEnd q needSize)

/-- `UnifiedMambaTokenToKVPoolAllocator.free`. -/
def mambaFree (S : Pair) (freeIndex : List Nat) : Option Pair :=
  if freeIndex = [] then some S
  else if S.inFreeGroup then some { S with freeGroup := S.freeGroup ++ [freeIndex] }
  else (S.full.free cfg.fullEnd freeIndex).map fun r => { S with full := r.1 }

/-- `UnifiedMambaTokenToKVPoolAllocator.free_group_end`. -/
def mambaFreeGroupEnd (S : Pair) : Option Pair :=
  if S.freeGroup ≠ [] then
    (S.full.free cfg.fullEnd S.freeGroup.flatten).map fun r =>
      { S with full := r.1, inFreeGroup := false, freeGroup := [] }
  else some { S with inFreeGroup := false }

/-- `UnifiedMambaSlotAllocator.free`. -/
def mambaFreeSlots (S : Pair) (freeIndex : List Nat) : Option Pair :=
  (S.other.free cfg.otherEnd freeIndex).map fun r => { S with other := r.1 }

/-- `UnifiedMambaTokenToKVPoolAllocator.set_inflight_forward`: the Mamba kernels do not write
through `out_cache_loc`. -/
def mambaSetInflightForward (S : Pair) (event : Event) (tokens : List Nat) : Pair :=
  { S with
    full := S.full.setInflightForward cfg.fullEnd event tokens
    other := S.other.setInflightForward cfg.otherEnd event [] }

end Pair

end Sglang.MemCache
