import Mathlib.Order.Defs.LinearOrder
import Mathlib.Algebra.Order.Ring.Int
import Mathlib.Data.List.Basic

/-!
# Admission of Requests to a Prefill Batch

Model of `PrefillAdder` (`managers/schedule_policy.py`): the budgets of one scheduling pass, and the
two functions that admit a waiting request.

- `TreeCache`: the prefix cache and the allocators below it, as far as admission uses them,
- `PrefillAdder.addOneReqIgnoreEos`: admission without a prefix cache, by the order in which
  requests end,
- `PrefillAdder.addOneReq`: admission under a temporary lock on the matched node.

Tokens are counted, not stored. A budget that a float enters is of an arbitrary ordered type with
the operations the code uses on it, of which no law is assumed.
-/

namespace Sglang.Managers

/-- The numbers a budget is counted in: integers and floats. -/
class BudgetNumber (α : Type) extends LinearOrder α, IntCast α, Add α, Sub α, Mul α

instance : BudgetNumber Int where

structure Range where
  start : Int
  stop : Int
deriving DecidableEq, Repr

/-- The fields of `Req` that admission reads or writes; a list of tokens is its length. -/
structure PrefillAdder.Req (N : Type) where
  rid : Nat
  /-- `len(origin_input_ids)` -/
  originInputLen : Nat
  /-- `len(output_ids)` -/
  outputLen : Nat
  /-- `len(full_untruncated_fill_ids)` -/
  fullLen : Nat
  /-- `len(prefix_indices)` -/
  prefixLen : Nat
  maxNewTokens : Int
  ignoreEos : Bool := false
  retractedStain : Bool := false
  hostHitLength : Nat := 0
  swaHostHitLength : Nat := 0
  mambaHostHitLength : Nat := 0
  /-- `mamba_pool_idx is not None` -/
  hasMambaState : Bool := false
  lastNode : N
  bestMatchNode : N
  cacheProtectedLen : Nat := 0
  swaUuidForLock : Option Nat := none
  extendRange : Option Range := none
deriving DecidableEq, Repr

variable {α T N R : Type}

namespace PrefillAdder.Req

def setExtendRange (req : PrefillAdder.Req N) (start stop : Int) : PrefillAdder.Req N :=
  { req with extendRange := some ⟨start, stop⟩ }

def needsHostLoadBack (req : PrefillAdder.Req N) : Bool :=
  decide (req.hostHitLength > 0) || decide (req.swaHostHitLength > 0) ||
    decide (req.mambaHostHitLength > 0)

/-- `len(req.full_untruncated_fill_ids) - len(req.prefix_indices)` -/
def candExtendInputLen (req : PrefillAdder.Req N) : Int := (req.fullLen : Int) - req.prefixLen

end PrefillAdder.Req

/-- The prefix cache and the allocators: states `T`, nodes `N`, results of `inc_lock_ref` `R`. -/
structure TreeCache (T N R : Type) where
  /-- `getattr(tree_cache, "disable", True)` -/
  disable : Bool
  isTreeCache : Bool
  incLockRef : T → N → T × R
  decLockRef : T → N → Option R → T
  swaUuidForLock : R → Option Nat
  /-- `init_load_back`: how many indices are new, and the new last node. -/
  initLoadBack : T → PrefillAdder.Req N → (Nat × N) × T
  /-- What the pool that `rem_total_tokens` counts has available or could evict. -/
  availableAndEvictable : T → Int
  swaAvailableAndEvictable : T → Int
  slidingWindowSize : Int

/-- `ChunkCache`, over a pool with `available` free tokens: no prefix is cached and nothing is
locked. -/
def chunkCache (available : Int) : TreeCache Unit Unit Unit where
  disable := true
  isTreeCache := false
  incLockRef := fun t _ => (t, ())
  decLockRef := fun t _ _ => t
  swaUuidForLock := fun _ => none
  initLoadBack := fun t req => ((0, req.lastNode), t)
  availableAndEvictable := fun _ => available
  swaAvailableAndEvictable := fun _ => 0
  slidingWindowSize := 0

/-- A call of `inc_lock_ref` with its result, or of `dec_lock_ref` with its parameters. -/
inductive LockCall (N R : Type) where
  | inc (node : N) (result : R)
  | dec (node : N) (params : Option R)
deriving DecidableEq, Repr

/-- A prefix cache with the calls that were made on its lock counts, oldest first. -/
structure Locked (T N R : Type) where
  tree : T
  calls : List (LockCall N R)

inductive AddReqResult where
  /-- `CONTINUE` -/
  | cont
  | noToken
  | other
deriving DecidableEq, Repr

/-- What a call comes back with, or the exception it raises. -/
inductive AddOutcome where
  | result (r : AddReqResult)
  | assertionError (message : String)
  | zeroDivisionError
deriving DecidableEq, Repr

/-- `CLIP_MAX_NEW_TOKENS` is an environment variable, the rest is set by `__init__`. -/
structure AdderConfig (α N : Type) where
  pageSize : Nat
  pageSize_pos : 0 < pageSize
  clipMaxNewTokens : Int := 4096
  newTokenRatio : α
  /-- `running_batch.reqs` -/
  runningReqs : Option (List (PrefillAdder.Req N))
  isHybridSwa : Bool := false
  mambaSlotCost : Int := 0
  dsaPrefillCpInSeqSplit : Bool := false
  prefillMaxRequests : Option Nat := none
  /-- `dllm_config.block_size` -/
  dllmBlockSize : Option Int := none

def ignoreEosReserveTokens : Int := 1

/-- The fields of `PrefillAdder` that change in a pass. -/
structure PrefillAdder (α N : Type) where
  remInputTokens : Int
  remChunkTokens : Option Int
  remDllmTokens : Int := 0
  remTotalTokenOffset : α
  curRemTokenOffset : Int
  remSwaTokenOffset : Int := 0
  remMambaSlots : Option Int := none
  /-- Tokens left and tokens occupied, for each request. -/
  reqStates : Option (List (α × Int)) := none
  canRunList : List (PrefillAdder.Req N) := []
  newChunkedReq : Option (PrefillAdder.Req N) := none
  logHitTokens : Int := 0
  reprocessedLogHitTokens : Int := 0
  logInputTokens : Int := 0
  reprocessedLogInputTokens : Int := 0

namespace AdderConfig

variable (cfg : AdderConfig α N)

/-- `ceil_paged_tokens`; `//` rounds down, as `/` does for a positive divisor. -/
def ceilPagedTokens (tokens : Int) : Int := -(-tokens / (cfg.pageSize : Int)) * cfg.pageSize

/-- `tokens // page_size * page_size`. -/
def floorPagedTokens (tokens : Int) : Int := tokens / (cfg.pageSize : Int) * cfg.pageSize

def mambaGapBudgetForReq (req : PrefillAdder.Req N) : Int :=
  if cfg.mambaSlotCost ≠ 0 ∧ req.hasMambaState = false then cfg.mambaSlotCost else 0

end AdderConfig

namespace PrefillAdder

/-- Where the insertion loop of `add_req_state` leaves `i`: the first entry that is not smaller, or
the last index. -/
def insertIndex [LinearOrder α] (left : α) : List (α × Int) → Nat
  | [] => 0
  | [_] => 0
  | x :: y :: rest => if left ≤ x.1 then 0 else insertIndex left (y :: rest) + 1

variable [BudgetNumber α]
variable (cfg : AdderConfig α N) (C : TreeCache T N R)

def getRunningRequestTotalTokenOffset (req : Req N) : α :=
  ((min (req.maxNewTokens - req.outputLen) cfg.clipMaxNewTokens : Int) : α) * cfg.newTokenRatio

/-- `__init__`, with the mamba slots left when the pool is shared, and `max_running_requests` of the
dllm. -/
def init (remInputTokens : Int) (remChunkTokens : Option Int) (numMixedDecodeTokens : Int)
    (remMambaSlots : Option Int) (dllmMaxRunningRequests : Int) : PrefillAdder α N where
  remInputTokens := remInputTokens - numMixedDecodeTokens
  remChunkTokens := remChunkTokens.map (· - numMixedDecodeTokens)
  remDllmTokens := dllmMaxRunningRequests * cfg.dllmBlockSize.getD 0
  remTotalTokenOffset :=
    match cfg.runningReqs with
    | none => (numMixedDecodeTokens : α)
    | some reqs =>
      (numMixedDecodeTokens : α) +
        (reqs.map (getRunningRequestTotalTokenOffset cfg)).foldl (· + ·) (((0 : Int)) : α)
  curRemTokenOffset := numMixedDecodeTokens
  remMambaSlots := if cfg.mambaSlotCost ≠ 0 then remMambaSlots else none

def remTotalTokens (a : PrefillAdder α N) (t : T) : α :=
  ((C.availableAndEvictable t : Int) : α) - a.remTotalTokenOffset

def curRemTokens (a : PrefillAdder α N) (t : T) : Int :=
    C.availableAndEvictable t - a.curRemTokenOffset

def remSwaTokens (a : PrefillAdder α N) (t : T) : Int :=
  C.swaAvailableAndEvictable t - a.remSwaTokenOffset

def swaBudgetForReq (a : PrefillAdder α N) (extendInputLen : Int) (swaHostHitLength : Nat) : Int :=
  let alloc := match a.remChunkTokens with
    | some rem => min extendInputLen rem
    | none => extendInputLen
  let budget := max alloc C.slidingWindowSize + cfg.pageSize
  if swaHostHitLength > 0 then budget + cfg.ceilPagedTokens swaHostHitLength else budget

def budgetState (a : PrefillAdder α N) (t : T) : AddReqResult :=
  if remTotalTokens C a t ≤ ((0 : Int) : α) ∨ curRemTokens C a t ≤ 0 ∨
      (cfg.isHybridSwa = true ∧ remSwaTokens C a t ≤ 0) ∨
      a.remMambaSlots.any (fun slots => slots ≤ 0) = true then .noToken
  else if a.remInputTokens ≤ 0 then .other
  else match cfg.dllmBlockSize with
    | some _ => if a.remDllmTokens ≤ 0 then .other else .cont
    | none =>
      match a.remChunkTokens with
      | some rem => if rem ≤ 0 then .other else .cont
      | none => .cont

def updatePrefillBudget (a : PrefillAdder α N) (prefixLen extendInputLen maxNewTokens : Int)
    (retractedStain : Bool) (mambaGapReserve : Int) : PrefillAdder α N :=
  let extendInputLen := cfg.ceilPagedTokens extendInputLen
  let pageOverhead : Int := cfg.pageSize
  { a with
    remTotalTokenOffset :=
      a.remTotalTokenOffset +
        ((extendInputLen + maxNewTokens + pageOverhead + mambaGapReserve : Int) : α)
    curRemTokenOffset := a.curRemTokenOffset + (extendInputLen + pageOverhead + mambaGapReserve)
    remMambaSlots := if mambaGapReserve ≠ 0 then a.remMambaSlots.map (· - 1) else a.remMambaSlots
    remInputTokens := a.remInputTokens - extendInputLen
    remSwaTokenOffset :=
      if cfg.isHybridSwa then a.remSwaTokenOffset + swaBudgetForReq cfg C a extendInputLen 0
      else a.remSwaTokenOffset
    remDllmTokens :=
      if cfg.dllmBlockSize.isSome then a.remDllmTokens - extendInputLen else a.remDllmTokens
    remChunkTokens :=
      if cfg.dllmBlockSize.isSome then a.remChunkTokens
        else a.remChunkTokens.map (· - extendInputLen)
    logHitTokens := a.logHitTokens + prefixLen
    logInputTokens := a.logInputTokens + extendInputLen
    reprocessedLogHitTokens :=
      if retractedStain then a.reprocessedLogHitTokens + prefixLen else a.reprocessedLogHitTokens
    reprocessedLogInputTokens :=
      if retractedStain then a.reprocessedLogInputTokens + extendInputLen
      else a.reprocessedLogInputTokens }

/-- What `_add_dllm_req` truncates a request to. -/
def dllmTruncLen (a : PrefillAdder α N) (blockSize : Int) : Int :=
  cfg.floorPagedTokens (min a.remDllmTokens blockSize)

/-- What every admission does: `set_extend_range`, the entry in `can_run_list` (and
`new_chunked_req` for a request that is not finished), and `_update_prefill_budget`. -/
def commitRange (a : PrefillAdder α N) (req : Req N) (start stop : Int) (chunked : Bool)
    (prefixLen extendInputLen maxNewTokens : Int) : PrefillAdder α N × Req N :=
  let req := req.setExtendRange start stop
  let a := { a with
    canRunList := a.canRunList ++ [req]
    newChunkedReq := if chunked then some req else a.newChunkedReq }
  (updatePrefillBudget cfg C a prefixLen extendInputLen maxNewTokens req.retractedStain
    (cfg.mambaGapBudgetForReq req), req)

@[simp]
theorem commitRange_reqStates (a : PrefillAdder α N) (req : Req N) (start stop : Int)
    (chunked : Bool) (p e m : Int) :
    (commitRange cfg C a req start stop chunked p e m).1.reqStates = a.reqStates := rfl

def addDllmReq (a : PrefillAdder α N) (req : Req N) (blockSize prefixLen : Int) :
    PrefillAdder α N × Req N :=
  commitRange cfg C a req prefixLen (prefixLen + dllmTruncLen cfg a blockSize) false prefixLen
    (dllmTruncLen cfg a blockSize) 0

/-! ## Admission without a prefix cache -/

/-- The tokens a request still has to decode, as `add_req_state` estimates them. -/
def tokensLeft (r : Req N) : α :=
  (r.maxNewTokens : α) * (if r.ignoreEos then ((1 : Int) : α) else cfg.newTokenRatio) -
    ((r.outputLen : Int) : α)

def addReqState (insertSort : Bool) (states : List (α × Int)) (r : Req N) : List (α × Int) :=
  let tokensOccupied : Int := r.originInputLen + r.outputLen
  if tokensLeft cfg r ≤ ((0 : Int) : α) then states
  else if insertSort then
    states.insertIdx (insertIndex (tokensLeft cfg r) states) (tokensLeft cfg r, tokensOccupied)
  else states ++ [(tokensLeft cfg r, tokensOccupied)]

/-- The `req_states` of a call: built and sorted by the first one, extended by the later ones. -/
def enterReqStates (a : PrefillAdder α N) (req : Req N) : List (α × Int) :=
  match a.reqStates with
  | none =>
    let states := addReqState cfg false [] req
    let states := (cfg.runningReqs.getD []).foldl (addReqState cfg false) states
    let states := a.canRunList.foldl (addReqState cfg false) states
    states.mergeSort (fun x y => x.1 ≤ y.1)
  | some states => addReqState cfg true states req

/-- The scan over `req_states`: whether some request would be left with too few free tokens. -/
def scanReqStates (curRemTokens : Int) : Int → List (α × Int) → Bool
  | _, [] => false
  | tokensFreed, (left, occupied) :: rest =>
    let bs : Int := rest.length + 1
    let minFreeTokens := ((curRemTokens + tokensFreed : Int) : α) - left * ((bs : Int) : α)
    if minFreeTokens ≤ ((ignoreEosReserveTokens * bs : Int) : α) then true
    else scanReqStates curRemTokens (tokensFreed + occupied) rest

/-- The budget checks of `add_one_req_ignore_eos` before it enters the request into `req_states`. -/
def ignoreEosFits (a : PrefillAdder α N) (t : T) (req : Req N) : Bool :=
  let pagedInput := cfg.ceilPagedTokens req.candExtendInputLen + cfg.mambaGapBudgetForReq req
  !(decide (min ((curRemTokens C a t : Int) : α) (remTotalTokens C a t) <
    ((pagedInput : Int) : α)) ||
    (cfg.isHybridSwa &&
      decide (remSwaTokens C a t < swaBudgetForReq cfg C a req.candExtendInputLen 0)))

/-- The list that the `min_free_tokens` scan of a call reads, `none` where the call does not
scan. -/
def scannedReqStates (a : PrefillAdder α N) (t : T) (req : Req N) : Option (List (α × Int)) :=
  if ignoreEosFits cfg C a t req ∧ cfg.isHybridSwa = false then some (enterReqStates cfg a req)
  else none

/-- Whether the scan of a call returns `NO_TOKEN`. -/
def scanRefuses (a : PrefillAdder α N) (t : T) (req : Req N) : Bool :=
  match scannedReqStates cfg C a t req with
  | none => false
  | some states =>
    scanReqStates (curRemTokens C a t - cfg.ceilPagedTokens req.candExtendInputLen) 0 states

/-- `rem_chunk_tokens is None or n <= rem_chunk_tokens`: `n` tokens are the last chunk. -/
def isLastChunk (a : PrefillAdder α N) (n : Int) : Bool := a.remChunkTokens.all (fun rem => n ≤ rem)

/-- The end of `add_one_req_ignore_eos`: what part of the request is committed in this pass. -/
def commitIgnoreEos (a : PrefillAdder α N) (t : T) (req : Req N) :
    PrefillAdder α N × Req N × AddOutcome :=
  match cfg.dllmBlockSize with
  | some blockSize =>
    if a.remDllmTokens ≤ 0 then (a, req, .result .other)
    else
      let r := addDllmReq cfg C a req blockSize 0
      (r.1, r.2, .result (budgetState cfg C r.1 t))
  | none =>
    if isLastChunk a req.candExtendInputLen then
      -- the whole sequence is committed this iter
      let r := commitRange cfg C a req req.prefixLen req.fullLen false 0 req.candExtendInputLen
        (min req.maxNewTokens cfg.clipMaxNewTokens)
      (r.1, r.2, .result (budgetState cfg C r.1 t))
    else
      let truncLen := a.remChunkTokens.getD 0
      if truncLen ≤ 0 then (a, req, .result .other)
      else if req.prefixLen ≠ 0 then (a, req, .assertionError "")
      else
        let r := commitRange cfg C a req req.prefixLen (req.prefixLen + truncLen) true 0 truncLen 0
        (r.1, r.2, .result (budgetState cfg C r.1 t))

/-- `add_one_req_ignore_eos`; `delayed` when the prefill delayer does not allow the prefill. -/
def addOneReqIgnoreEos (a : PrefillAdder α N) (t : T) (req : Req N) (delayed : Bool) :
    PrefillAdder α N × Req N × AddOutcome :=
  if ignoreEosFits cfg C a t req = false then (a, req, .result .noToken)
  else
    let refused := scanRefuses cfg C a t req
    let a := { a with reqStates := some (enterReqStates cfg a req) }
    if refused then (a, req, .result .noToken)
    else if delayed then (a, req, .result .other)
    else commitIgnoreEos cfg C a t req

/-! ## Admission under a lock -/

/-- `len(full_untruncated_fill_ids) - len(prefix_indices)` in whole pages. -/
def inputTokens (req : Req N) : Int := cfg.ceilPagedTokens req.candExtendInputLen

/-- The `total_tokens` that must stay below `rem_total_tokens`. -/
def totalTokens (req : Req N) : Int :=
  req.candExtendInputLen + min (max (req.maxNewTokens - req.outputLen) 0) cfg.clipMaxNewTokens +
    cfg.pageSize + cfg.mambaGapBudgetForReq req

/-- The checks against the pools, made before the lock and again under it. -/
def poolsRefuse (a : PrefillAdder α N) (t : T) (req : Req N) : Bool :=
  decide (remTotalTokens C a t ≤ ((totalTokens cfg req : Int) : α)) ||
    (cfg.isHybridSwa &&
      decide (remSwaTokens C a t ≤
        swaBudgetForReq cfg C a req.candExtendInputLen req.swaHostHitLength))

/-- Without chunked prefill, a request that is not the first must fit into `rem_input_tokens`. -/
def inputRefuses (a : PrefillAdder α N) (inputLen : Int) : Bool :=
  a.remChunkTokens.isNone && !a.canRunList.isEmpty && decide (a.remInputTokens ≤ inputLen)

/-- `inc_lock_ref`. -/
def incLock (lt : Locked T N R) (node : N) : Locked T N R × R :=
  let r := C.incLockRef lt.tree node
  ({ tree := r.1, calls := lt.calls ++ [.inc node r.2] }, r.2)

/-- `dec_lock_ref`. -/
def decLock (lt : Locked T N R) (node : N) (params : Option R) : Locked T N R :=
  { tree := C.decLockRef lt.tree node params, calls := lt.calls ++ [.dec node params] }

def reqIncLockRef (lt : Locked T N R) (req : Req N) : Locked T N R × Req N :=
  let r := incLock C lt req.lastNode
  (r.1, if cfg.isHybridSwa then { req with swaUuidForLock := C.swaUuidForLock r.2 } else req)

/-- The state of a call: the adder, the locked tree and the request. -/
structure Admission (α T N R : Type) where
  adder : PrefillAdder α N
  tree : Locked T N R
  req : Req N

/-- `init_load_back` under the lock, for a request with a host hit. -/
def loadBack (s : Admission α T N R) : Admission α T N R :=
  if s.req.needsHostLoadBack then
    let r := C.initLoadBack s.tree.tree s.req
    { s with
      tree := { s.tree with tree := r.2 }
      req := { s.req with
        lastNode := r.1.2
        prefixLen := s.req.prefixLen + r.1.1
        cacheProtectedLen := s.req.prefixLen + r.1.1 } }
  else s

/-- `commitRange`, with the lock of the request; `can_run_list` holds the request itself, so the
lock's field is seen there too. -/
def commitLocked (s : Admission α T N R) (start stop : Int) (chunked : Bool)
    (extendInputLen maxNewTokens : Int) : Admission α T N R :=
  let l := reqIncLockRef cfg C s.tree s.req
  let r := commitRange cfg C s.adder l.2 start stop chunked s.req.prefixLen extendInputLen
    maxNewTokens
  { adder := r.1, tree := l.1, req := r.2 }

/-- How many tokens of a request that does not fit are committed: `rem_chunk_tokens` cut to whole
pages, to the alignment, and to a page-aligned end; `none` where a zero alignment divides. -/
def chunkTruncLen (req : Req N) (rem : Int) (truncationAlignSize : Option Nat) : Option Int :=
  let toPageEnd (truncLen : Int) : Int :=
    cfg.floorPagedTokens (truncLen + req.prefixLen) - req.prefixLen
  let truncLen := cfg.floorPagedTokens rem
  if truncLen ≤ 0 then some truncLen
  else
    match truncationAlignSize with
    | none => some (toPageEnd truncLen)
    | some align =>
      if truncLen < align then some 0
      else if align = 0 then none
      else some (toPageEnd (align * (truncLen / align)))

/-- The body of the `with` block after `init_load_back`; `none` where it falls through to
`budget_state`. -/
def addLoaded (s : Admission α T N R) (truncationAlignSize : Option Nat) :
    Admission α T N R × Option AddOutcome :=
  let inputLen := inputTokens cfg s.req
  if inputRefuses s.adder inputLen then (s, some (.result .other))
  else
    match cfg.dllmBlockSize with
    | some blockSize =>
      if s.adder.remDllmTokens ≤ 0 then (s, some (.result .other))
      else if truncationAlignSize.isSome then
        (s, some (.assertionError "truncation_align_size is not supported for dllm prefill"))
      else
        let truncLen := dllmTruncLen cfg s.adder blockSize
        (commitLocked cfg C s s.req.prefixLen (s.req.prefixLen + truncLen) false truncLen 0, none)
    | none =>
      if isLastChunk s.adder inputLen then
        (commitLocked cfg C s s.req.prefixLen s.req.fullLen false inputLen
          (min s.req.maxNewTokens cfg.clipMaxNewTokens), none)
      else
        match chunkTruncLen cfg s.req (s.adder.remChunkTokens.getD 0) truncationAlignSize with
        | none => (s, some .zeroDivisionError)
        | some truncLen =>
          if truncLen ≤ 0 then (s, some (.result .other))
          else
            (commitLocked cfg C s s.req.prefixLen (s.req.prefixLen + truncLen) true truncLen 0,
              none)

/-- The body of the `with` block. -/
def addLocked (s : Admission α T N R) (truncationAlignSize : Option Nat) :
    Admission α T N R × Option AddOutcome :=
  if poolsRefuse cfg C s.adder s.tree.tree s.req then (s, some (.result .noToken))
  else addLoaded cfg C (loadBack C s) truncationAlignSize

/-- `_lock_node` around the body: the release mirrors what the lock returned, where the cache is a
tree. -/
def lockNode (s : Admission α T N R) (truncationAlignSize : Option Nat) :
    Admission α T N R × Option AddOutcome :=
  let node := s.req.lastNode
  let l := incLock C s.tree node
  let r := addLocked cfg C { s with tree := l.1 } truncationAlignSize
  ({ r.1 with tree := decLock C r.1.tree node (if C.isTreeCache then some l.2 else none) }, r.2)

/-- The checks of `add_one_req` before anything else. -/
def passRefuses (a : PrefillAdder α N) (delayed : Bool) : Bool :=
  delayed || (cfg.dsaPrefillCpInSeqSplit && decide (1 ≤ a.canRunList.length)) ||
    cfg.prefillMaxRequests.any (fun x => x ≤ a.canRunList.length)

/-- Whether a request is admitted without the cache. -/
def bypasses (req : Req N) : Bool := req.ignoreEos && C.disable

/-- `add_one_req`; `delayed` and `delayedAgain` are the refusals of the prefill delayer. -/
def addOneReq (s : Admission α T N R) (delayed delayedAgain : Bool)
    (truncationAlignSize : Option Nat) :
    Admission α T N R × AddOutcome :=
  if passRefuses cfg s.adder delayed then (s, .result .other)
  else if bypasses C s.req then
    let r := addOneReqIgnoreEos cfg C s.adder s.tree.tree s.req delayedAgain
    ({ s with adder := r.1, req := r.2.1 }, r.2.2)
  else if poolsRefuse cfg C s.adder s.tree.tree s.req then (s, .result .noToken)
  else if inputRefuses s.adder
    (cfg.ceilPagedTokens (s.req.candExtendInputLen - s.req.hostHitLength)) then
    (s, .result .other)
  else
    let r := lockNode cfg C s truncationAlignSize
    (r.1, r.2.getD (.result (budgetState cfg C r.1.adder r.1.tree.tree)))

end PrefillAdder

end Sglang.Managers
