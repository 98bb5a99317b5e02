import Mathlib.Data.List.Basic
import Sglang.Lib.Runs

/-!
# A Streaming Session

Model of a streaming `Session` (`session/session_controller.py`), of the cache steps of its requests
(`session/streaming_session.py`) and of the scheduler steps around them.

- `createReq`: the next turn, or a rejected request,
- `tryMatchPrefix`: a request is matched against the KV of the session,
- `tryCacheFinishedReq`: a request gives its KV back, to the slot or to the pools,
- `step`: everything that may happen to the requests of one session.

## Conventions

- A token array is a reference into `arrays`: the turns of a session extend one array in place.
- `req.session` is either the session or `None`, and `slots` is looked up at the session only.
- What the inner cache and the forward passes write to a request is a parameter of the step.
- `accepted` and `done` are not fields of the source: whether `create_req` took the request, and
  whether it left the scheduler.
-/

namespace Sglang.Session

/-! ## Section 1: Requests and slots -/

/-- `FINISH_ABORT` with its message, or any other reason. -/
inductive FinishReason where
  | abort (message : String)
  | other
deriving DecidableEq, Repr

def FinishReason.isAbort : FinishReason → Bool
  | .abort _ => true
  | .other => false

structure SessionParams where
  replace : Bool := false
  dropPreviousOutput : Bool := false
  offset : Option Int := none
deriving DecidableEq, Repr

/-- `TokenizedGenerateReqInput`. -/
structure RecvReq where
  inputIds : List Nat
  maxNewTokens : Nat
  sessionParams : SessionParams := {}
deriving DecidableEq, Repr

structure Req where
  originInputIds : Nat
  originInputIdsUnpadded : Nat
  fullUntruncatedFillIds : Nat
  maxNewTokens : Nat
  accepted : Bool
  outputIds : List Nat := []
  session : Bool := true
  toFinish : Option String := none
  finishedReason : Option FinishReason := none
  finishedLen : Option Nat := none
  reqPoolIdx : Option Nat := none
  kvCommittedLen : Nat := 0
  kvAllocatedLen : Nat := 0
  lastNode : Option Nat := none
  cacheProtectedLen : Nat := 0
  done : Bool := false
deriving DecidableEq, Repr

/-- Accepted, and neither finished nor aborted: a request whose abort was taken note of at its match
is no longer attached. -/
def Req.unfinished (r : Req) : Bool := r.accepted && r.session && !r.done

/-- The KV of the session between its turns. -/
structure SessionSlot where
  reqPoolIdx : Option Nat := none
  kvCommittedLen : Nat := 0
  kvAllocatedLen : Nat := 0
  lastNode : Option Nat := none
  cacheProtectedLen : Nat := 0
deriving DecidableEq, Repr

def SessionSlot.isHoldingKv (slot : SessionSlot) : Bool := slot.reqPoolIdx.isSome

def SessionSlot.saveFromReq (slot : SessionSlot) (r : Req) (isFirst : Bool) : SessionSlot × Req :=
  let slot := { slot with
    reqPoolIdx := r.reqPoolIdx, kvCommittedLen := r.kvCommittedLen, kvAllocatedLen :=
      r.kvAllocatedLen }
  let slot := if isFirst then
      { slot with lastNode := r.lastNode, cacheProtectedLen := r.cacheProtectedLen }
    else slot
  (slot, { r with reqPoolIdx := none })

/-- The slot keeps its fields, for the next try of the request. -/
def SessionSlot.restoreToReq (slot : SessionSlot) (r : Req) : Req :=
  { r with
    reqPoolIdx := slot.reqPoolIdx, kvCommittedLen := slot.kvCommittedLen, kvAllocatedLen :=
      slot.kvAllocatedLen }

/-- Lengths of the arrays of the last request as of its `finish_req`. -/
structure CommittedLens where
  origin : Nat
  unpadded : Nat
  fill : Nat
deriving DecidableEq, Repr

structure State where
  inflight : Bool
  /-- The only request of `req_nodes`. -/
  reqNodes : Option Nat
  committed : Option CommittedLens
  slot : Option SessionSlot
  arrays : List (List Nat)
  reqs : List Req
  /-- What was passed to `free` of the KV allocator: a row and a range of it. -/
  freed : List (Option Nat × Nat × Nat)
  /-- What was appended to `free_slots` of the request pool. -/
  freeSlots : List (Option Nat)
  /-- The tree nodes whose lock was given back. -/
  unlocked : List Nat
deriving DecidableEq, Repr

def State.init : State where
  inflight := false
  reqNodes := none
  committed := none
  slot := none
  arrays := []
  reqs := []
  freed := []
  freeSlots := []
  unlocked := []

namespace State

def setReq (s : State) (i : Nat) (r : Req) : State := { s with reqs := s.reqs.set i r }

def array (s : State) (ref : Nat) : List Nat := s.arrays.getD ref []

def newArray (s : State) (tokens : List Nat) : State × Nat :=
  ({ s with arrays := s.arrays ++ [tokens] }, s.arrays.length)

def writeArray (s : State) (ref : Nat) (tokens : List Nat) : State :=
  { s with arrays := s.arrays.set ref tokens }

def truncateArray (s : State) (ref len : Nat) : State := s.writeArray ref ((s.array ref).take len)

def extendArray (s : State) (ref : Nat) (tokens : List Nat) : State :=
    s.writeArray ref (s.array ref ++ tokens)

/-! ## Section 2: The session -/

def stripBosToken (bosTokenId : Option Nat) : List Nat → List Nat
  | [] => []
  | t :: ts => if bosTokenId = some t then ts else t :: ts

/-- The part of `_share_token_arrays` about `full_untruncated_fill_ids`: handed over only where it
is not one of the other arrays and fits to them. -/
def carryFill (s : State) (lens : CommittedLens) (last : Req) (outTail new : List Nat) :
    State × Option Nat :=
  let fill := last.fullUntruncatedFillIds
  if fill = last.originInputIds ∨ fill = last.originInputIdsUnpadded then (s, none)
  else
    let s := s.truncateArray fill lens.fill
    let inputLen := (s.array last.originInputIds).length
    let fillLen := (s.array fill).length
    if inputLen ≤ fillLen ∧ fillLen - inputLen ≤ outTail.length then
      (s.extendArray fill (outTail.drop (fillLen - inputLen) ++ new), some fill)
    else (s, none)

/-- `_share_token_arrays`: the arrays of the last request, cut back to what its `finish_req`
confirmed, then extended. -/
def shareTokenArrays (s : State) (lens : CommittedLens) (last : Req) (new : List Nat) :
    State × Nat × Nat × Option Nat :=
  let outTail := last.outputIds.take last.maxNewTokens
  let inputIds := last.originInputIds
  let unpadded := last.originInputIdsUnpadded
  let s := s.truncateArray inputIds lens.origin
  let s := if unpadded = inputIds then s else s.truncateArray unpadded lens.unpadded
  let (s, carryFill) := s.carryFill lens last outTail new
  let s := s.extendArray inputIds (outTail ++ new)
  let s := if unpadded = inputIds then s else s.extendArray unpadded (outTail ++ new)
  (s, inputIds, unpadded, carryFill)

/-- `_concat_token_arrays` of a plain append. -/
def concatTokenArrays (s : State) (last : Req) (new : List Nat) : State × Nat × Nat :=
  let outTail := last.outputIds.take last.maxNewTokens
  let (s, inputIds) := s.newArray (s.array last.originInputIds ++ outTail ++ new)
  let (s, unpadded) := s.newArray (s.array last.originInputIdsUnpadded ++ outTail ++ new)
  (s, inputIds, unpadded)

/-- Why `create_req` rejects a request. -/
def abortMessage (s : State) (params : SessionParams) : Option String :=
  if s.inflight then some "Streaming session already has an active request."
  else if params.replace then some "Streaming sessions do not support replace."
  else if params.dropPreviousOutput then
    some "Streaming sessions do not support drop_previous_output."
  else if params.offset.getD 0 ≠ 0 then some "Streaming sessions do not support offset."
  else none

/-- `Req(...)`: an empty unpadded array is replaced by the padded one. -/
def newReq (s : State) (inputIds unpadded : Nat) (fill : Option Nat) (maxNewTokens : Nat)
    (accepted : Bool) :
    State × Req :=
  let (s, fill) := match fill with
    | some fill => (s, fill)
    | none => s.newArray []
  (s, { originInputIds := inputIds
        originInputIdsUnpadded := if s.array unpadded = [] then inputIds else unpadded
        fullUntruncatedFillIds := fill
        maxNewTokens := maxNewTokens
        accepted := accepted })

/-- `set_finish_with_abort`: one token is left, to skip the long prefill. -/
def setFinishWithAbort (s : State) (r : Req) (message : String) : State × Req :=
  let (s, inputIds) := s.newArray [0]
  (s, { r with originInputIds := inputIds, toFinish := some message })

def createReq (s : State) (bosTokenId : Option Nat) (recv : RecvReq) : State :=
  match s.abortMessage recv.sessionParams with
  | some message =>
    -- a rejected request does not look at the last one, but it keeps the session
    let (s, inputIds) := s.newArray recv.inputIds
    let (s, r) := s.newReq inputIds inputIds none recv.maxNewTokens false
    let (s, r) := s.setFinishWithAbort r message
    { s with reqs := s.reqs ++ [r] }
  | none =>
    let (s, r) := match s.reqNodes.bind fun i => s.reqs[i]? with
      | none =>
        let (s, inputIds) := s.newArray recv.inputIds
        s.newReq inputIds inputIds none recv.maxNewTokens true
      | some last =>
        let new := stripBosToken bosTokenId recv.inputIds
        match s.committed with
        | some lens =>
          let (s, inputIds, unpadded, carryFill) := s.shareTokenArrays lens last new
          s.newReq inputIds unpadded carryFill recv.maxNewTokens true
        | none =>
          let (s, inputIds, unpadded) := s.concatTokenArrays last new
          s.newReq inputIds unpadded none recv.maxNewTokens true
    { s with reqs := s.reqs ++ [r], inflight := true }

/-- `finish_req`: the request, by its index. -/
def finishReq (s : State) (i : Nat) (r : Req) : State :=
  let s := { s with inflight := false }
  let s := match s.reqNodes with
    | none => s
    | some prev => { s with reqs := s.reqs.modify prev fun p => { p with session := false } }
  { s with
    reqNodes := some i
    committed := some
      { origin := (s.array r.originInputIds).length
        unpadded := (s.array r.originInputIdsUnpadded).length
        fill := (s.array r.fullUntruncatedFillIds).length } }

def abortReq (s : State) : State := { s with inflight := false }

/-! ## Section 3: The cache steps -/

def ceilAlign (x pageSize : Nat) : Nat := (x + pageSize - 1) / pageSize * pageSize

/-- `_free_kv_aligned`: whole pages only. -/
def freeKvAligned (pageSize : Nat) (s : State) (poolIdx : Option Nat) (target stop : Nat) : State :=
  if stop ≤ target then s
  else
    let start := if pageSize > 1 then ceilAlign target pageSize else target
    if start < stop then { s with freed := s.freed ++ [(poolIdx, start, stop)] } else s

/-- `find_active_slot`, with the detaching of a request that is to be aborted. -/
def findActiveSlot (s : State) (i : Nat) (r : Req) : State × Option SessionSlot :=
  if r.session = false then (s, none)
  else match s.slot with
    | none => (s, none)
    | some slot =>
      if slot.isHoldingKv = false then (s, none)
      else if r.toFinish.isSome then (s.abortReq.setReq i { r with session := false }, none)
      else (s, some slot)

def freeTail (pageSize : Nat) (s : State) (slot : SessionSlot) (i : Nat) (r : Req)
    (prefixLen : Nat) : State :=
  let s := s.freeKvAligned pageSize slot.reqPoolIdx prefixLen slot.kvAllocatedLen
  let slot :=
    { slot with kvAllocatedLen := prefixLen, kvCommittedLen := min slot.kvCommittedLen prefixLen }
  let r := { r with kvAllocatedLen := prefixLen, kvCommittedLen := min r.kvCommittedLen prefixLen }
  { s with slot := some slot }.setReq i r

/-- `try_match_prefix`: `none` where the assertion fails; a request without a slot is left to the
inner cache. -/
def tryMatchPrefix (pageSize : Nat) (s : State) (i : Nat) (r : Req) (keyLen : Nat) : Option State :=
  match s.findActiveSlot i r with
  | (s, none) => some s
  | (s, some slot) =>
    let r := slot.restoreToReq r
    let prefixLen := min r.kvCommittedLen keyLen
    if prefixLen < slot.cacheProtectedLen then none
    else some (s.freeTail pageSize slot i r prefixLen)

def releaseSession (s : State) : State :=
  match s.slot with
  | none => s
  | some slot =>
    let s := { s with slot := none }
    let s := match slot.lastNode with
      | none => s
      | some node => { s with unlocked := s.unlocked ++ [node] }
    if slot.isHoldingKv then
      let s := if slot.cacheProtectedLen < slot.kvAllocatedLen then
          { s with freed :=
            s.freed ++ [(slot.reqPoolIdx, slot.cacheProtectedLen, slot.kvAllocatedLen)] }
        else s
      { s with freeSlots := s.freeSlots ++ [slot.reqPoolIdx] }
    else s

def trimOvershoot (pageSize : Nat) (s : State) (r : Req) (finishedLen : Nat) : State × Req :=
  let target := (s.array r.originInputIds).length + finishedLen
  (s.freeKvAligned pageSize r.reqPoolIdx target r.kvAllocatedLen,
    { r with
      kvAllocatedLen := min r.kvAllocatedLen target
      kvCommittedLen := min r.kvCommittedLen target
      outputIds := r.outputIds.take finishedLen })

/-- `try_cache_finished_req` of a request that is attached. -/
def tryCacheFinishedReq (pageSize : Nat) (s : State) (i : Nat) (r : Req) : State :=
  if r.finishedReason.any FinishReason.isAbort then
    -- the slot of the session, or a temporary one for a first turn
    let slot := s.slot.getD
      { reqPoolIdx := r.reqPoolIdx
        kvAllocatedLen := r.kvAllocatedLen
        lastNode := r.lastNode
        cacheProtectedLen := r.cacheProtectedLen }
    let slot := { slot with kvAllocatedLen := max slot.kvAllocatedLen r.kvAllocatedLen }
    ({ s with slot := some slot }.releaseSession.setReq i { r with reqPoolIdx := none }).abortReq
  else
    let finishedLen := r.finishedLen.getD r.outputIds.length
    let target := (s.array r.originInputIds).length + finishedLen
    let (s, r) := s.trimOvershoot pageSize r finishedLen
    let (slot, r) := (s.slot.getD {}).saveFromReq r s.slot.isNone
    let slot := { slot with kvCommittedLen := min target slot.kvAllocatedLen }
    ({ s with slot := some slot }.setReq i r).finishReq i r

/-- `release_kv_cache` of a request that has a row; a detached one is left to the inner cache. -/
def releaseKvCache (pageSize : Nat) (s : State) (i : Nat) (r : Req) : State :=
  if r.session then s.tryCacheFinishedReq pageSize i r
  else s.setReq i { r with reqPoolIdx := none }

def leave (s : State) (i : Nat) : State :=
    { s with reqs := s.reqs.modify i fun r => { r with done := true } }

end State

/-! ## Section 4: Steps -/

/-- What the inner cache and a forward pass write to a request. -/
structure Progress where
  row : Nat
  kvCommittedLen : Nat
  kvAllocatedLen : Nat
  lastNode : Option Nat
  cacheProtectedLen : Nat
  outputIds : List Nat
deriving DecidableEq, Repr

/-- The index is that of the request in `reqs`. -/
inductive Event where
  | create (bosTokenId : Option Nat) (recv : RecvReq)
  /-- `set_finish_with_abort` after `create_req`: a prompt that is too long, a failed grammar. -/
  | invalidate (i : Nat) (message : String)
  /-- Abort of a running request. -/
  | abortRunning (i : Nat)
  /-- Abort of a request of the waiting queue: the scheduler drops it. -/
  | abortQueued (i : Nat)
  /-- Abort of a request between two chunks of its prefill. -/
  | abortChunked (i : Nat)
  | matchPrefix (i : Nat) (keyLen : Nat)
  /-- `_refresh_fill_ids`. -/
  | refreshFillIds (i : Nat)
  | forward (i : Nat) (progress : Progress)
  /-- `update_finish_state`, where the request has a reason to finish. -/
  | updateFinishState (i : Nat) (finishedLen : Option Nat)
  /-- The KV of a finished request is released. -/
  | finish (i : Nat)
  /-- The KV of a running request is released: it is queued again, or aborted as the last one. -/
  | retract (i : Nat) (abort : Bool)
deriving DecidableEq, Repr

def State.refreshFillIds (s : State) (i : Nat) (r : Req) : State :=
  let origin := s.array r.originInputIds
  let fill := s.array r.fullUntruncatedFillIds
  if r.fullUntruncatedFillIds ≠ r.originInputIds ∧ origin.length ≤ fill.length ∧
      fill.length - origin.length ≤ r.outputIds.length then
    s.writeArray r.fullUntruncatedFillIds (fill ++ r.outputIds.drop (fill.length - origin.length))
  else
    let (s, fill) := s.newArray (origin ++ r.outputIds)
    s.setReq i { r with fullUntruncatedFillIds := fill }

/-- `update_finish_state`: a pending abort comes first. -/
def Req.updateFinishState (r : Req) (finishedLen : Option Nat) : Req :=
  if r.finishedReason.isSome then r
  else match r.toFinish with
    | some message => { r with finishedReason := some (.abort message), toFinish := none }
    | none => { r with finishedReason := some .other, finishedLen := finishedLen }

/-- The last request of the batch is to be aborted. -/
def Req.pickForRetract (r : Req) (abort : Bool) : Req :=
  if abort then
    { r with toFinish := some ("Out of memory even after retracting all other requests " ++
      "in the decode batch. Aborting the last request.") }
  else r

def Req.resetForRetract (r : Req) : Req :=
  { r with lastNode := none, cacheProtectedLen := 0, kvAllocatedLen := 0, kvCommittedLen := 0 }

/-- A request that is still in the scheduler. -/
def State.scheduled (s : State) (i : Nat) : Option Req := (s.reqs[i]?).filter fun r => !r.done

def reqStep (pageSize : Nat) (s : State) (i : Nat) (r : Req) : Event → Option State
  | .create _ _ => none
  | .invalidate _ message =>
    if r.finishedReason.isSome then none
    else
      let (s, r) := s.setFinishWithAbort r message
      some (s.setReq i r)
  | .abortRunning _ =>
    if r.finishedReason.isSome then none
    else some (s.setReq i { r with toFinish := some "Aborted" })
  | .abortQueued _ => if r.finishedReason.isSome then none else some (s.leave i)
  | .abortChunked _ =>
    if r.finishedReason.isSome ∨ r.reqPoolIdx.isNone then none
    else some (((s.releaseKvCache pageSize i
      { r with finishedReason := some (.abort "Aborted"), toFinish := none }).leave i))
  | .matchPrefix _ keyLen =>
    if r.finishedReason.isSome then none else s.tryMatchPrefix pageSize i r keyLen
  | .refreshFillIds _ => if r.finishedReason.isSome then none else some (s.refreshFillIds i r)
  | .forward _ progress =>
    if r.finishedReason.isSome then none
    else some (s.setReq i { r with
      reqPoolIdx := some (r.reqPoolIdx.getD progress.row)
      kvCommittedLen := progress.kvCommittedLen
      kvAllocatedLen := progress.kvAllocatedLen
      lastNode := progress.lastNode
      cacheProtectedLen := progress.cacheProtectedLen
      outputIds := r.outputIds ++ progress.outputIds })
  | .updateFinishState _ finishedLen => some (s.setReq i (r.updateFinishState finishedLen))
  | .finish _ =>
    if r.finishedReason.isNone ∨ r.reqPoolIdx.isNone then none
    else some ((s.releaseKvCache pageSize i r).leave i)
  | .retract _ abort =>
    if r.finishedReason.isSome ∨ r.reqPoolIdx.isNone then none
    else
      let s := s.releaseKvCache pageSize i (r.pickForRetract abort)
      let s := { s with reqs := s.reqs.modify i Req.resetForRetract }
      some (if abort then s.leave i else s)

def Event.request : Event → Option Nat
  | .create _ _ => none
  | .invalidate i _ | .abortRunning i | .abortQueued i | .abortChunked i | .matchPrefix i _ |
      .refreshFillIds i
  | .forward i _ | .updateFinishState i _ | .finish i | .retract i _ => some i

def step (pageSize : Nat) (s : State) (e : Event) : Option State :=
  match e with
  | .create bosTokenId recv => some (s.createReq bosTokenId recv)
  | e => e.request.bind fun i => (s.scheduled i).bind fun r => reqStep pageSize s i r e

end Sglang.Session
