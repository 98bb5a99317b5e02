import Mathlib.Data.List.Basic
import Sglang.Disaggregation.RoomStatus

/-!
# What the Transfer Worker Delivers

Model of `MooncakeKVManager.transfer_worker` (`disaggregation/mooncake/conn.py`) for one room: the
chunks of the request, its destinations, and what the transfer engine returns for each single
transfer.

- `sendKv`, `maybeSendExtra`: the transfers of one destination, and how their results are combined,
- `destLoop`: the loop over the destinations, with its early exits,
- `Worker.step`: a chunk is put into the queue, or the worker takes one.

## Conventions

- `delivered` records the pieces that were transferred with result zero, `nonzero` whether the
  engine has returned anything else.
- The results of the engine are part of the event, so that they are arbitrary at each attempt.
- A worker that raises is dead.
-/

namespace Sglang.Disaggregation.TransferWorker

open RoomStatus (KVPoll updateStatus)

/-! ## Section 1: Requests -/

inductive StateType where
  | mamba
  | swa
  | dsa
  | swaRing
  | c128State
  | minimaxIndexK
deriving DecidableEq

/-- `TransferKVChunk`, of one room. -/
structure Chunk where
  prefillKvIndices : List Nat
  indexSlice : Nat × Nat
  isLastChunk : Bool
  stateIndices : List (Option (List Nat))
deriving DecidableEq

/-- `TransferInfo` with the registration of its session. `dstStateDataPtrs` has the number of state
tensors of each component. -/
structure Destination where
  endpoint : String
  dstKvIndices : List Nat
  dstStateIndices : List (List Nat)
  requiredDstInfoNum : Nat
  isDummy : Bool
  dstAttnTpSize : Nat
  dstStateDataPtrs : List Nat
  staging : Bool
deriving DecidableEq

/-- What the manager of this rank is configured with. -/
structure Config where
  room : Nat
  isMlaBackend : Bool
  attnTpSize : Nat
  ppSize : Nat
  /-- `enable_staging`, with a staging strategy. -/
  enableStaging : Bool
  stateTypes : List StateType

/-- `check_ready`. -/
inductive Readiness where
  | ready
  | pending
  | oversized
deriving DecidableEq

/-- What one attempt at a destination meets. -/
structure Results where
  /-- The session is not in `failed_sessions`. -/
  alive : Bool
  ready : Readiness
  /-- The result of the bulk transfer of the staging path, `none` where it does not fit. -/
  staged : Option Int
  /-- The results of the KV transfers, one for each call of the engine. -/
  kv : List Int
  /-- The result for each state component. -/
  state : Nat → Int
  aux : Int

/-- What a destination is to receive. -/
inductive Piece where
  /-- The page at a position of the index list of the decode side. -/
  | page (k : Nat)
  | state (component : Nat)
  | aux
deriving DecidableEq

/-! ## Section 2: The transfers of one destination -/

/-- The status of the first call that fails, else zero. -/
def firstNonzero (results : List Int) : Int := (results.find? (· ≠ 0)).getD 0

/-- How the KV transfer of a chunk to one destination ends. -/
inductive KvSend where
  | raised
  | deferred
  | returned (ret : Int)
deriving DecidableEq

/-- The transfer of the KV, with `_do_staging_transfer`. -/
def sendKv (cfg : Config) (d : Destination) (pages : List Nat) (res : Results) : KvSend :=
  if pages.length = 0 then .returned 0
  else if cfg.isMlaBackend ∨ cfg.attnTpSize = d.dstAttnTpSize then .returned (firstNonzero res.kv)
  else if cfg.enableStaging ∧ d.staging then
    match res.ready with
    | .oversized => .raised
    | .pending => .deferred
    | .ready =>
      match res.staged with
      -- the slices are the fallback where the chunk does not fit
      | none => .returned (firstNonzero res.kv)
      | some ret => if ret ≠ 0 then .raised else .returned 0
  else .returned (firstNonzero res.kv)

/-- How the transfer of a state component ends: the result, and whether every index was sent. -/
inductive StateSend where
  | raised
  | skipped
  | returned (ret : Int) (complete : Bool)
deriving DecidableEq

/-- The transfer of rows, truncated to the shorter index list. -/
def sendRows (src dst : List Nat) (ret : Int) : StateSend :=
  if src.length = 0 ∨ dst.length = 0 then .returned 0 (src.length ≤ dst.length)
  else .returned ret (src.length ≤ dst.length)

/-- One turn of the loop of `maybe_send_extra`. -/
def sendState (cfg : Config) (d : Destination) (i : Nat) (st : StateType) (indices : List Nat)
    (ret : Int) :
    StateSend :=
  let dstIndices := d.dstStateIndices.getD i []
  match st with
  | .mamba =>
    if indices.length ≠ 1 then .raised
    else if d.dstStateDataPtrs.getD i 0 = 0 then .returned 0 false
    else if dstIndices.length = 0 then .raised
    else .returned ret true
  | .swa | .dsa =>
    if ¬ cfg.isMlaBackend ∧ cfg.attnTpSize ≠ d.dstAttnTpSize then .raised
    else sendRows indices dstIndices ret
  | .swaRing =>
    if ¬ cfg.isMlaBackend ∧ cfg.attnTpSize ≠ d.dstAttnTpSize then .raised
    else if indices.length ≠ dstIndices.length then .raised
    else sendRows indices dstIndices ret
  | .c128State =>
    if ¬ cfg.isMlaBackend ∧ cfg.attnTpSize ≠ d.dstAttnTpSize then .raised
    else if indices.length = 0 ∧ dstIndices.length = 0 then .skipped
    else if indices.length ≠ dstIndices.length then .raised
    else sendRows indices dstIndices ret
  | .minimaxIndexK =>
    if 1 < cfg.ppSize then .raised
    else if cfg.attnTpSize ≠ d.dstAttnTpSize then .raised
    else sendRows indices dstIndices ret

/-- What `maybe_send_extra` has done: its return code, the components that arrived, whether any
result was not zero, and whether it has raised. -/
structure ExtraSend where
  rc : Int
  arrived : List Nat
  nonzero : Bool
  raised : Bool

/-- `maybe_send_extra`, from component `i` on. -/
def maybeSendExtra (cfg : Config) (d : Destination) (stateIndices : List (Option (List Nat)))
    (state : Nat → Int) : List StateType → Nat → ExtraSend → ExtraSend
  | [], _, acc => acc
  | st :: sts, i, acc =>
    match stateIndices.getD i none with
    | none => maybeSendExtra cfg d stateIndices state sts (i + 1) acc
    | some indices =>
      match sendState cfg d i st indices (state i) with
      | .raised => { acc with raised := true }
      | .skipped => maybeSendExtra cfg d stateIndices state sts (i + 1) acc
      | .returned ret complete =>
        maybeSendExtra cfg d stateIndices state sts (i + 1)
          { acc with
            rc := if ret ≠ 0 then ret else acc.rc
            arrived := if ret = 0 ∧ complete then acc.arrived ++ [i] else acc.arrived
            nonzero := acc.nonzero || ret ≠ 0 }

/-! ## Section 3: The worker -/

/-- The part of the manager the worker touches, and what it has done. -/
structure Worker where
  requestStatus : Nat → Option KVPoll
  transferInfos : Option (List Destination)
  toSend : List Chunk
  queue : List Chunk
  delivered : List (String × Piece)
  nonzero : Bool
  /-- `sync_status_to_decode_endpoint`. -/
  reports : List (String × KVPoll)
  dead : Bool

/-- The state of one turn of `transfer_worker`. -/
structure Pass where
  worker : Worker
  chunk : Chunk
  polls : List Bool
  dstRanksInfos : List String
  stagingDeferred : Bool

/-- The room has failed at this destination. -/
def Pass.fail (p : Pass) (room : Nat) (endpoint : String) : Pass :=
  { p with worker := { p.worker with
      requestStatus := updateStatus p.worker.requestStatus room .failed
      reports := p.worker.reports ++ [(endpoint, .failed)] } }

/-- `dst_kv_indices[index_slice]`. -/
def chunkedDst (d : Destination) (chunk : Chunk) : List Nat :=
  (d.dstKvIndices.drop chunk.indexSlice.1).take (chunk.indexSlice.2 - chunk.indexSlice.1)

/-- The pages are cut to the indices of the destination, also for the destinations that follow. -/
def cutChunk (d : Destination) (chunk : Chunk) : Chunk :=
  { chunk with prefillKvIndices := chunk.prefillKvIndices.take (chunkedDst d chunk).length }

/-- The positions of the pages of a chunk. -/
def positions (chunk : Chunk) : List Nat :=
    List.range' chunk.indexSlice.1 chunk.prefillKvIndices.length

/-- The extra transfers of the last chunk. -/
def sendExtra (cfg : Config) (d : Destination) (res : Results) (chunk : Chunk) : ExtraSend :=
  if chunk.stateIndices = [] then ⟨0, [], false, false⟩
  else maybeSendExtra cfg d chunk.stateIndices res.state cfg.stateTypes 0 ⟨0, [], false, false⟩

/-- What the extra transfers and the aux transfer of the last chunk leave; the return code of
`maybe_send_extra` is not used. -/
def collectLast (d : Destination) (res : Results) (extra : ExtraSend) (p : Pass) : Pass :=
  { p with
    worker := { p.worker with
      delivered := p.worker.delivered ++ extra.arrived.map (fun i => (d.endpoint, Piece.state i)) ++
        (if res.aux = 0 then [(d.endpoint, Piece.aux)] else [])
      nonzero := p.worker.nonzero || extra.nonzero || res.aux ≠ 0 }
    polls := p.polls ++ [decide (res.aux = 0)]
    dstRanksInfos := p.dstRanksInfos ++ [d.endpoint] }

/-- The status is synced when all destinations have received the cache. -/
def settleLast (cfg : Config) (d : Destination) (p : Pass) : Pass :=
  if p.polls.length = d.requiredDstInfoNum then
    let status := if p.polls.all id then KVPoll.success else .failed
    { p with worker := { p.worker with
      requestStatus := updateStatus p.worker.requestStatus cfg.room status
      reports := p.worker.reports ++ p.dstRanksInfos.map fun e => (e, status) } }
  else p

/-- The end of a destination for the last chunk. -/
def finishLast (cfg : Config) (d : Destination) (res : Results) (p : Pass) : Pass × Bool :=
  let extra := sendExtra cfg d res p.chunk
  if extra.raised then
    ({ p with worker := { p.worker with
      delivered := p.worker.delivered ++ extra.arrived.map (fun i => (d.endpoint, Piece.state i))
      nonzero := p.worker.nonzero || extra.nonzero
      dead := true } }, true)
  else (settleLast cfg d (collectLast d res extra p), false)

def afterKv (cfg : Config) (d : Destination) (res : Results) (p : Pass) : Pass × Bool :=
  if p.chunk.isLastChunk then finishLast cfg d res p else (p, false)

/-- One destination; the second component says that the loop is left. -/
def sendTo (cfg : Config) (d : Destination) (res : Results) (p : Pass) : Pass × Bool :=
  if res.alive = false then (p.fail cfg.room d.endpoint, true)
  else
    let p := { p with chunk := cutChunk d p.chunk }
    match sendKv cfg d p.chunk.prefillKvIndices res with
    | .raised =>
      ({ p with worker := { p.worker with
          dead := true
          nonzero := p.worker.nonzero || (res.ready = .ready ∧ res.staged ≠ none) } }, true)
    | .deferred =>
      ({ p with
        worker := { p.worker with queue := p.worker.queue ++ [p.chunk] }
        stagingDeferred := true }, true)
    | .returned ret =>
      if ret ≠ 0 then
        ({ p with worker := { p.worker with nonzero := true } }.fail cfg.room d.endpoint, true)
      else
        afterKv cfg d res { p with worker := { p.worker with
          delivered := p.worker.delivered ++ (positions p.chunk).map fun k =>
            (d.endpoint, .page k) } }

/-- The loop over `reqs_to_be_processed`. -/
def destLoop (cfg : Config) (results : String → Results) : List Destination → Pass → Pass
  | [], p => p
  | d :: ds, p =>
    if d.isDummy then
      destLoop cfg results ds
        (if p.chunk.isLastChunk ∧ p.worker.requestStatus cfg.room ≠ none then
          { p with worker := { p.worker with
            requestStatus := updateStatus p.worker.requestStatus cfg.room .success } }
        else p)
    else
      match sendTo cfg d (results d.endpoint) p with
      | (p', true) => p'
      | (p', false) => destLoop cfg results ds p'

namespace Worker

/-- `add_transfer_request`, for the next chunk of the request. -/
def send (cfg : Config) (w : Worker) : Option Worker :=
  match w.toSend with
  | [] => none
  | chunk :: toSend =>
    let w := { w with toSend := toSend }
    if w.requestStatus cfg.room = none ∨ w.requestStatus cfg.room = some .failed then some w
    else if w.transferInfos = none then some w
    else some { w with queue := w.queue ++ [chunk] }

/-- One turn of `transfer_worker`. -/
def work (cfg : Config) (results : String → Results) (w : Worker) : Option Worker :=
  if w.dead then none
  else match w.queue with
    | [] => none
    | chunk :: queue =>
      let w := { w with queue := queue }
      if w.requestStatus cfg.room = none ∨ w.requestStatus cfg.room = some .failed then some w
      else
        let p := destLoop cfg results (w.transferInfos.getD []) ⟨w, chunk, [], [], false⟩
        if p.worker.dead ∨ p.stagingDeferred then some p.worker
        else if p.worker.requestStatus cfg.room = none ∨
            p.worker.requestStatus cfg.room = some .success then
          some { p.worker with transferInfos := none }
        else some p.worker

end Worker

inductive Event where
  | send
  | work (results : String → Results)

def Worker.step (cfg : Config) (w : Worker) : Event → Option Worker
  | .send => w.send cfg
  | .work results => w.work cfg results

/-- A request whose destinations have all arrived. -/
def Worker.init (cfg : Config) (dsts : List Destination) (chunks : List Chunk) : Worker :=
  ⟨Function.update (fun _ => none) cfg.room (some .waitingForInput), some dsts, chunks, [], [],
    false, [], false⟩

/-! ## Section 4: What a report promises -/

/-- The chunk has indices of the state component. -/
def Chunk.HasState (chunk : Chunk) (i : Nat) : Prop :=
  ∃ indices, chunk.stateIndices.getD i none = some indices ∧ indices ≠ []

/-- Everything of the request has been transferred to the endpoint. -/
structure Complete (cfg : Config) (chunks : List Chunk) (w : Worker) (endpoint : String) :
    Prop where
  pages : ∀ c ∈ chunks, ∀ k ∈ positions c, (endpoint, .page k) ∈ w.delivered
  state : ∀ c ∈ chunks, c.isLastChunk = true → ∀ i < cfg.stateTypes.length, c.HasState i →
    (endpoint, .state i) ∈ w.delivered
  aux : (endpoint, .aux) ∈ w.delivered

/-- A `Success` report means that everything was delivered, and a non-zero result makes the room
`Failed`. -/
structure Honest (cfg : Config) (chunks : List Chunk) (w : Worker) : Prop where
  complete : ∀ e, (e, .success) ∈ w.reports → Complete cfg chunks w e
  failed : w.nonzero = true → w.requestStatus cfg.room = some .failed

/-- What the sender and the bootstrap thread see to: one last chunk at the end, as many positions as
pages, as many destinations as each of them asks for, and a rank that is used by all of them or by
none. -/
structure WellFormed (dsts : List Destination) (chunks : List Chunk) : Prop where
  last : ∃ front last, chunks = front ++ [last] ∧ last.isLastChunk = true ∧
    ∀ c ∈ front, c.isLastChunk = false
  sized : ∀ c ∈ chunks, c.prefillKvIndices.length = c.indexSlice.2 - c.indexSlice.1
  admitted : ∀ d ∈ dsts, d.requiredDstInfoNum = dsts.length
  used : (∀ d ∈ dsts, d.isDummy = false) ∨ ∀ d ∈ dsts, d.isDummy = true

/-- The state transfers of the last chunk return zero, and the destination has a place for each
index. -/
def StateFine (cfg : Config) (d : Destination) (chunk : Chunk) (state : Nat → Int) : Prop :=
  ∀ i st indices, cfg.stateTypes[i]? = some st → chunk.stateIndices.getD i none = some indices →
    state i = 0 ∧ indices.length ≤ (d.dstStateIndices.getD i []).length ∧
      (st = .mamba → d.dstStateDataPtrs.getD i 0 ≠ 0)

/-- The indices of a component, the pointers and lists of the destination and the parallel sizes do
not go together. -/
def Misfits (cfg : Config) (d : Destination) (i : Nat) (st : StateType) (indices : List Nat) :
    Prop :=
  match st with
  | .mamba =>
    indices.length ≠ 1 ∨ d.dstStateDataPtrs.getD i 0 ≠ 0 ∧ d.dstStateIndices.getD i [] = []
  | .swa | .dsa => cfg.isMlaBackend = false ∧ cfg.attnTpSize ≠ d.dstAttnTpSize
  | .swaRing | .c128State =>
    (cfg.isMlaBackend = false ∧ cfg.attnTpSize ≠ d.dstAttnTpSize) ∨
      indices.length ≠ (d.dstStateIndices.getD i []).length
  | .minimaxIndexK => 1 < cfg.ppSize ∨ cfg.attnTpSize ≠ d.dstAttnTpSize

/-- Every component that the chunk brings goes together with the destination. -/
def Fits (cfg : Config) (d : Destination) (chunk : Chunk) : Prop :=
  ∀ i st indices, cfg.stateTypes[i]? = some st → chunk.stateIndices.getD i none = some indices →
    ¬ Misfits cfg d i st indices

/-- The chunk is neither put back nor given up at the destination. -/
def Uncut (cfg : Config) (d : Destination) (chunk : Chunk) (res : Results) : Prop :=
  (cfg.enableStaging = true → d.staging = true → res.ready = .ready) ∧ Fits cfg d chunk

/-- The turn of the worker meets none of the results that it does not look at. -/
def Fine (cfg : Config) (dsts : List Destination) (w : Worker) : Event → Prop
  | .send => True
  | .work results =>
    match w.queue with
    | [] => True
    | chunk :: queue =>
      (∀ d ∈ dsts, chunk.indexSlice.2 ≤ d.dstKvIndices.length) ∧
      -- no bulk transfer of the staging path fails
      (∀ d ∈ dsts, cfg.enableStaging = true → d.staging = true →
        (results d.endpoint).ready = .ready →
        ∀ ret ∈ (results d.endpoint).staged, ret = 0) ∧
      (chunk.isLastChunk = true →
        -- no chunk that was put back is left behind
        queue = [] ∧
        (∀ d ∈ dsts, StateFine cfg d chunk (results d.endpoint).state) ∧
        -- where aux data fails, the turn is not cut short
        ((∃ d ∈ dsts, (results d.endpoint).aux ≠ 0) → ∀ d ∈ dsts,
          Uncut cfg d chunk (results d.endpoint)))

/-! ## Section 5: The decode side -/

/-- The prefill ranks that have reported success for the room since it was cleared last. -/
def reportedBy (room : Nat) : List RoomStatus.DecodeEvent → List Nat → List Nat
  | [], ranks => ranks
  | .clear r :: events, ranks => reportedBy room events (if r = room then [] else ranks)
  | .statusMessage r .success rank :: events, ranks =>
    reportedBy room events (if r = room then rank :: ranks else ranks)
  | _ :: events, ranks => reportedBy room events ranks

end Sglang.Disaggregation.TransferWorker
