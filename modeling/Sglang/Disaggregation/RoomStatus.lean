import Mathlib.Logic.Function.Basic
import Mathlib.Data.List.Basic
import Sglang.Lib.Runs

/-!
# The Status of a Transfer Room

Model of `request_status` of the KV managers (`disaggregation/common/conn.py`,
`disaggregation/mooncake/conn.py`) and of the threads that write to it.

- `updateStatus`: how a new status is merged with the old one,
- `PrefillManager.step`: the sender, the bootstrap thread and the transfer workers,
- `DecodeManager.step`: the receiver, the decode thread and the heartbeat checker,
- `Traced`: a run with what is remembered of each room since its last clear.

## Conventions

- A message, a call or the part of a worker for one destination is one step; between two
  destinations of a chunk the other threads may run.
- A step that is not possible, or that raises, is `none`.
- A sender on a dummy CP rank takes no part: the `Success` it writes itself, when it is given its
  last chunk, is no step.
-/

namespace Sglang.Disaggregation.RoomStatus

/-! ## Section 1: Status -/

/-- `KVPoll`, in the order of its values. -/
inductive KVPoll where
  | failed
  | bootstrapping
  | waitingForInput
  | transferring
  | success
deriving DecidableEq, Repr

def KVPoll.value : KVPoll → Nat
  | .failed => 0
  | .bootstrapping => 1
  | .waitingForInput => 2
  | .transferring => 3
  | .success => 4

/-- `max` of two statuses. -/
def KVPoll.max (a b : KVPoll) : KVPoll := if a.value < b.value then b else a

def updateStatus (requestStatus : Nat → Option KVPoll) (room : Nat) (status : KVPoll) :
    Nat → Option KVPoll :=
  match requestStatus room with
  | none =>
    if status = .failed then requestStatus else Function.update requestStatus room (some status)
  | some old =>
    if status = .failed then Function.update requestStatus room (some .failed)
    else Function.update requestStatus room (some (old.max status))

/-! ## Section 2: The prefill side -/

/-- `TransferInfo`, as far as the status depends on it. -/
structure TransferInfo where
  mooncakeSessionId : String
  requiredDstInfoNum : Nat
  isDummy : Bool
deriving DecidableEq

/-- A chunk in a transfer queue. -/
structure Chunk where
  room : Nat
  isLastChunk : Bool
deriving DecidableEq

/-- What became of the transfer of a chunk to one destination. -/
inductive Outcome where
  /-- The session is in `failed_sessions`. -/
  | deadSession
  /-- The KV transfer returned non-zero. -/
  | failed
  /-- The staging buffer is not ready: the chunk is put back. -/
  | deferred
  /-- The KV was sent; whether the aux data was, where the chunk is the last. -/
  | sent (aux : Bool)
deriving DecidableEq

/-- A transfer worker inside a chunk: the destinations left, and `polls`. -/
structure Worker where
  chunk : Chunk
  rest : List TransferInfo
  polls : List Bool
  stagingDeferred : Bool
deriving DecidableEq

structure PrefillManager where
  requestStatus : Nat → Option KVPoll
  transferInfos : Nat → Option (List TransferInfo)
  queues : Nat → List Chunk
  workers : Nat → Option Worker

/-- How a sender is made. -/
inductive SenderKind where
  | plain
  /-- `follow_bootstrap_room` names another rank. -/
  | conflict
  | dummyCpRank
deriving DecidableEq

inductive PrefillEvent where
  | construct (room : Nat) (kind : SenderKind)
  | metadata (room : Nat) (info : TransferInfo)
  | abortMessage (room : Nat)
  | timeout (room : Nat)
  | abort (room : Nat)
  | clear (room : Nat)
  /-- `add_transfer_request`, to the queue of a worker. -/
  | send (room : Nat) (isLastChunk : Bool) (worker : Nat)
  /-- A worker takes a chunk. -/
  | get (worker : Nat)
  /-- A worker is done with the next destination. -/
  | next (worker : Nat) (outcome : Outcome)
  /-- A worker is done with its chunk. -/
  | finish (worker : Nat)
deriving DecidableEq

namespace PrefillManager

def init : PrefillManager := ⟨fun _ => none, fun _ => none, fun _ => [], fun _ => none⟩

def update (m : PrefillManager) (room : Nat) (status : KVPoll) : PrefillManager :=
  { m with requestStatus := updateStatus m.requestStatus room status }

def setWorker (m : PrefillManager) (w : Nat) (worker : Option Worker) : PrefillManager :=
  { m with workers := Function.update m.workers w worker }

/-- `transfer_infos[room][session] = info`. -/
def addInfo (infos : List TransferInfo) (info : TransferInfo) : List TransferInfo :=
  if infos.any (·.mooncakeSessionId = info.mooncakeSessionId) then
    infos.map fun i => if i.mooncakeSessionId = info.mooncakeSessionId then info else i
  else infos ++ [info]

/-- `CommonKVSender.__init__`. -/
def construct (m : PrefillManager) (room : Nat) : SenderKind → PrefillManager
  | .plain => m.update room .bootstrapping
  | .conflict => (m.update room .bootstrapping).update room .failed
  | .dummyCpRank => m.update room .waitingForInput

/-- The bootstrap thread receives the destination of a decode rank. -/
def metadata (m : PrefillManager) (room : Nat) (info : TransferInfo) : PrefillManager :=
  let infos := addInfo ((m.transferInfos room).getD []) info
  let m := { m with transferInfos := Function.update m.transferInfos room (some infos) }
  if infos.length = info.requiredDstInfoNum then m.update room .waitingForInput else m

/-- The bootstrap thread receives `ABORT`. -/
def abortMessage (m : PrefillManager) (room : Nat) : PrefillManager :=
  match m.requestStatus room with
  | none => m
  | some status => if status = .success then m else m.update room .failed

def clear (m : PrefillManager) (room : Nat) : PrefillManager :=
  { m with
    requestStatus := Function.update m.requestStatus room none
    transferInfos := Function.update m.transferInfos room none }

/-- `add_transfer_request`. -/
def send (m : PrefillManager) (room : Nat) (isLastChunk : Bool) (w : Nat) : PrefillManager :=
  match m.requestStatus room, m.transferInfos room with
  | none, _ => m
  | some .failed, _ => m
  | some _, none => m
  | some _, some _ =>
    { m with queues := Function.update m.queues w (m.queues w ++ [⟨room, isLastChunk⟩]) }

/-- The head of the loop of `transfer_worker`. -/
def get (m : PrefillManager) (w : Nat) : Option PrefillManager :=
  match m.workers w, m.queues w with
  | none, chunk :: queue =>
    let m := { m with queues := Function.update m.queues w queue }
    match m.requestStatus chunk.room with
    | none => some m
    | some .failed => some m
    | some _ =>
      some (m.setWorker w (some ⟨chunk, (m.transferInfos chunk.room).getD [], [], false⟩))
  | _, _ => none

/-- One turn of the loop of `transfer_worker` over the destinations. -/
def next (m : PrefillManager) (w : Nat) (outcome : Outcome) : Option PrefillManager :=
  match m.workers w with
  | some ⟨chunk, info :: rest, polls, deferred⟩ =>
    if info.isDummy then
      let m' := if chunk.isLastChunk ∧
        m.requestStatus chunk.room ≠ none then m.update chunk.room .success
        else m
      some (m'.setWorker w (some ⟨chunk, rest, polls, deferred⟩))
    else match outcome with
      | .deadSession | .failed =>
        some ((m.update chunk.room .failed).setWorker w (some ⟨chunk, [], polls, deferred⟩))
      | .deferred =>
        some ({ m with queues := Function.update m.queues w (m.queues w ++ [chunk]) }.setWorker w
          (some ⟨chunk, [], polls, true⟩))
      | .sent aux =>
        if chunk.isLastChunk then
          let polls := polls ++ [aux]
          let m' := if polls.length = info.requiredDstInfoNum then
              m.update chunk.room (if polls.all id then .success else .failed)
            else m
          some (m'.setWorker w (some ⟨chunk, rest, polls, deferred⟩))
        else some (m.setWorker w (some ⟨chunk, rest, polls, deferred⟩))
  | _ => none

/-- The end of the loop of `transfer_worker`. -/
def finish (m : PrefillManager) (w : Nat) : Option PrefillManager :=
  match m.workers w with
  | some ⟨chunk, [], _, deferred⟩ =>
    let m := m.setWorker w none
    if deferred then some m
    else if m.requestStatus chunk.room = none ∨ m.requestStatus chunk.room = some .success then
      some { m with transferInfos := Function.update m.transferInfos chunk.room none }
    else some m
  | _ => none

def step (m : PrefillManager) : PrefillEvent → Option PrefillManager
  | .construct room kind => some (m.construct room kind)
  | .metadata room info => some (m.metadata room info)
  | .abortMessage room => some (m.abortMessage room)
  -- `poll` looks at the clock while the room is bootstrapping
  | .timeout room =>
    if m.requestStatus room = some .bootstrapping then some (m.update room .failed) else none
  | .abort room => some (m.update room .failed)
  | .clear room => some (m.clear room)
  | .send room isLastChunk w => some (m.send room isLastChunk w)
  | .get w => m.get w
  | .next w outcome => m.next w outcome
  | .finish w => m.finish w

end PrefillManager

/-- The events that may give a room its entry: a sender is made, or a decode rank asks for the
room. -/
def PrefillEvent.opens : PrefillEvent → Option Nat
  | .construct room _ => some room
  | .metadata room _ => some room
  | _ => none

/-! ## Section 3: The decode side -/

structure DecodeManager where
  requestStatus : Nat → Option KVPoll
  requiredPrefillResponseNumTable : Nat → Option Nat
  prefillResponseTracker : Nat → List Nat

/-- How `CommonKVReceiver.init` ends. -/
inductive InitOutcome where
  /-- The prefill server is down. -/
  | down
  /-- A bootstrap info could not be fetched. -/
  | noBootstrapInfo (requiredPrefillResponseNum : Nat)
  | ready (requiredPrefillResponseNum : Nat)
deriving DecidableEq

inductive DecodeEvent where
  | construct (room : Nat)
  | init (room : Nat) (outcome : InitOutcome)
  /-- `send_metadata` without bootstrap infos. -/
  | metadataFailed (room : Nat)
  | statusMessage (room : Nat) (status : KVPoll) (prefillRank : Nat)
  | timeout (room : Nat)
  /-- The heartbeat checker gives a prefill node up: the rooms of its address. -/
  | nodeFailure (rooms : List Nat)
  | abort (room : Nat)
  | clear (room : Nat)
deriving DecidableEq

namespace DecodeManager

def init : DecodeManager := ⟨fun _ => none, fun _ => none, fun _ => []⟩

def update (m : DecodeManager) (room : Nat) (status : KVPoll) : DecodeManager :=
  { m with requestStatus := updateStatus m.requestStatus room status }

/-- `CommonKVReceiver.init`. -/
def initReceiver (m : DecodeManager) (room : Nat) : InitOutcome → DecodeManager
  | .down => m.update room .failed
  | .noBootstrapInfo n =>
    { m with
      requiredPrefillResponseNumTable :=
        Function.update m.requiredPrefillResponseNumTable room (some n) }.update room .failed
  | .ready n =>
    { m with
      requiredPrefillResponseNumTable :=
        Function.update m.requiredPrefillResponseNumTable room
          (some n) }.update room .waitingForInput

def statusMessage (m : DecodeManager) (room : Nat) (status : KVPoll) (prefillRank : Nat) :
    Option DecodeManager :=
  match status with
  | .success =>
    if m.requestStatus room = none then some m
    else do
      let tracker := (m.prefillResponseTracker room).insert prefillRank
      let m := { m with
        prefillResponseTracker := Function.update m.prefillResponseTracker room tracker }
      let expected ← m.requiredPrefillResponseNumTable room
      some (if tracker.length = expected then m.update room .success else m)
  | .failed => some (m.update room .failed)
  | _ => some m

/-- `_handle_node_failure`, for one room. -/
def loseNode (m : DecodeManager) (room : Nat) : DecodeManager :=
  match m.requestStatus room with
  | none => m
  | some status => if status = .success then m else m.update room .failed

def clear (m : DecodeManager) (room : Nat) : DecodeManager where
  requestStatus := Function.update m.requestStatus room none
  requiredPrefillResponseNumTable := Function.update m.requiredPrefillResponseNumTable room none
  prefillResponseTracker := Function.update m.prefillResponseTracker room []

def step (m : DecodeManager) : DecodeEvent → Option DecodeManager
  | .construct room => some (m.update room .bootstrapping)
  | .init room outcome => some (m.initReceiver room outcome)
  | .metadataFailed room => some (m.update room .failed)
  | .statusMessage room status prefillRank => m.statusMessage room status prefillRank
  | .timeout room =>
    if m.requestStatus room = some .waitingForInput then some (m.update room .failed) else none
  | .nodeFailure rooms => some (rooms.foldl loseNode m)
  | .abort room => some (m.update room .failed)
  | .clear room => some (m.clear room)

end DecodeManager

/-- The events that may give a room its entry: a receiver is made or initialised. -/
def DecodeEvent.opens : DecodeEvent → Option Nat
  | .construct room => some room
  | .init room _ => some room
  | _ => none

/-! ## Section 4: What is remembered of a room -/

/-- A manager, whether each room has been `Failed` since its last clear, and whether anything has
opened it since. -/
structure Traced (σ : Type) where
  manager : σ
  hasFailed : Nat → Bool
  opened : Nat → Bool

section Trace

variable {σ ε : Type}

def tracedStep (step : σ → ε → Option σ) (status : σ → Nat → Option KVPoll) (opens : ε → Option Nat)
    (t : Traced σ) (e : ε) : Option (Traced σ) := do
  let m ← step t.manager e
  some
    { manager := m
      hasFailed := fun r =>
        match status m r with
        | none => false
        | some .failed => true
        | some _ => t.hasFailed r
      opened := fun r => opens e = some r ∨ (status m r ≠ none ∧ t.opened r = true) }

def Traced.start (m : σ) : Traced σ := ⟨m, fun _ => false, fun _ => false⟩

/-- A room that has failed and was not cleared is not `Success`, and a room that was cleared has no
entry until it is opened again, so that the next request finds it `Bootstrapping`. -/
structure StatusFinal (status : σ → Nat → Option KVPoll) (t : Traced σ) : Prop where
  final : ∀ r, t.hasFailed r = true → status t.manager r ≠ some .success
  cleared : ∀ r, t.opened r = false → status t.manager r = none
  fresh : ∀ r, t.opened r = false →
    updateStatus (status t.manager) r .bootstrapping r = some .bootstrapping

end Trace

def prefillStep : Traced PrefillManager → PrefillEvent → Option (Traced PrefillManager) :=
  tracedStep PrefillManager.step PrefillManager.requestStatus PrefillEvent.opens

def decodeStep : Traced DecodeManager → DecodeEvent → Option (Traced DecodeManager) :=
  tracedStep DecodeManager.step DecodeManager.requestStatus DecodeEvent.opens

end Sglang.Disaggregation.RoomStatus
