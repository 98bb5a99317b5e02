import Mathlib.Data.List.Basic
import Mathlib.Tactic

/-!
# Concurrency Limiter of the Gateway

The token bucket without refill, `concurrency_limit_middleware`, the queue processor and the tasks
it spawns, as one system that takes a step at a time.

A step is one access to what the tasks share: a critical section of the bucket, `notify_waiters`,
the creation of a `notified()` wait, an operation on the queue or on a permit channel. Deadlines
pass whenever the schedule says so. Tokens are counted as integers, and every request asks for one.

- `TokenBucket`: `try_acquire` and the addition of `return_tokens_sync`,
- `Client`, `Entry`: where the future of a request and its `QueuedRequest` are,
- `Limiter`: the shared state,
- `step`: one step of one task.
-/

namespace Sglang.Gateway

/-! ## Section 1: The bucket -/

/-- `TokenBucketInner` with the capacity, for a refill rate of zero. -/
structure TokenBucket where
  capacity : Nat
  tokens : Nat
deriving DecidableEq, Repr

namespace TokenBucket

/-- `TokenBucket::new(capacity, 0)`. -/
def new (capacity : Nat) : TokenBucket := ⟨capacity, capacity⟩

/-- `try_acquire_sync`: whether the tokens were there, and what is left. -/
def tryAcquireSync (b : TokenBucket) (tokens : Nat) : Bool × TokenBucket :=
  -- nothing is refilled, but the level is cut to the capacity
  let level := min b.tokens b.capacity
  if tokens ≤ level then (true, { b with tokens := level - tokens })
  else (false, { b with tokens := level })

/-- What `return_tokens_sync` does under the lock. -/
def add (b : TokenBucket) (tokens : Nat) : TokenBucket :=
  { b with tokens := min (b.tokens + tokens) b.capacity }

end TokenBucket

/-! ## Section 2: Requests -/

/-- The statuses that the limiter answers with. -/
inductive StatusCode where
  | tooManyRequests
  | requestTimeout
deriving DecidableEq, Repr

/-- Where the future of `concurrency_limit_middleware` is. -/
inductive Client where
  /-- `try_acquire` comes next. -/
  | arrived
  /-- No token was there, and the queue comes next. -/
  | refused
  /-- In `permit_rx.await`. -/
  | waiting
  /-- In `next.run(request).await`, with a token. -/
  | running
  /-- The response is out, and its body is a `TokenGuardBody`. -/
  | streaming
  /-- The guarded body is dropped. -/
  | finished
  /-- Answered without having run. -/
  | rejected (status : StatusCode)
  /-- Dropped before there was a response. -/
  | dropped
deriving DecidableEq, Repr

/-- Where the `QueuedRequest` of a request is. -/
inductive Entry where
  /-- The request was not sent to the queue. -/
  | absent
  /-- In the channel of the queue. -/
  | queued
  /-- In the hands of the processor, whose `try_acquire` comes next. -/
  | received
  /-- In a task of its own, where the first `try_acquire` of `acquire` comes next. -/
  | spawned
  /-- The last `try_acquire` failed, and the creation of the `notified()` wait comes next. -/
  | missed
  /-- The `notified()` wait exists. -/
  | parked
  /-- The wait was notified, and `try_acquire` comes next. -/
  | woken
  /-- A token was acquired, and `permit_tx.send(Ok(()))` comes next. -/
  | acquired
  /-- The deadline passed, and `permit_tx.send(Err(..))` comes next. -/
  | expired
  /-- The permit channel was used. -/
  | answered
deriving DecidableEq, Repr

structure Request where
  client : Client
  entry : Entry
  /-- What was sent over the permit channel and is not received yet. -/
  permit : Option (Except StatusCode Unit)

namespace Request

def new : Request := ⟨.arrived, .absent, none⟩

/-- `notify_waiters`: every wait that exists is notified, and nothing is stored. -/
def notified (req : Request) : Request :=
  { req with entry := if req.entry = .parked then .woken else req.entry }

/-- `permit_tx.send(value)`: the value is lost if the receiver is gone. -/
def answer (req : Request) (value : Except StatusCode Unit) : Request :=
  { req with
    entry := .answered
    permit := if req.client = .waiting then some value else none }

end Request

/-! ## Section 3: The system -/

structure Limiter where
  bucket : TokenBucket
  /-- Calls of `return_tokens_sync` that have added their tokens and have not notified yet. -/
  returning : Nat
  /-- Capacity of the queue, without queue if zero. -/
  queueSize : Nat
  queue : List Nat
  /-- The request whose entry the processor has in hand. -/
  processing : Option Nat
  requests : List Request

namespace Limiter

def new (capacity queueSize : Nat) : Limiter :=
  ⟨TokenBucket.new capacity, 0, queueSize, [], none, []⟩

/-- The limiter after request `r` has become `req`. -/
def update (s : Limiter) (r : Nat) (req : Request) : Limiter :=
  { s with requests := s.requests.set r req }

inductive Op where
  /-- A request comes in. -/
  | arrive
  /-- The middleware tries the bucket. -/
  | tryAcquire (r : Nat)
  /-- The middleware tries the queue. -/
  | enqueue (r : Nat)
  /-- `permit_rx.await` is ready. -/
  | receivePermit (r : Nat)
  /-- The handler has a response, and its body is wrapped. -/
  | respond (r : Nat)
  /-- `TokenGuardBody::drop`, up to the end of the critical section. -/
  | dropBody (r : Nat)
  /-- The future of the middleware is dropped at an await. -/
  | disconnect (r : Nat)
  /-- The rest of a call of `return_tokens_sync`. -/
  | notifyWaiters
  /-- The processor takes the next entry from the queue. -/
  | recv
  /-- The processor finds the queue timeout elapsed. -/
  | elapsed
  /-- The processor tries the bucket. -/
  | processorTry
  /-- A spawned task tries the bucket. -/
  | waiterTry (r : Nat)
  /-- A spawned task creates its `notified()` wait. -/
  | park (r : Nat)
  /-- `acquire_timeout` gives up. -/
  | timeout (r : Nat)
  /-- The processor or a spawned task sends its answer. -/
  | send (r : Nat)
deriving DecidableEq, Repr

/-- One step of one task, `none` where the task is not at that step. -/
def step (s : Limiter) : Op → Option Limiter
  | .arrive => some { s with requests := s.requests ++ [.new] }
  | .tryAcquire r => do
    let req ← s.requests[r]?
    if req.client = .arrived then
      let (ok, bucket) := s.bucket.tryAcquireSync 1
      some ({ s with bucket }.update r { req with client := if ok then .running else .refused })
    else none
  | .enqueue r => do
    let req ← s.requests[r]?
    if req.client = .refused then
      if s.queue.length < s.queueSize then
        some ({ s with queue := s.queue ++ [r] }.update r
          { req with client := .waiting, entry := .queued })
      else some (s.update r { req with client := .rejected .tooManyRequests })
    else none
  | .receivePermit r => do
    let req ← s.requests[r]?
    let permit ← req.permit
    if req.client = .waiting then
      match permit with
      | .ok () => some (s.update r { req with client := .running, permit := none })
      | .error status => some (s.update r { req with client := .rejected status, permit := none })
    else none
  | .respond r => do
    let req ← s.requests[r]?
    if req.client = .running then some (s.update r { req with client := .streaming }) else none
  | .dropBody r => do
    let req ← s.requests[r]?
    if req.client = .streaming then
      some ({ s with bucket := s.bucket.add 1, returning := s.returning + 1 }.update r
        { req with client := .finished })
    else none
  | .disconnect r => do
    let req ← s.requests[r]?
    -- the receiver of the permit channel goes with the future, and nothing gives the token back
    if req.client = .arrived ∨ req.client = .waiting ∨ req.client = .running then
      some (s.update r { req with client := .dropped, permit := none })
    else none
  | .notifyWaiters =>
    if 0 < s.returning then
      some { s with returning := s.returning - 1, requests := s.requests.map Request.notified }
    else none
  | .recv =>
    match s.processing, s.queue with
    | none, r :: rest => do
      let req ← s.requests[r]?
      some ({ s with processing := some r, queue := rest }.update r { req with entry := .received })
    | _, _ => none
  | .elapsed => do
    let r ← s.processing
    let req ← s.requests[r]?
    if req.entry = .received then some (s.update r { req with entry := .expired }) else none
  | .processorTry => do
    let r ← s.processing
    let req ← s.requests[r]?
    if req.entry = .received then
      let (ok, bucket) := s.bucket.tryAcquireSync 1
      if ok then some ({ s with bucket }.update r { req with entry := .acquired })
      else some ({ s with bucket, processing := none }.update r { req with entry := .spawned })
    else none
  | .waiterTry r => do
    let req ← s.requests[r]?
    if req.entry = .spawned ∨ req.entry = .woken then
      let (ok, bucket) := s.bucket.tryAcquireSync 1
      some ({ s with bucket }.update r { req with entry := if ok then .acquired else .missed })
    else none
  | .park r => do
    let req ← s.requests[r]?
    if req.entry = .missed then some (s.update r { req with entry := .parked }) else none
  | .timeout r => do
    let req ← s.requests[r]?
    if req.entry = .parked ∨ req.entry = .woken then
      some (s.update r { req with entry := .expired })
    else none
  | .send r => do
    let req ← s.requests[r]?
    let processing := if s.processing = some r then none else s.processing
    match req.entry with
    | .acquired => some ({ s with processing }.update r (req.answer (.ok ())))
    | .expired => some ({ s with processing }.update r (req.answer (.error .requestTimeout)))
    | _ => none

end Limiter

end Sglang.Gateway
