import Mathlib
import Sglang.Lib.Runs

/-!
# The Circuit Breaker

Model of `CircuitBreaker` (`core/circuit_breaker.rs`): its atomics, and the calls of `can_execute`
and `state`, `record_success` and `record_failure` as the sequences of single loads, stores, swaps,
exchanges and `fetch_add`s they perform.

- `CircuitBreaker`: the values of the atomics,
- `StatePc`, `SuccessPc`, `FailurePc`, `TransitionPc`: which operation of a call is the next one,
- `step`: one operation of one caller,
- `History`: what a run has done, for statements about it. No call reads it.

## Conventions

- The operations of all callers happen one after the other, in any order.
- `state` holds one of the three constants, and is the state it stands for.
- `now_ms()` is read by the operation that uses it, and comes with the step.
- `window_duration` and the metric label decide nothing.
-/

namespace Sglang.Circuit

/-! ## Section 1: The atomics -/

inductive CircuitState where
  | closed
  | opened
  | halfOpen
deriving DecidableEq

/-- `CircuitBreakerConfig`, with the timeout in milliseconds. -/
structure CircuitBreakerConfig where
  failureThreshold : UInt32
  successThreshold : UInt32
  timeoutMs : UInt64
deriving DecidableEq

structure CircuitBreaker where
  state : CircuitState
  consecutiveFailures : UInt32
  consecutiveSuccesses : UInt32
  totalFailures : UInt64
  totalSuccesses : UInt64
  lastFailureTimeMs : UInt64
  lastStateChangeMs : UInt64
deriving DecidableEq

/-- `with_config_and_label`. -/
def CircuitBreaker.new (now : UInt64) : CircuitBreaker where
  state := .closed
  consecutiveFailures := 0
  consecutiveSuccesses := 0
  totalFailures := 0
  totalSuccesses := 0
  lastFailureTimeMs := 0
  lastStateChangeMs := now

/-- `now_ms().saturating_sub(last_change_ms)`. -/
def elapsedMs (now lastChangeMs : UInt64) : UInt64 :=
    if lastChangeMs ≤ now then now - lastChangeMs else 0

/-! ## Section 2: The operations of a call -/

/-- Where `transition_to` is. The last two are the loads of `publish_gauge_metrics`. -/
inductive TransitionPc where
  | swap
  | storeChange
  | zeroFailures
  | zeroSuccesses
  | gaugeFailures
  | gaugeSuccesses
deriving DecidableEq

/-- Where `check_and_update_state_returning` is, after its first load. -/
inductive StatePc where
  | loadLastChange
  | compareExchange
  | storeChange
  | zeroFailures
  | zeroSuccesses
  | gaugeFailures
  | gaugeSuccesses
  | reread
deriving DecidableEq

/-- Where `record_success` is, after it has added to `total_successes`. -/
inductive SuccessPc where
  | zeroFailures
  | addSuccess
  | loadState (successes : UInt32)
  | transition (pc : TransitionPc)
deriving DecidableEq

/-- Where `record_failure` is, after it has added to `total_failures`. -/
inductive FailurePc where
  | zeroSuccesses
  | addFailure
  | storeTime (failures : UInt32)
  | loadState (failures : UInt32)
  | transition (pc : TransitionPc)
deriving DecidableEq

namespace CircuitBreaker

/-- An operation of `transition_to`, and the next one. -/
def transitionTo (newState : CircuitState) (now : UInt64) (b : CircuitBreaker) :
    TransitionPc → CircuitBreaker × Option TransitionPc
  | .swap => ({ b with state := newState }, if b.state ≠ newState then some .storeChange else none)
  | .storeChange =>
    ({ b with lastStateChangeMs := now },
      match newState with
      | .closed => some .zeroFailures
      | .opened => some .zeroSuccesses
      | .halfOpen => some .zeroFailures)
  | .zeroFailures => ({ b with consecutiveFailures := 0 }, some .zeroSuccesses)
  | .zeroSuccesses => ({ b with consecutiveSuccesses := 0 }, some .gaugeFailures)
  | .gaugeFailures => (b, some .gaugeSuccesses)
  | .gaugeSuccesses => (b, none)

/-- An operation of `check_and_update_state_returning`, and the next one or the state that is
returned. -/
def checkAndUpdateState (config : CircuitBreakerConfig) (now : UInt64) (b : CircuitBreaker) :
    StatePc → CircuitBreaker × (StatePc ⊕ CircuitState)
  | .loadLastChange =>
    (b, if config.timeoutMs ≤ elapsedMs now b.lastStateChangeMs then .inl .compareExchange
      else .inr .opened)
  | .compareExchange =>
    if b.state = .opened then ({ b with state := .halfOpen }, .inl .storeChange)
      else (b, .inl .reread)
  | .storeChange => ({ b with lastStateChangeMs := now }, .inl .zeroFailures)
  | .zeroFailures => ({ b with consecutiveFailures := 0 }, .inl .zeroSuccesses)
  | .zeroSuccesses => ({ b with consecutiveSuccesses := 0 }, .inl .gaugeFailures)
  | .gaugeFailures => (b, .inl .gaugeSuccesses)
  | .gaugeSuccesses => (b, .inr .halfOpen)
  | .reread => (b, .inr b.state)

/-- An operation of `record_success`, and the next one. -/
def recordSuccess (config : CircuitBreakerConfig) (now : UInt64) (b : CircuitBreaker) :
    SuccessPc → CircuitBreaker × Option SuccessPc
  | .zeroFailures => ({ b with consecutiveFailures := 0 }, some .addSuccess)
  | .addSuccess =>
    ({ b with consecutiveSuccesses := b.consecutiveSuccesses + 1 },
      some (.loadState (b.consecutiveSuccesses + 1)))
  | .loadState successes =>
    (b, match b.state with
      | .halfOpen => if config.successThreshold ≤ successes then some (.transition .swap) else none
      | .closed => none
      | .opened => none)
  | .transition pc => let x := transitionTo .closed now b pc; (x.1, x.2.map .transition)

/-- An operation of `record_failure`, and the next one. -/
def recordFailure (config : CircuitBreakerConfig) (now : UInt64) (b : CircuitBreaker) :
    FailurePc → CircuitBreaker × Option FailurePc
  | .zeroSuccesses => ({ b with consecutiveSuccesses := 0 }, some .addFailure)
  | .addFailure =>
    ({ b with consecutiveFailures := b.consecutiveFailures + 1 },
      some (.storeTime (b.consecutiveFailures + 1)))
  | .storeTime failures => ({ b with lastFailureTimeMs := now }, some (.loadState failures))
  | .loadState failures =>
    (b, match b.state with
      | .closed => if config.failureThreshold ≤ failures then some (.transition .swap) else none
      | .halfOpen => some (.transition .swap)
      | .opened => none)
  | .transition pc => let x := transitionTo .opened now b pc; (x.1, x.2.map .transition)

end CircuitBreaker

/-! ## Section 3: Callers -/

/-- A call. `can_execute` is a call of `state` here. -/
inductive Call where
  | state
  | recordSuccess
  | recordFailure
deriving DecidableEq

/-- Where a caller is. `returned` holds what its last call of `state` returned. -/
inductive Caller where
  | returned (result : Option CircuitState)
  | state (pc : StatePc)
  | recordSuccess (pc : SuccessPc)
  | recordFailure (pc : FailurePc)
deriving DecidableEq

def Call.first (b : CircuitBreaker) : Call → CircuitBreaker × Caller
  | .state => (b, if b.state = .opened then .state .loadLastChange else .returned (some b.state))
  | .recordSuccess =>
    ({ b with totalSuccesses := b.totalSuccesses + 1 }, .recordSuccess .zeroFailures)
  | .recordFailure =>
    ({ b with totalFailures := b.totalFailures + 1 }, .recordFailure .zeroSuccesses)

def Caller.next (config : CircuitBreakerConfig) (now : UInt64) (b : CircuitBreaker) :
    Caller → CircuitBreaker × Caller
  | .returned result => (b, .returned result)
  | .state pc =>
    let x := b.checkAndUpdateState config now pc
    (x.1, x.2.elim .state fun s => .returned (some s))
  | .recordSuccess pc =>
    let x := b.recordSuccess config now pc
    (x.1, x.2.elim (.returned none) .recordSuccess)
  | .recordFailure pc =>
    let x := b.recordFailure config now pc
    (x.1, x.2.elim (.returned none) .recordFailure)

/-! ## Section 4: What a run has done -/

/-- What the run has done. -/
structure History where
  /-- How often the state has changed. -/
  changes : Nat
  /-- The `record_success` calls that have counted themselves since the latest change into
  `HalfOpen`. -/
  successes : Nat
  /-- The `record_failure` calls that have completed since the latest change into `HalfOpen`. -/
  failures : Nat
  /-- `consecutive_successes` has been zero since the latest change into `HalfOpen`. -/
  cleared : Bool
  /-- `changes` and `cleared` when a caller last counted itself. -/
  counted : Nat → Nat × Bool

def History.init : History := ⟨0, 0, 0, true, fun _ => (0, false)⟩

/-- The state has changed into `HalfOpen`. -/
def IntoHalfOpen (b b' : CircuitBreaker) : Prop := b.state ≠ .halfOpen ∧ b'.state = .halfOpen

instance (b b' : CircuitBreaker) : Decidable (IntoHalfOpen b b') :=
    inferInstanceAs (Decidable (_ ∧ _))

/-- The operation adds to `consecutive_successes`. -/
def Caller.Counts (c : Caller) : Prop := c = .recordSuccess .addSuccess

instance (c : Caller) : Decidable c.Counts := inferInstanceAs (Decidable (_ = _))

/-- The operation is the last one of a `record_failure`. -/
def FailureCompletes : Caller → Caller → Bool
  | .recordFailure _, .returned _ => true
  | _, _ => false

/-- The history after the `i`-th caller has gone from `c` to `c'` and the atomics from `b` to
`b'`. -/
def History.record (h : History) (i : Nat) (c c' : Caller) (b b' : CircuitBreaker) : History where
  changes := if b.state ≠ b'.state then h.changes + 1 else h.changes
  successes := if IntoHalfOpen b b' then 0 else if c.Counts then h.successes + 1 else h.successes
  failures :=
    if IntoHalfOpen b b' then 0 else if FailureCompletes c c' then h.failures + 1 else h.failures
  cleared := b'.consecutiveSuccesses = 0 || (h.cleared && !decide (IntoHalfOpen b b'))
  counted := if c.Counts then Function.update h.counted i (h.changes, h.cleared) else h.counted

/-! ## Section 5: Steps -/

/-- The breaker, its callers, and what has been done. -/
structure World where
  breaker : CircuitBreaker
  callers : List Caller
  history : History

/-- A caller calls, or does the next operation of its call. -/
inductive Step where
  | begins (i : Nat) (call : Call)
  | goesOn (i : Nat) (now : UInt64)
deriving DecidableEq

/-- A new breaker with `n` callers. -/
def World.init (now : UInt64) (n : Nat) : World :=
  ⟨.new now, List.replicate n (.returned none), .init⟩

/-- After the `i`-th caller has done an operation. -/
def World.after (w : World) (i : Nat) (c : Caller) (x : CircuitBreaker × Caller) : World :=
  ⟨x.1, w.callers.set i x.2, w.history.record i c x.2 w.breaker x.1⟩

def step (config : CircuitBreakerConfig) (w : World) : Step → Option World
  | .begins i call =>
    match w.callers[i]? with
    | some (.returned result) => some (w.after i (.returned result) (call.first w.breaker))
    | _ => none
  | .goesOn i now =>
    match w.callers[i]? with
    | none => none
    | some (.returned _) => none
    | some c => some (w.after i c (c.next config now w.breaker))

end Sglang.Circuit
