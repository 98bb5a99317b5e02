import Mathlib
import Sglang.Gateway.CircuitBreaker

/-!
# The Probation of the Circuit Breaker

A recorder counts itself, loads the state, and swaps in a new one later: the swap applies a decision
that may be out of date.

- `Safe`: an operation does not close an open breaker, and closes a half-open one only after enough
  successes and no failure,
- `Orderly`: a decision to close is applied in the stretch of `HalfOpen` it was taken in, and the
  breaker does not become half-open while a recorder that opened it is still at work,
- `Effect`: what one operation of a call can do,
- `safe_of_orderly`: every operation of an orderly run is safe.
-/

namespace Sglang.Circuit

open List Option Function
open Lib (run Along)

/-! ## Section 1: What is promised, and under which condition -/

/-- The operation of a `record_failure` that has swapped in `Open` and has not completed. -/
def Caller.PastSwap : Caller → Prop
  | .recordFailure (.transition pc) => pc ≠ .swap
  | _ => False

instance : DecidablePred Caller.PastSwap
  | .recordFailure (.transition pc) => inferInstanceAs (Decidable (pc ≠ .swap))
  | .recordFailure .zeroSuccesses => isFalse id
  | .recordFailure .addFailure => isFalse id
  | .recordFailure (.storeTime _) => isFalse id
  | .recordFailure (.loadState _) => isFalse id
  | .returned _ => isFalse id
  | .state _ => isFalse id
  | .recordSuccess _ => isFalse id

/-- The probation is not skipped. -/
structure Safe (config : CircuitBreakerConfig) (w w' : World) : Prop where
  notSkipped : ¬(w.breaker.state = .opened ∧ w'.breaker.state = .closed)
  probation : w.breaker.state = .halfOpen → w'.breaker.state = .closed →
    config.successThreshold.toNat ≤ w.history.successes ∧ w.history.failures = 0

/-- What the operation of a caller relies on: where it closes the breaker, nothing has changed the
state since it counted itself, and the counter had been zero since the change into `HalfOpen`; where
it makes the breaker half-open, every recorder that opened it has completed. -/
def Caller.Orderly (w : World) (i : Nat) (c : Caller) : Prop :=
  (c = .recordSuccess (.transition .swap) → w.breaker.state ≠ .closed →
    w.history.counted i = (w.history.changes, true)) ∧
  (c = .state .compareExchange → w.breaker.state = .opened → ∀ d ∈ w.callers, ¬d.PastSwap)

instance (w : World) (i : Nat) : DecidablePred (Caller.Orderly w i) :=
  fun c => inferInstanceAs
    (Decidable ((c = _ → _ → _) ∧ (c = _ → _ → ∀ d ∈ w.callers, ¬d.PastSwap)))

def Orderly (w : World) : Step → Prop
  | .begins _ _ => True
  | .goesOn i _ => ∀ c ∈ w.callers[i]?, c.Orderly w i

instance (w : World) : DecidablePred (Orderly w)
  | .begins _ _ => isTrue trivial
  | .goesOn i _ => inferInstanceAs (Decidable (∀ c ∈ w.callers[i]?, c.Orderly w i))

/-! ## Section 2: What one operation can do -/

/-- What an operation of a caller can do to the atomics, and where the caller goes. -/
structure Effect (config : CircuitBreakerConfig) (c : Caller) (b : CircuitBreaker)
    (x : CircuitBreaker × Caller) : Prop where
  counter : x.1.consecutiveSuccesses = b.consecutiveSuccesses ∨ x.1.consecutiveSuccesses = 0 ∨
    c.Counts ∧ x.1.consecutiveSuccesses = b.consecutiveSuccesses + 1
  state : x.1.state = b.state ∨
    (c = .state .compareExchange ∧ b.state = .opened ∧ x.1.state = .halfOpen) ∨
    (c = .recordSuccess (.transition .swap) ∧ x.1.state = .closed) ∨
    (c = .recordFailure (.transition .swap) ∧ x.1.state = .opened)
  loads : ∀ n, x.2 = .recordSuccess (.loadState n) → c.Counts ∧ n = b.consecutiveSuccesses + 1
  decides : x.2 = .recordSuccess (.transition .swap) → ∃ n, c = .recordSuccess (.loadState n) ∧
    config.successThreshold ≤ n ∧ b.state = .halfOpen
  pastSwap : x.2.PastSwap → c.PastSwap ∨ x.1.state ≠ .halfOpen
  completes : FailureCompletes c x.2 = true → c.PastSwap ∨ x.1.state ≠ .halfOpen

variable {config : CircuitBreakerConfig} {b : CircuitBreaker} {now : UInt64}

theorem transitionTo_effect (newState : CircuitState) (pc : TransitionPc) :
    ((b.transitionTo newState now pc).1.state = b.state ∧ pc ≠ .swap ∨
      pc = .swap ∧ (b.transitionTo newState now pc).1.state = newState) ∧
    ((b.transitionTo newState now pc).1.consecutiveSuccesses = b.consecutiveSuccesses ∨
      (b.transitionTo newState now pc).1.consecutiveSuccesses = 0) ∧
    (b.transitionTo newState now pc).2 ≠ some .swap := by
  cases pc with
  | swap =>
    refine ⟨.inr ⟨rfl, rfl⟩, .inl rfl, ?_⟩
    unfold CircuitBreaker.transitionTo
    dsimp only
    split <;> simp
  | storeChange =>
    refine ⟨.inl ⟨rfl, by decide⟩, .inl rfl, ?_⟩
    cases newState <;> exact fun h => by cases h
  | zeroFailures => exact ⟨.inl ⟨rfl, by decide⟩, .inl rfl, fun h => by cases h⟩
  | zeroSuccesses => exact ⟨.inl ⟨rfl, by decide⟩, .inr rfl, fun h => by cases h⟩
  | gaugeFailures => exact ⟨.inl ⟨rfl, by decide⟩, .inl rfl, fun h => by cases h⟩
  | gaugeSuccesses => exact ⟨.inl ⟨rfl, by decide⟩, .inl rfl, fun h => by cases h⟩

theorem effect_state (pc : StatePc) :
    Effect config (.state pc) b ((Caller.state pc).next config now b) := by
  have hnext : ((Caller.state pc).next config now b).2 =
      (b.checkAndUpdateState config now pc).2.elim .state fun s => .returned (some s) := rfl
  have hother : (∃ pc', ((Caller.state pc).next config now b).2 = .state pc') ∨
      ∃ r, ((Caller.state pc).next config now b).2 = .returned r := by
    rw [hnext]
    cases (b.checkAndUpdateState config now pc).2 with
    | inl pc' => exact .inl ⟨pc', rfl⟩
    | inr s => exact .inr ⟨some s, rfl⟩
  refine { counter := ?_, state := ?_, loads := ?_, decides := ?_, pastSwap := ?_, completes := ?_ }
  · apply Or.imp_right Or.inl
    cases pc with
    | compareExchange =>
      unfold Caller.next CircuitBreaker.checkAndUpdateState
      dsimp only
      split <;> exact .inl rfl
    | zeroSuccesses => exact .inr rfl
    | _ => exact .inl rfl
  · cases pc with
    | compareExchange =>
      unfold Caller.next CircuitBreaker.checkAndUpdateState
      dsimp only
      split
      · next h => exact .inr (.inl ⟨rfl, h, rfl⟩)
      · exact .inl rfl
    | _ => exact .inl rfl
  · intro n h
    obtain ⟨pc', heq⟩ | ⟨r, heq⟩ := hother <;> rw [heq] at h <;> cases h
  · intro h
    obtain ⟨pc', heq⟩ | ⟨r, heq⟩ := hother <;> rw [heq] at h <;> cases h
  · intro h
    obtain ⟨pc', heq⟩ | ⟨r, heq⟩ := hother <;> rw [heq] at h <;> exact h.elim
  · exact fun h => by cases h

theorem effect_recordSuccess (pc : SuccessPc) :
    Effect config (.recordSuccess pc) b ((Caller.recordSuccess pc).next config now b) := by
  have hnext : ((Caller.recordSuccess pc).next config now b).2 =
      (b.recordSuccess config now pc).2.elim (.returned none) .recordSuccess := rfl
  have hsome : ∀ pc', ((Caller.recordSuccess pc).next config now b).2 = .recordSuccess pc' →
      (b.recordSuccess config now pc).2 = some pc' := by
    intro pc' h
    rw [hnext] at h
    cases heq : (b.recordSuccess config now pc).2 with
    | none =>
      rw [heq] at h
      cases h
    | some pc'' =>
      rw [heq] at h
      cases h
      rfl
  refine { counter := ?_, state := ?_, loads := ?_, decides := ?_, pastSwap := ?_, completes := ?_ }
  · -- the counter moves at `addSuccess`, and where the transition resets it
    cases pc with
    | zeroFailures => exact .inl rfl
    | addSuccess => exact .inr (.inr ⟨rfl, rfl⟩)
    | loadState n => exact .inl rfl
    | transition pc => exact (transitionTo_effect .closed pc).2.1.imp_right Or.inl
  · cases pc with
    | zeroFailures => exact .inl rfl
    | addSuccess => exact .inl rfl
    | loadState n => exact .inl rfl
    | transition pc =>
      obtain ⟨h, -⟩ | ⟨rfl, h⟩ := (@transitionTo_effect b now .closed pc).1
      · exact .inl h
      · exact .inr (.inr (.inl ⟨rfl, h⟩))
  · intro n h
    have hloads := hsome _ h
    cases pc with
    | zeroFailures => cases hloads
    | addSuccess =>
      cases hloads
      exact ⟨rfl, rfl⟩
    | loadState m =>
      unfold CircuitBreaker.recordSuccess at hloads
      dsimp only at hloads
      split at hloads
      · split at hloads <;> cases hloads
      · cases hloads
      · cases hloads
    | transition pc =>
      obtain ⟨pc', -, heq⟩ := map_eq_some_iff.mp hloads
      cases heq
  · -- only a half-open state that was read decides to close
    intro h
    have hdecides := hsome _ h
    cases pc with
    | zeroFailures => cases hdecides
    | addSuccess => cases hdecides
    | loadState n =>
      unfold CircuitBreaker.recordSuccess at hdecides
      dsimp only at hdecides
      split at hdecides
      · next hstate =>
        split at hdecides
        · next hn => exact ⟨n, rfl, hn, hstate⟩
        · cases hdecides
      · cases hdecides
      · cases hdecides
    | transition pc =>
      obtain ⟨pc', hpc, heq⟩ := map_eq_some_iff.mp hdecides
      cases heq
      exact absurd hpc (transitionTo_effect .closed pc).2.2
  · intro h
    rw [hnext] at h
    cases heq : (b.recordSuccess config now pc).2 <;> rw [heq] at h <;> exact h.elim
  · exact fun h => by cases h

theorem effect_recordFailure (pc : FailurePc) :
    Effect config (.recordFailure pc) b ((Caller.recordFailure pc).next config now b) := by
  have hnext : ((Caller.recordFailure pc).next config now b).2 =
      (b.recordFailure config now pc).2.elim (.returned none) .recordFailure := rfl
  have hother : ∀ pc', ((Caller.recordFailure pc).next config now b).2 ≠ .recordSuccess pc' := by
    intro pc' h
    rw [hnext] at h
    cases heq : (b.recordFailure config now pc).2 <;> rw [heq] at h <;> cases h
  -- a decision to open is applied at once, and what is left to do comes after the swap
  have hpast : ((Caller.recordFailure pc).next config now b).2.PastSwap ∨
        FailureCompletes (.recordFailure pc)
          ((Caller.recordFailure pc).next config now b).2 = true →
      (Caller.recordFailure pc).PastSwap ∨
        ((Caller.recordFailure pc).next config now b).1.state ≠ .halfOpen := by
    intro h
    cases pc with
    | zeroSuccesses => exact h.elim False.elim fun h => by cases h
    | addFailure => exact h.elim False.elim fun h => by cases h
    | storeTime n => exact h.elim False.elim fun h => by cases h
    | loadState n =>
      refine .inr fun hstate => ?_
      change b.state = .halfOpen at hstate
      rw [hnext] at h
      unfold CircuitBreaker.recordFailure at h
      dsimp only at h
      rw [hstate] at h
      exact h.elim (fun h => h rfl) fun h => by cases h
    | transition pc =>
      obtain ⟨-, hpc⟩ | ⟨rfl, hstate⟩ := (@transitionTo_effect b now .opened pc).1
      · exact .inl hpc
      · refine .inr fun hhalf => ?_
        change (b.transitionTo .opened now .swap).1.state = .halfOpen at hhalf
        rw [hstate] at hhalf
        cases hhalf
  refine { counter := ?_, state := ?_, loads := ?_, decides := ?_, pastSwap := ?_, completes := ?_ }
  · apply Or.imp_right Or.inl
    cases pc with
    | zeroSuccesses => exact .inr rfl
    | addFailure => exact .inl rfl
    | storeTime n => exact .inl rfl
    | loadState n => exact .inl rfl
    | transition pc => exact (transitionTo_effect .opened pc).2.1
  · cases pc with
    | zeroSuccesses => exact .inl rfl
    | addFailure => exact .inl rfl
    | storeTime n => exact .inl rfl
    | loadState n => exact .inl rfl
    | transition pc =>
      obtain ⟨h, -⟩ | ⟨rfl, h⟩ := (@transitionTo_effect b now .opened pc).1
      · exact .inl h
      · exact .inr (.inr (.inr ⟨rfl, h⟩))
  · exact fun n h => absurd h (hother _)
  · exact fun h => absurd h (hother _)
  · exact fun h => hpast (.inl h)
  · exact fun h => hpast (.inr h)

theorem effect_next (c : Caller) : Effect config c b (c.next config now b) := by
  cases c with
  | returned r =>
    exact ⟨.inl rfl, .inl rfl, fun _ h => (by cases h), fun h => (by cases h), False.elim,
      fun h => (by cases h)⟩
  | state pc => exact effect_state pc
  | recordSuccess pc => exact effect_recordSuccess pc
  | recordFailure pc => exact effect_recordFailure pc

theorem effect_first (r : Option CircuitState) (call : Call) :
    Effect config (.returned r) b (call.first b) := by
  cases call with
  | state =>
    unfold Call.first
    dsimp only
    split
    all_goals
      exact ⟨.inl rfl, .inl rfl, fun _ h => (by cases h), fun h => (by cases h), False.elim,
        fun h => (by cases h)⟩
  | recordSuccess =>
    exact ⟨.inl rfl, .inl rfl, fun _ h => (by cases h), fun h => (by cases h), False.elim,
      fun h => (by cases h)⟩
  | recordFailure =>
    exact ⟨.inl rfl, .inl rfl, fun _ h => (by cases h), fun h => (by cases h), False.elim,
      fun h => (by cases h)⟩

/-! ## Section 3: The invariant -/

/-- What a caller knows while nothing has changed the state since it counted itself. -/
def Caller.Sound (config : CircuitBreakerConfig) (b : CircuitBreaker) (h : History) (i : Nat) :
    Caller → Prop
  | .recordSuccess (.loadState n) => h.counted i = (h.changes, true) → n.toNat ≤ h.successes
  | .recordSuccess (.transition .swap) => h.counted i = (h.changes, true) →
    config.successThreshold.toNat ≤ h.successes ∧ b.state = .halfOpen
  | _ => True

/-- The invariant of orderly runs. -/
structure Coherent (config : CircuitBreakerConfig) (w : World) : Prop where
  bound : w.history.cleared = true → w.breaker.consecutiveSuccesses.toNat ≤ w.history.successes
  counted_le : ∀ i, (w.history.counted i).1 ≤ w.history.changes
  sound : ∀ (i : Nat) (c : Caller), w.callers[i]? = some c → c.Sound config w.breaker w.history i
  probing : w.breaker.state = .halfOpen → w.history.failures = 0 ∧ ∀ c ∈ w.callers, ¬c.PastSwap

theorem coherent_init (now : UInt64) (n : Nat) : Coherent config (.init now n) where
  bound := fun _ => Nat.le_refl 0
  counted_le := fun _ => Nat.le_refl 0
  sound := by
    intro i c hc
    obtain ⟨-, rfl⟩ := mem_replicate.mp (mem_of_getElem? hc)
    trivial
  probing := fun h => by cases h

theorem History.record_changes (h : History) (i : Nat) (c c' : Caller) (b b' : CircuitBreaker) :
    b'.state = b.state ∧ (h.record i c c' b b').changes = h.changes ∧
        h.successes ≤ (h.record i c c' b b').successes ∨
      b'.state ≠ b.state ∧ (h.record i c c' b b').changes = h.changes + 1 := by
  unfold record
  dsimp only
  by_cases hstate : b.state = b'.state
  · refine .inl ⟨hstate.symm, if_neg (not_not_intro hstate), ?_⟩
    rw [if_neg (by unfold IntoHalfOpen; rw [hstate]; exact fun h => h.1 h.2)]
    split
    · exact Nat.le_succ _
    · exact Nat.le_refl _
  · exact .inr ⟨Ne.symm hstate, if_pos hstate⟩

variable {w : World} {i j : Nat} {c d : Caller} {x : CircuitBreaker × Caller}

theorem counted_other (h : Coherent config w) (hij : j ≠ i)
    (heq : (w.history.record i c x.2 w.breaker x.1).counted j =
      ((w.history.record i c x.2 w.breaker x.1).changes, true)) :
    w.history.counted j = (w.history.changes, true) ∧ x.1.state = w.breaker.state ∧
      w.history.successes ≤ (w.history.record i c x.2 w.breaker x.1).successes := by
  have hcounted : (w.history.record i c x.2 w.breaker x.1).counted j = w.history.counted j := by
    unfold History.record
    dsimp only
    split
    · exact update_of_ne hij _ _
    · rfl
  obtain ⟨hstate, hchanges, hsucc⟩ | ⟨-, hchanges⟩ :=
    w.history.record_changes i c x.2 w.breaker x.1
  · rw [hcounted, hchanges] at heq
    exact ⟨heq, hstate, hsucc⟩
  · have hle := h.counted_le j
    rw [← hcounted, heq, hchanges] at hle
    exact absurd hle (Nat.not_succ_le_self _)

theorem sound_other (h : Coherent config w) (hd : d.Sound config w.breaker w.history j)
    (hij : j ≠ i) :
    d.Sound config x.1 (w.history.record i c x.2 w.breaker x.1) j := by
  cases d with
  | returned r => trivial
  | state pc => trivial
  | recordFailure pc => trivial
  | recordSuccess pc =>
    cases pc with
    | zeroFailures => trivial
    | addSuccess => trivial
    | loadState n =>
      intro heq
      obtain ⟨hold, -, hsucc⟩ := counted_other h hij heq
      exact (hd hold).trans hsucc
    | transition pc =>
      cases pc with
      | swap =>
        intro heq
        obtain ⟨hold, hstate, hsucc⟩ := counted_other h hij heq
        exact ⟨(hd hold).1.trans hsucc, hstate.trans (hd hold).2⟩
      | _ => trivial

/-! ## Section 4: One operation -/

theorem bound_after (h : Coherent config w) (heff : Effect config c w.breaker x)
    (hcleared : (w.history.record i c x.2 w.breaker x.1).cleared = true) :
    x.1.consecutiveSuccesses.toNat ≤ (w.history.record i c x.2 w.breaker x.1).successes := by
  by_cases hzero : x.1.consecutiveSuccesses = 0
  · rw [hzero]
    exact Nat.zero_le _
  · have hold : w.history.cleared = true ∧ ¬IntoHalfOpen w.breaker x.1 := by
      unfold History.record at hcleared
      simpa [hzero] using hcleared
    have hbound := h.bound hold.1
    unfold History.record
    dsimp only
    rw [if_neg hold.2]
    obtain heq | heq | ⟨hcounts, heq⟩ := heff.counter
    · rw [heq]
      split
      · exact hbound.trans (Nat.le_succ _)
      · exact hbound
    · exact absurd heq hzero
    · rw [if_pos hcounts, heq, UInt32.toNat_add]
      exact (Nat.mod_le _ _).trans (Nat.succ_le_succ hbound)

theorem state_eq_of_recordSuccess (heff : Effect config c w.breaker x) {pc : SuccessPc}
    (hc : c = .recordSuccess pc) (hpc : pc ≠ .transition .swap) : x.1.state = w.breaker.state := by
  obtain heq | ⟨heq, -⟩ | ⟨heq, -⟩ | ⟨heq, -⟩ := heff.state
  · exact heq
  · rw [hc] at heq
    cases heq
  · rw [hc] at heq
    cases heq
    exact absurd rfl hpc
  · rw [hc] at heq
    cases heq

section

variable (h : Coherent config w) (hc : w.callers[i]? = some c) (heff : Effect config c w.breaker x)
include h hc heff

theorem sound_self :
    x.2.Sound config x.1 (w.history.record i c x.2 w.breaker x.1) i := by
  cases hx : x.2 with
  | returned r => trivial
  | state pc => trivial
  | recordFailure pc => trivial
  | recordSuccess pc =>
    cases pc with
    | zeroFailures => trivial
    | addSuccess => trivial
    | loadState n =>
      obtain ⟨hcounts, rfl⟩ := heff.loads n hx
      have hstate := state_eq_of_recordSuccess heff hcounts (by decide)
      have hinto : ¬IntoHalfOpen w.breaker x.1 := by
        rintro ⟨hne, heq⟩
        exact hne (hstate.symm.trans heq)
      intro heq
      unfold History.record at heq ⊢
      dsimp only at heq ⊢
      rw [if_pos hcounts, update_self] at heq
      rw [if_neg hinto, if_pos hcounts, UInt32.toNat_add]
      exact (Nat.mod_le _ _).trans (Nat.succ_le_succ (h.bound (Prod.mk.inj heq).2))
    | transition pc =>
      cases pc with
      | swap =>
        obtain ⟨n, rfl, hn, hhalf⟩ := heff.decides hx
        have hstate := state_eq_of_recordSuccess heff rfl (by intro h; cases h)
        have hcounts : ¬Caller.Counts (.recordSuccess (.loadState n)) := by
          intro heq
          cases heq
        intro heq
        obtain ⟨-, hchanges, hsucc⟩ | ⟨hne, -⟩ :=
          w.history.record_changes i (.recordSuccess (.loadState n))
            (.recordSuccess (.transition .swap))
            w.breaker x.1
        · rw [hchanges] at heq
          unfold History.record at heq
          dsimp only at heq
          rw [if_neg hcounts] at heq
          refine ⟨?_, hstate.trans hhalf⟩
          exact (UInt32.le_iff_toNat_le.mp hn).trans ((h.sound i _ hc heq).trans hsucc)
        · exact absurd hstate hne
      | _ => trivial

theorem Coherent.after (hord : c.Orderly w i) : Coherent config (w.after i c x) where
  bound := bound_after h heff
  counted_le := by
    -- the history of changes only grows
    intro j
    have hle : w.history.changes ≤ (w.history.record i c x.2 w.breaker x.1).changes := by
      obtain ⟨-, heq, -⟩ | ⟨-, heq⟩ := w.history.record_changes i c x.2 w.breaker x.1
      · exact heq.ge
      · rw [heq]
        exact Nat.le_succ _
    apply Nat.le_trans _ hle
    change ((if c.Counts then update w.history.counted i (w.history.changes, w.history.cleared)
      else w.history.counted) j).1 ≤ _
    split
    · by_cases hij : j = i
      · rw [hij, update_self]
      · rw [update_of_ne hij]
        exact h.counted_le j
    · exact h.counted_le j
  sound := by
    intro j d hd
    by_cases hij : j = i
    · cases hij
      have hd' : x.2 = d := by
        change (w.callers.set i x.2)[i]? = some d at hd
        rw [getElem?_set_self (List.getElem?_eq_some_iff.mp hc).1] at hd
        exact Option.some.inj hd
      rw [← hd']
      exact sound_self h hc heff
    · change (w.callers.set i x.2)[j]? = some d at hd
      rw [getElem?_set_ne (Ne.symm hij)] at hd
      exact sound_other h (h.sound j d hd) hij
  probing := by
    intro hhalf
    change x.1.state = .halfOpen at hhalf
    -- a step that leaves the breaker half-open is not past a swap of its own
    have hnot : ¬c.PastSwap → ¬x.2.PastSwap ∧ FailureCompletes c x.2 = false := by
      intro hpast
      refine ⟨fun h => (heff.pastSwap h).elim hpast fun h => h hhalf, ?_⟩
      apply Bool.eq_false_of_not_eq_true
      exact fun h => (heff.completes h).elim hpast fun h => h hhalf
    by_cases hstate : w.breaker.state = .halfOpen
    · obtain ⟨hfailures, hpast⟩ := h.probing hstate
      obtain ⟨hself, hcompletes⟩ := hnot (hpast c (mem_of_getElem? hc))
      constructor
      · change (if IntoHalfOpen w.breaker x.1 then 0 else if FailureCompletes c x.2 then _ else _) =
          0
        rw [if_neg fun h => h.1 hstate, hcompletes]
        exact hfailures
      · intro d hd
        obtain hd | rfl := mem_or_eq_of_mem_set hd
        · exact hpast d hd
        · exact hself
    · -- the breaker becomes half-open, and no recorder that opened it is at work
      obtain heq | ⟨rfl, hopen, -⟩ | ⟨-, heq⟩ | ⟨-, heq⟩ := heff.state
      · exact absurd (heq.symm.trans hhalf) hstate
      · have hpast := hord.2 rfl hopen
        obtain ⟨hself, -⟩ := hnot id
        constructor
        · change (if IntoHalfOpen w.breaker x.1 then 0 else _) = 0
          exact if_pos ⟨hstate, hhalf⟩
        · intro d hd
          obtain hd | rfl := mem_or_eq_of_mem_set hd
          · exact hpast d hd
          · exact hself
      · rw [hhalf] at heq
        cases heq
      · rw [hhalf] at heq
        cases heq

theorem Coherent.safe (hord : c.Orderly w i) : Safe config w (w.after i c x) := by
  have hcloses : w.breaker.state ≠ .closed → x.1.state = .closed →
      config.successThreshold.toNat ≤ w.history.successes ∧ w.breaker.state = .halfOpen := by
    intro hne hclosed
    obtain heq | ⟨-, -, heq⟩ | ⟨rfl, -⟩ | ⟨-, heq⟩ := heff.state
    · exact absurd (heq.symm.trans hclosed) hne
    · rw [hclosed] at heq
      cases heq
    · exact h.sound i _ hc (hord.1 rfl hne)
    · rw [hclosed] at heq
      cases heq
  constructor
  · rintro ⟨hopen, hclosed⟩
    have hhalf := (hcloses (by rw [hopen]; decide) hclosed).2
    rw [hopen] at hhalf
    cases hhalf
  · intro hhalf hclosed
    exact ⟨(hcloses (by rw [hhalf]; decide) hclosed).1, (h.probing hhalf).1⟩

end

theorem orderly_returned (r : Option CircuitState) : Caller.Orderly w i (.returned r) :=
  ⟨fun h => (by cases h), fun h => (by cases h)⟩

theorem step_cases {s : Step} {w' : World} (hstep : step config w s = some w')
    (hord : Orderly w s) :
    ∃ i c x, w.callers[i]? = some c ∧ Effect config c w.breaker x ∧ c.Orderly w i ∧
    w' = w.after i c x := by
  cases s with
  | begins i call =>
    simp only [step] at hstep
    split at hstep
    · next result hc =>
      cases hstep
      exact ⟨i, _, _, hc, effect_first result call, orderly_returned result, rfl⟩
    · cases hstep
  | goesOn i now =>
    simp only [step] at hstep
    split at hstep
    · cases hstep
    · cases hstep
    · next c _ hc =>
      cases hstep
      exact ⟨i, c, _, hc, effect_next c, hord c hc, rfl⟩

/-! ## Section 5: Runs -/

/-- Where every decision to close is applied in the stretch it was taken in, no operation of a run
skips the probation or cuts it short. -/
theorem safe_of_orderly (config : CircuitBreakerConfig) (created : UInt64) (callers : Nat)
    {steps : List Step} (h : Along (step config) Orderly (.init created callers) steps) :
    Along (step config) (fun w s => ∀ w', step config w s = some w' → Safe config w w')
      (.init created callers) steps := by
  have hkeep : ∀ w s w', Coherent config w → Orderly w s → step config w s = some w' →
      Coherent config w' := by
    intro w s w' hw hord hstep
    obtain ⟨i, c, x, hc, heff, hcaller, rfl⟩ := step_cases hstep hord
    exact hw.after hc heff hcaller
  refine (Along.invariant (Coherent config) hkeep (coherent_init created callers) h).imp ?_
  intro w s _ hw w' hstep
  obtain ⟨i, c, x, hc, heff, hcaller, rfl⟩ := step_cases hstep hw.2
  exact hw.1.safe hc heff hcaller

/-- The first `n` operations of a call, one after the other. -/
def alone (i : Nat) (call : Call) (now : UInt64) (n : Nat) : List Step :=
  .begins i call :: List.replicate n (.goesOn i now)

/-- A failure opens the breaker, a check after the timeout makes it half-open, a success closes
it. -/
def recovers : List Step :=
  alone 0 .recordFailure 5 9 ++ alone 0 .state 50 7 ++ alone 0 .recordSuccess 60 9

theorem safe_of_orderly_recovers :
    Along (step ⟨1, 1, 30⟩) (fun w s => ∀ w', step ⟨1, 1, 30⟩ w s = some w' → Safe ⟨1, 1, 30⟩ w w')
      (.init 0 1) recovers :=
  safe_of_orderly ⟨1, 1, 30⟩ 0 1 (by decide)

/-- A success is decided on, and before it is applied a failure opens the breaker again. -/
def overtaken : List Step :=
  alone 0 .recordFailure 5 9 ++ alone 0 .state 50 7 ++ alone 0 .recordSuccess 60 3 ++
    alone 1 .recordFailure 60 5

/-- A success is recorded while the breaker is open, another one after the change into `HalfOpen`,
before the counters are set back. -/
def countedBefore : List Step :=
  alone 0 .recordFailure 5 9 ++ alone 1 .recordSuccess 10 3 ++ alone 0 .state 50 2 ++
    alone 1 .recordSuccess 60 3

/-- A decision of the last probation closes an open breaker; and a breaker that wants two successes
is closed after one. -/
theorem probation_skipped :
    (∃ w w', run (step ⟨1, 1, 30⟩) (.init 0 2) overtaken = some w ∧
      step ⟨1, 1, 30⟩ w (.goesOn 0 70) = some w' ∧
      w.breaker.state = .opened ∧ w'.breaker.state = .closed ∧ ¬Safe ⟨1, 1, 30⟩ w w') ∧
    ∃ w w', run (step ⟨1, 2, 30⟩) (.init 0 2) countedBefore = some w ∧
      step ⟨1, 2, 30⟩ w (.goesOn 1 70) = some w' ∧
      w.breaker.state = .halfOpen ∧ w'.breaker.state = .closed ∧ w.history.successes = 1 ∧
      ¬Safe ⟨1, 2, 30⟩ w w' := by
  constructor
  · refine ⟨_, _, rfl, rfl, rfl, rfl, ?_⟩
    intro h
    exact h.notSkipped ⟨rfl, rfl⟩
  · refine ⟨_, _, rfl, rfl, rfl, rfl, rfl, ?_⟩
    intro h
    exact absurd (h.probation rfl rfl).1 (by decide)

end Sglang.Circuit
