import Mathlib.Data.List.Basic
import Mathlib.Data.List.Count
import Mathlib.Tactic
import Sglang.Gateway.ConcurrencyLimiter
import Sglang.Lib.Runs
import Sglang.Lib.Tally

/-!
# Slots Come Back and Waiters Wake Up

The tokens of the concurrency limiter over every interleaving of its tasks.

- `total_step`: the tokens in the bucket and in the hands of requests, before and after a step,
- `asleep_step`: how a step leaves a task asleep next to a token,
- `sound_iff_not_slips`: in which runs no slot is lost and no waiter oversleeps,
- `slot_lost_and_waiter_asleep`: a run that loses a slot, and one that leaves a waiter asleep.
-/

namespace Sglang.Gateway

open List
open Lib (run Along sum_map_set le_sum_map sum_map_eq_zero countP_le_sum_map always_iff_along)

/-! ## Section 1: Who holds a token -/

namespace Request

/-- The tokens of a request that runs, that streams, or that was granted one. -/
def held (req : Request) : Nat :=
  match req.client with
  | .running => 1
  | .streaming => 1
  | .waiting => if req.entry = .acquired ∨ req.permit.any Except.isOk then 1 else 0
  | _ => 0

/-- Whether nothing more happens for the client. -/
def settled (req : Request) : Bool :=
  match req.client with
  | .finished => true
  | .rejected _ => true
  | .dropped => true
  | _ => false

/-- How far the future, the queued request and the permit channel can be apart. -/
def Consistent (req : Request) : Prop :=
  match req.client with
  | .arrived => req.entry = .absent ∧ req.permit = none
  | .refused => req.entry = .absent ∧ req.permit = none
  | .waiting => req.entry ≠ .absent ∧ (req.permit = none ↔ req.entry ≠ .answered)
  | .dropped => req.permit = none
  | _ => (req.entry = .absent ∨ req.entry = .answered) ∧ req.permit = none

theorem Consistent.notified {req : Request} (h : req.Consistent) : req.notified.Consistent := by
  obtain ⟨client, entry, permit⟩ := req
  cases client <;> cases entry <;> simp_all [Consistent, Request.notified]

theorem held_notified (req : Request) : req.notified.held = req.held := by
  obtain ⟨client, entry, permit⟩ := req
  cases client <;> cases entry <;> simp [notified, held]

theorem held_le_one (req : Request) : req.held ≤ 1 := by
  unfold held
  split
  · exact le_refl 1
  · exact le_refl 1
  · split <;> omega
  · exact Nat.zero_le 1

theorem Consistent.onTheWay {req : Request} (h : req.Consistent) (habsent : req.entry ≠ .absent)
    (hanswered : req.entry ≠ .answered) :
    req.permit = none ∧ (req.client = .waiting ∨ req.client = .dropped) := by
  obtain ⟨client, entry, permit⟩ := req
  cases client <;> simp_all [Consistent]

theorem Consistent.held_acquired {req : Request} (h : req.Consistent)
    (habsent : req.entry ≠ .absent) (hanswered : req.entry ≠ .answered)
    (hacquired : req.entry ≠ .acquired) :
    (req.client ≠ .dropped ∧ ({ req with entry := .acquired } : Request).held = req.held + 1) ∨
      (req.client = .dropped ∧ ({ req with entry := .acquired } : Request).held = req.held) := by
  obtain ⟨hpermit, hclient | hclient⟩ := h.onTheWay habsent hanswered
  · exact .inl ⟨by simp [hclient], by simp [held, hclient, hpermit, hacquired]⟩
  · exact .inr ⟨hclient, by simp only [held, hclient]⟩

theorem Consistent.held_answer {req : Request} (h : req.Consistent) {value : Except StatusCode Unit}
    (hentry : (req.entry = .acquired ∧ value = .ok ()) ∨
      (req.entry = .expired ∧ value = .error .requestTimeout)) :
    (req.answer value).held = req.held := by
  have hway :=
    h.onTheWay (by rcases hentry with h | h <;> simp [h]) (by rcases hentry with h | h <;> simp [h])
  obtain ⟨hpermit, hclient | hclient⟩ := hway
  · rcases hentry with ⟨hentry, rfl⟩ | ⟨hentry, rfl⟩ <;>
      simp [answer, held, hclient, hpermit, hentry, Except.isOk, Except.toBool]
  · simp only [answer, held, hclient]

end Request

namespace Limiter

def held (s : Limiter) : Nat := (s.requests.map Request.held).sum

/-- A task is parked next to a token, and nobody is about to notify. -/
def Asleep (s : Limiter) : Prop :=
  (∃ req ∈ s.requests, req.entry = .parked) ∧ 1 ≤ s.bucket.tokens ∧ s.returning = 0

/-- No slot is lost, none is issued twice, and no waiter is left asleep. -/
structure Sound (s : Limiter) : Prop where
  conserved : s.bucket.tokens + s.held = s.bucket.capacity
  atMost : s.requests.countP (fun req => req.client = .running) ≤ s.bucket.capacity
  allBack : (∀ req ∈ s.requests, req.settled = true) → s.bucket.tokens = s.bucket.capacity
  awake : ¬ s.Asleep

/-- The client of request `r` is gone. -/
def Gone (s : Limiter) (r : Nat) : Prop := ∃ req, s.requests[r]? = some req ∧ req.client = .dropped

/-- A step that takes a token out of circulation: the future of a request that holds one is dropped
before the body guard exists, or one is acquired for a client that is gone. -/
def Loses (s : Limiter) : Op → Prop
  | .disconnect r => ∃ req, s.requests[r]? = some req ∧ req.held = 1
  | .processorTry => 1 ≤ s.bucket.tokens ∧ ∃ r, s.processing = some r ∧ s.Gone r
  | .waiterTry r => 1 ≤ s.bucket.tokens ∧ s.Gone r
  | _ => False

/-- A wait is created after the token has come back and its notification is over. -/
def Oversleeps (s : Limiter) : Op → Prop
  | .park _ => 1 ≤ s.bucket.tokens ∧ s.returning = 0
  | _ => False

/-- The steps at which the limiter goes wrong. -/
def Slips (s : Limiter) (op : Op) : Prop := s.Loses op ∨ s.Oversleeps op

end Limiter

/-! ## Section 2: What a step does to a request -/

theorem TokenBucket.tryAcquireSync_eq {b : TokenBucket} (h : b.tokens ≤ b.capacity) :
    b.tryAcquireSync 1 =
      if 1 ≤ b.tokens then (true, { b with tokens := b.tokens - 1 }) else (false, b) := by
  simp only [tryAcquireSync, min_eq_left h]

namespace Limiter

/-- The steps that change one request: its state afterwards, and the rest of the limiter. -/
inductive Move (s : Limiter) (r : Nat) (req : Request) : Op → Request → Limiter → Prop where
  | admits (hclient : req.client = .arrived) (htoken : 1 ≤ s.bucket.tokens) :
      Move s r req (.tryAcquire r) { req with client := .running }
        { s with bucket := { s.bucket with tokens := s.bucket.tokens - 1 } }
  | refuse (hclient : req.client = .arrived) (htoken : ¬ 1 ≤ s.bucket.tokens) :
      Move s r req (.tryAcquire r) { req with client := .refused } s
  | enqueue (hclient : req.client = .refused) :
      Move s r req (.enqueue r) { req with client := .waiting, entry := .queued }
        { s with queue := s.queue ++ [r] }
  | full (hclient : req.client = .refused) :
      Move s r req (.enqueue r) { req with client := .rejected .tooManyRequests } s
  | granted (hclient : req.client = .waiting) (hpermit : req.permit = some (.ok ())) :
      Move s r req (.receivePermit r) { req with client := .running, permit := none } s
  | denied (status : StatusCode) (hclient : req.client = .waiting)
      (hpermit : req.permit = some (.error status)) :
      Move s r req (.receivePermit r) { req with client := .rejected status, permit := none } s
  | respond (hclient : req.client = .running) :
      Move s r req (.respond r) { req with client := .streaming } s
  | dropBody (hclient : req.client = .streaming) :
      Move s r req (.dropBody r) { req with client := .finished }
        { s with bucket := s.bucket.add 1, returning := s.returning + 1 }
  | disconnect (hclient : req.client = .arrived ∨ req.client = .waiting ∨ req.client = .running) :
      Move s r req (.disconnect r) { req with client := .dropped, permit := none } s
  | recv (rest : List Nat) (hprocessing : s.processing = none) (hqueue : s.queue = r :: rest) :
      Move s r req .recv { req with entry := .received }
      { s with processing := some r, queue := rest }
  | elapsed (hprocessing : s.processing = some r) (hentry : req.entry = .received) :
      Move s r req .elapsed { req with entry := .expired } s
  | processorTake (hprocessing : s.processing = some r) (hentry : req.entry = .received)
      (htoken : 1 ≤ s.bucket.tokens) :
      Move s r req .processorTry { req with entry := .acquired }
        { s with bucket := { s.bucket with tokens := s.bucket.tokens - 1 } }
  | spawn (hprocessing : s.processing = some r) (hentry : req.entry = .received)
      (htoken : ¬ 1 ≤ s.bucket.tokens) :
      Move s r req .processorTry { req with entry := .spawned } { s with processing := none }
  | waiterTake (hentry : req.entry = .spawned ∨ req.entry = .woken) (htoken : 1 ≤ s.bucket.tokens) :
      Move s r req (.waiterTry r) { req with entry := .acquired }
        { s with bucket := { s.bucket with tokens := s.bucket.tokens - 1 } }
  | miss (hentry : req.entry = .spawned ∨ req.entry = .woken) (htoken : ¬ 1 ≤ s.bucket.tokens) :
      Move s r req (.waiterTry r) { req with entry := .missed } s
  | park (hentry : req.entry = .missed) : Move s r req (.park r) { req with entry := .parked } s
  | timeout (hentry : req.entry = .parked ∨ req.entry = .woken) :
      Move s r req (.timeout r) { req with entry := .expired } s
  | sendOk (processing : Option Nat) (hentry : req.entry = .acquired) :
      Move s r req (.send r) (req.answer (.ok ())) { s with processing }
  | sendErr (processing : Option Nat) (hentry : req.entry = .expired) :
      Move s r req (.send r) (req.answer (.error .requestTimeout)) { s with processing }

theorem Move.step {s t rest : Limiter} {r : Nat} {req req' : Request} {op : Op}
    (hmove : Move s r req op req' rest) (hr : s.requests[r]? = some req)
    (h : some (rest.update r req') = some t) :
    ∃ r req req' rest, s.requests[r]? = some req ∧ Move s r req op req' rest ∧
      t = rest.update r req' :=
  ⟨r, req, req', rest, hr, hmove, (Option.some.inj h).symm⟩

/-- Every step is an arrival, a notification or a move of one request. -/
theorem step_cases {s t : Limiter} {op : Op} (hlevel : s.bucket.tokens ≤ s.bucket.capacity)
    (h : s.step op = some t) :
    (op = .arrive ∧ t = { s with requests := s.requests ++ [.new] }) ∨
    (op = .notifyWaiters ∧ 0 < s.returning ∧
      t = { s with returning := s.returning - 1, requests := s.requests.map Request.notified }) ∨
    ∃ r req req' rest, s.requests[r]? = some req ∧ Move s r req op req' rest ∧
      t = rest.update r req' := by
  cases op <;>
    simp only [step, Option.bind_eq_bind, Option.bind_eq_some_iff, Option.ite_none_right_eq_some,
      TokenBucket.tryAcquireSync_eq hlevel] at h
  case arrive => exact .inl ⟨rfl, (Option.some.inj h).symm⟩
  case notifyWaiters => exact .inr (.inl ⟨rfl, h.1, (Option.some.inj h.2).symm⟩)
  -- The others look their request up and test its client or its entry.
  all_goals right; right
  case tryAcquire r =>
    obtain ⟨req, hr, hclient, h⟩ := h
    -- A refill never lifts the level over the capacity, so the level decides alone.
    by_cases htoken : 1 ≤ s.bucket.tokens
    · rw [if_pos htoken] at h
      exact Move.step (.admits hclient htoken) hr h
    · rw [if_neg htoken] at h
      exact Move.step (.refuse hclient htoken) hr h
  case enqueue r =>
    obtain ⟨req, hr, hclient, h⟩ := h
    split at h
    · exact Move.step (.enqueue hclient) hr h
    · exact Move.step (.full hclient) hr h
  case receivePermit r =>
    obtain ⟨req, hr, permit, hpermit, hclient, h⟩ := h
    cases permit with
    | ok => exact Move.step (.granted hclient hpermit) hr h
    | error status => exact Move.step (.denied status hclient hpermit) hr h
  case respond r =>
    obtain ⟨req, hr, hclient, h⟩ := h
    exact Move.step (.respond hclient) hr h
  case dropBody r =>
    obtain ⟨req, hr, hclient, h⟩ := h
    exact Move.step (.dropBody hclient) hr h
  case disconnect r =>
    obtain ⟨req, hr, hclient, h⟩ := h
    exact Move.step (.disconnect hclient) hr h
  case recv =>
    -- The processor takes an entry only when it holds none.
    split at h
    · next r rest hprocessing hqueue =>
      simp only [Option.bind_eq_some_iff] at h
      obtain ⟨req, hr, h⟩ := h
      exact Move.step (.recv rest hprocessing hqueue) hr h
    · cases h
  case elapsed =>
    obtain ⟨r, hprocessing, req, hr, hentry, h⟩ := h
    exact Move.step (.elapsed hprocessing hentry) hr h
  case processorTry =>
    obtain ⟨r, hprocessing, req, hr, hentry, h⟩ := h
    by_cases htoken : 1 ≤ s.bucket.tokens
    · rw [if_pos htoken] at h
      exact Move.step (.processorTake hprocessing hentry htoken) hr h
    · rw [if_neg htoken] at h
      exact Move.step (.spawn hprocessing hentry htoken) hr h
  case waiterTry r =>
    obtain ⟨req, hr, hentry, h⟩ := h
    by_cases htoken : 1 ≤ s.bucket.tokens
    · rw [if_pos htoken] at h
      exact Move.step (.waiterTake hentry htoken) hr h
    · rw [if_neg htoken] at h
      exact Move.step (.miss hentry htoken) hr h
  case park r =>
    obtain ⟨req, hr, hentry, h⟩ := h
    exact Move.step (.park hentry) hr h
  case timeout r =>
    obtain ⟨req, hr, hentry, h⟩ := h
    exact Move.step (.timeout hentry) hr h
  case send r =>
    -- What is sent is what the entry came to: a token, or a timeout.
    obtain ⟨req, hr, h⟩ := h
    split at h
    · next hentry => exact Move.step (.sendOk _ hentry) hr h
    · next hentry => exact Move.step (.sendErr _ hentry) hr h
    · cases h

/-! ## Section 3: What stays consistent -/

/-- The level of the bucket is within its capacity, and the queue holds the entries that are in
it. -/
structure Consistent (s : Limiter) : Prop where
  level : s.bucket.tokens ≤ s.bucket.capacity
  requests : ∀ req ∈ s.requests, req.Consistent
  queue : ∀ r ∈ s.queue, ∃ req, s.requests[r]? = some req ∧ req.entry = .queued
  nodup : s.queue.Nodup

theorem consistent_new (capacity queueSize : Nat) : (new capacity queueSize).Consistent where
  level := le_refl capacity
  requests := fun _ h => absurd h not_mem_nil
  queue := fun _ h => absurd h not_mem_nil
  nodup := nodup_nil

variable {s t rest : Limiter} {r : Nat} {req req' : Request} {op : Op}

theorem Move.consistent (hmove : Move s r req op req' rest) (hs : s.Consistent)
    (hr : s.requests[r]? = some req) : req'.Consistent := by
  have hreq := hs.requests req (mem_of_getElem? hr)
  obtain ⟨client, entry, permit⟩ := req
  cases hmove with
  | admits hclient => simp_all [Request.Consistent]
  | refuse hclient => simp_all [Request.Consistent]
  | enqueue hclient => simp_all [Request.Consistent]
  | full hclient => simp_all [Request.Consistent]
  | granted hclient hpermit => simp_all [Request.Consistent]
  | denied status hclient hpermit => simp_all [Request.Consistent]
  | respond hclient => simp_all [Request.Consistent]
  | dropBody hclient => simp_all [Request.Consistent]
  | disconnect hclient => rfl
  | recv queue hprocessing hqueue =>
    -- what the processor takes from the queue has an entry in it
    obtain ⟨req, hreq', hentry⟩ := hs.queue r (by rw [hqueue]; exact mem_cons_self ..)
    rw [hr, Option.some.injEq] at hreq'
    subst hreq'
    cases client <;> simp_all [Request.Consistent]
  | elapsed hprocessing hentry => cases client <;> simp_all [Request.Consistent]
  | processorTake hprocessing hentry => cases client <;> simp_all [Request.Consistent]
  | spawn hprocessing hentry => cases client <;> simp_all [Request.Consistent]
  | waiterTake hentry => cases client <;> rcases hentry with h | h <;> simp_all [Request.Consistent]
  | miss hentry => cases client <;> rcases hentry with h | h <;> simp_all [Request.Consistent]
  | park hentry => cases client <;> simp_all [Request.Consistent]
  | timeout hentry => cases client <;> rcases hentry with h | h <;> simp_all [Request.Consistent]
  | sendOk _ hentry => cases client <;> simp_all [Request.Consistent, Request.answer]
  | sendErr _ hentry => cases client <;> simp_all [Request.Consistent, Request.answer]

theorem Move.bucket (hmove : Move s r req op req' rest)
    (hlevel : s.bucket.tokens ≤ s.bucket.capacity) :
    rest.requests = s.requests ∧ rest.bucket.capacity = s.bucket.capacity ∧
      rest.bucket.tokens ≤ rest.bucket.capacity := by
  cases hmove with
  | dropBody => exact ⟨rfl, rfl, Nat.min_le_right _ _⟩
  | admits => exact ⟨rfl, rfl, le_trans (Nat.sub_le _ _) hlevel⟩
  | processorTake => exact ⟨rfl, rfl, le_trans (Nat.sub_le _ _) hlevel⟩
  | waiterTake => exact ⟨rfl, rfl, le_trans (Nat.sub_le _ _) hlevel⟩
  | _ => exact ⟨rfl, rfl, hlevel⟩

theorem Move.queue (hmove : Move s r req op req' rest) :
    (rest.queue = s.queue ++ [r] ∧ req.client = .refused ∧ req'.entry = .queued) ∨
    s.queue = r :: rest.queue ∨
    (rest.queue = s.queue ∧ (req.entry = .queued → req'.entry = .queued)) := by
  cases hmove with
  | enqueue hclient => exact .inl ⟨rfl, hclient, rfl⟩
  | recv queue hprocessing hqueue => exact .inr (.inl hqueue)
  | elapsed hprocessing hentry => exact .inr (.inr ⟨rfl, fun h => by simp [h] at hentry⟩)
  | processorTake hprocessing hentry => exact .inr (.inr ⟨rfl, fun h => by simp [h] at hentry⟩)
  | spawn hprocessing hentry => exact .inr (.inr ⟨rfl, fun h => by simp [h] at hentry⟩)
  | waiterTake hentry => exact .inr (.inr ⟨rfl, fun h => by simp [h] at hentry⟩)
  | miss hentry => exact .inr (.inr ⟨rfl, fun h => by simp [h] at hentry⟩)
  | park hentry => exact .inr (.inr ⟨rfl, fun h => by simp [h] at hentry⟩)
  | timeout hentry => exact .inr (.inr ⟨rfl, fun h => by simp [h] at hentry⟩)
  | sendOk _ hentry => exact .inr (.inr ⟨rfl, fun h => by simp [h] at hentry⟩)
  | sendErr _ hentry => exact .inr (.inr ⟨rfl, fun h => by simp [h] at hentry⟩)
  | _ => exact .inr (.inr ⟨rfl, fun h => h⟩)

theorem Consistent.move (hs : s.Consistent) (hr : s.requests[r]? = some req)
    (hmove : Move s r req op req' rest) : (rest.update r req').Consistent := by
  have hreq := hs.requests req (mem_of_getElem? hr)
  obtain ⟨hrequests, hcapacity, hlevel⟩ := hmove.bucket hs.level
  -- the other requests stay as they are
  have hother : ∀ i ≠ r, (rest.update r req').requests[i]? = s.requests[i]? := by
    intro i hi
    simp only [update, hrequests]
    exact getElem?_set_ne (Ne.symm hi)
  have hself : (rest.update r req').requests[r]? = some req' := by
    simp only [update, hrequests]
    rw [getElem?_set_self (List.getElem?_eq_some_iff.mp hr).1]
  refine ⟨hlevel, ?_, ?_, ?_⟩
  · intro q hq
    simp only [update, hrequests] at hq
    rcases mem_or_eq_of_mem_set hq with hq | hq
    · exact hs.requests q hq
    · subst hq
      exact hmove.consistent hs hr
  · intro i hi
    change i ∈ rest.queue at hi
    by_cases hir : i = r
    · subst hir
      refine ⟨req', hself, ?_⟩
      rcases hmove.queue with ⟨_, _, hentry⟩ | hqueue | ⟨hqueue, hentry⟩
      · exact hentry
      · have hnodup := hs.nodup
        rw [hqueue, nodup_cons] at hnodup
        exact absurd hi hnodup.1
      · rw [hqueue] at hi
        obtain ⟨q, hq, hold⟩ := hs.queue i hi
        rw [hr, Option.some.injEq] at hq
        subst hq
        exact hentry hold
    · rw [hother i hir]
      apply hs.queue
      rcases hmove.queue with ⟨hqueue, _⟩ | hqueue | ⟨hqueue, _⟩
      · rw [hqueue, mem_append, mem_singleton] at hi
        exact hi.resolve_right hir
      · rw [hqueue]
        exact mem_cons_of_mem r hi
      · rw [← hqueue]
        exact hi
  · change rest.queue.Nodup
    have hnodup := hs.nodup
    rcases hmove.queue with ⟨hqueue, hclient, _⟩ | hqueue | ⟨hqueue, _⟩
    · -- a request that was refused has no entry in the queue yet
      have hnew : r ∉ s.queue := by
        intro hmem
        obtain ⟨q, hq, hentry⟩ := hs.queue r hmem
        rw [hr, Option.some.injEq] at hq
        subst hq
        simp [Request.Consistent, hclient, hentry] at hreq
      rw [hqueue]
      exact nodup_append.mpr ⟨hnodup, nodup_singleton r, by
        intro a ha b hb heq
        rw [mem_singleton] at hb
        subst hb heq
        exact hnew ha⟩
    · rw [hqueue] at hnodup
      exact hnodup.of_cons
    · rw [hqueue]
      exact hnodup

theorem consistent_step (hs : s.Consistent) (h : s.step op = some t) : t.Consistent := by
  rcases step_cases hs.level h with ⟨_, rfl⟩ | ⟨_, _, rfl⟩ | ⟨r, req, req', rest, hr, hmove, rfl⟩
  · refine ⟨hs.level, ?_, ?_, hs.nodup⟩
    · intro q hq
      rcases mem_append.mp hq with hq | hq
      · exact hs.requests q hq
      · rw [mem_singleton] at hq
        subst hq
        exact ⟨rfl, rfl⟩
    · intro i hi
      obtain ⟨q, hq, hentry⟩ := hs.queue i hi
      refine ⟨q, ?_, hentry⟩
      rw [getElem?_append_left (List.getElem?_eq_some_iff.mp hq).1, hq]
  · refine ⟨hs.level, ?_, ?_, hs.nodup⟩
    · intro q hq
      obtain ⟨p, hp, rfl⟩ := mem_map.mp hq
      exact (hs.requests p hp).notified
    · intro i hi
      obtain ⟨q, hq, hentry⟩ := hs.queue i hi
      refine ⟨q.notified, ?_, ?_⟩
      · rw [getElem?_map, hq]
        rfl
      · simp [Request.notified, hentry]
  · exact hs.move hr hmove

/-! ## Section 4: What a step does to the tokens -/

theorem Move.total (hmove : Move s r req op req' rest) (hs : s.Consistent)
    (hr : s.requests[r]? = some req) (hbound : s.bucket.tokens + req.held ≤ s.bucket.capacity) :
    (¬ s.Loses op ∧ rest.bucket.tokens + req'.held = s.bucket.tokens + req.held) ∨
      (s.Loses op ∧ rest.bucket.tokens + req'.held + 1 = s.bucket.tokens + req.held) := by
  have hreq := hs.requests req (mem_of_getElem? hr)
  have hgone : s.Gone r ↔ req.client = .dropped := by
    simp only [Gone, hr, Option.some.injEq, exists_eq_left']
  cases hmove with
  | admits hclient htoken =>
    refine .inl ⟨id, ?_⟩
    simp only [Request.held, hclient]
    exact Nat.sub_add_cancel htoken
  | refuse hclient htoken => exact .inl ⟨id, by simp only [Request.held, hclient]⟩
  | enqueue hclient =>
    simp only [Request.Consistent, hclient] at hreq
    exact .inl ⟨id, by simp [Request.held, hclient, hreq.2]⟩
  | full hclient => exact .inl ⟨id, by simp only [Request.held, hclient]⟩
  | granted hclient hpermit =>
    exact .inl ⟨id, by simp [Request.held, hclient, hpermit, Except.isOk, Except.toBool]⟩
  | denied status hclient hpermit =>
    simp only [Request.Consistent, hclient, hpermit] at hreq
    have hentry : req.entry = .answered := by simpa using hreq.2
    exact .inl ⟨id, by simp [Request.held, hclient, hpermit, hentry, Except.isOk, Except.toBool]⟩
  | respond hclient => exact .inl ⟨id, by simp only [Request.held, hclient]⟩
  | dropBody hclient =>
    simp only [Request.held, hclient] at hbound
    refine .inl ⟨id, ?_⟩
    simp only [Request.held, hclient, TokenBucket.add, min_eq_left hbound]
  | disconnect hclient =>
    -- the guard of the body does not exist yet, so that the token goes with the future
    have hloses : s.Loses (.disconnect r) ↔ req.held = 1 := by
      simp only [Loses, hr, Option.some.injEq, exists_eq_left']
    have hle := req.held_le_one
    have hafter : ({ req with client := .dropped, permit := none } : Request).held = 0 := rfl
    rw [hloses, hafter]
    omega
  | recv queue hprocessing hqueue =>
    obtain ⟨req, hreq', hentry⟩ := hs.queue r (by rw [hqueue]; exact mem_cons_self ..)
    rw [hr, Option.some.injEq] at hreq'
    subst hreq'
    exact .inl ⟨id, by simp [Request.held, hentry]⟩
  | elapsed hprocessing hentry => exact .inl ⟨id, by simp [Request.held, hentry]⟩
  | processorTake hprocessing hentry htoken =>
    have hloses : s.Loses .processorTry ↔ req.client = .dropped := by
      simp only [Loses, htoken, hprocessing, Option.some.injEq, exists_eq_left', true_and, hgone]
    rw [hloses]
    rcases hreq.held_acquired (by simp [hentry]) (by simp [hentry]) (by simp [hentry]) with h | h
    · exact .inl ⟨h.1, by simp only [h.2]; omega⟩
    · exact .inr ⟨h.1, by simp only [h.2]; omega⟩
  | spawn hprocessing hentry htoken =>
    exact .inl ⟨fun h => htoken h.1, by simp [Request.held, hentry]⟩
  | waiterTake hentry htoken =>
    have hloses : s.Loses (.waiterTry r) ↔ req.client = .dropped := by
      simp only [Loses, htoken, true_and, hgone]
    rw [hloses]
    have hway : req.entry ≠ .absent ∧ req.entry ≠ .answered ∧ req.entry ≠ .acquired := by
      rcases hentry with hentry | hentry <;> simp [hentry]
    rcases hreq.held_acquired hway.1 hway.2.1 hway.2.2 with h | h
    · exact .inl ⟨h.1, by simp only [h.2]; omega⟩
    · exact .inr ⟨h.1, by simp only [h.2]; omega⟩
  | miss hentry htoken =>
    refine .inl ⟨fun h => htoken h.1, ?_⟩
    rcases hentry with hentry | hentry <;> simp [Request.held, hentry]
  | park hentry => exact .inl ⟨id, by simp [Request.held, hentry]⟩
  | timeout hentry =>
    refine .inl ⟨id, ?_⟩
    rcases hentry with hentry | hentry <;> simp [Request.held, hentry]
  | sendOk _ hentry => exact .inl ⟨id, by rw [hreq.held_answer (.inl ⟨hentry, rfl⟩)]⟩
  | sendErr _ hentry => exact .inl ⟨id, by rw [hreq.held_answer (.inr ⟨hentry, rfl⟩)]⟩

theorem total_step (hs : s.Consistent) (hbound : s.bucket.tokens + s.held ≤ s.bucket.capacity)
    (h : s.step op = some t) :
    t.bucket.capacity = s.bucket.capacity ∧
      ((¬ s.Loses op ∧ t.bucket.tokens + t.held = s.bucket.tokens + s.held) ∨
        (s.Loses op ∧ t.bucket.tokens + t.held + 1 = s.bucket.tokens + s.held)) := by
  rcases step_cases hs.level h with ⟨rfl, rfl⟩ | ⟨rfl, _, rfl⟩ |
    ⟨r, req, req', rest, hr, hmove, rfl⟩
  · refine ⟨rfl, .inl ⟨id, ?_⟩⟩
    simp only [held, map_append, sum_append, map_cons, map_nil]
    rfl
  · refine ⟨rfl, .inl ⟨id, ?_⟩⟩
    simp only [held, map_map, Function.comp_def, Request.held_notified]
  · obtain ⟨hrequests, hcapacity, _⟩ := hmove.bucket hs.level
    refine ⟨hcapacity, ?_⟩
    have hle : req.held ≤ s.held := le_sum_map Request.held (mem_of_getElem? hr)
    have hset : (rest.update r req').held + req.held = s.held + req'.held := by
      simp only [held, update, hrequests]
      exact sum_map_set Request.held hr
    have htokens : (rest.update r req').bucket.tokens = rest.bucket.tokens := rfl
    rcases hmove.total hs hr (by omega) with ⟨hnot, htotal⟩ | ⟨hloses, htotal⟩
    · exact .inl ⟨hnot, by omega⟩
    · exact .inr ⟨hloses, by omega⟩

/-! ## Section 5: What a step does to the parked tasks -/

theorem Move.parked (hmove : Move s r req op req' rest) (hentry : req'.entry = .parked) :
    req.entry = .parked ∨ op = .park r := by
  cases hmove with
  | park => exact .inr rfl
  | admits => exact .inl hentry
  | refuse => exact .inl hentry
  | full => exact .inl hentry
  | granted => exact .inl hentry
  | denied => exact .inl hentry
  | respond => exact .inl hentry
  | dropBody => exact .inl hentry
  | disconnect => exact .inl hentry
  | _ => cases hentry

theorem Move.tokens_le (hmove : Move s r req op req' rest) (hreturning : rest.returning = 0) :
    rest.bucket.tokens ≤ s.bucket.tokens ∧ s.returning = 0 := by
  cases hmove with
  | dropBody => cases hreturning
  | admits => exact ⟨Nat.sub_le _ _, hreturning⟩
  | processorTake => exact ⟨Nat.sub_le _ _, hreturning⟩
  | waiterTake => exact ⟨Nat.sub_le _ _, hreturning⟩
  | _ => exact ⟨le_refl _, hreturning⟩

/-- A task is asleep next to a token only where it was parked next to it. -/
theorem asleep_step (hs : s.Consistent) (hawake : ¬ s.Asleep) (h : s.step op = some t) :
    t.Asleep ↔ s.Oversleeps op := by
  rcases step_cases hs.level h with ⟨rfl, rfl⟩ | ⟨rfl, _, rfl⟩ |
    ⟨r, req, req', rest, hr, hmove, rfl⟩
  · refine iff_of_false ?_ id
    rintro ⟨⟨q, hq, hentry⟩, htokens, hreturning⟩
    rcases mem_append.mp hq with hq | hq
    · exact hawake ⟨⟨q, hq, hentry⟩, htokens, hreturning⟩
    · rw [mem_singleton] at hq
      subst hq
      cases hentry
  · -- whoever was parked is woken
    refine iff_of_false ?_ id
    rintro ⟨⟨q, hq, hentry⟩, _⟩
    obtain ⟨p, _, rfl⟩ := mem_map.mp hq
    by_cases hp : p.entry = .parked <;> simp [Request.notified, hp] at hentry
  · obtain ⟨hrequests, _⟩ := hmove.bucket hs.level
    constructor
    · rintro ⟨⟨q, hq, hentry⟩, hlevel, hquiet⟩
      obtain ⟨hle, hreturning⟩ := hmove.tokens_le hquiet
      have htokens : 1 ≤ s.bucket.tokens := le_trans hlevel hle
      simp only [update, hrequests] at hq
      rcases mem_or_eq_of_mem_set hq with hq | hq
      · exact absurd ⟨⟨q, hq, hentry⟩, htokens, hreturning⟩ hawake
      · subst hq
        rcases hmove.parked hentry with hparked | rfl
        · exact absurd ⟨⟨req, mem_of_getElem? hr, hparked⟩, htokens, hreturning⟩ hawake
        · exact ⟨htokens, hreturning⟩
    · intro hover
      cases hmove with
      | park hentry =>
        refine ⟨⟨{ req with entry := .parked }, ?_, rfl⟩, hover⟩
        exact mem_set (List.getElem?_eq_some_iff.mp hr).1 _
      | _ => exact absurd hover id

/-! ## Section 6: Runs -/

/-- What every state of every run satisfies: tokens may be lost, and none is issued twice. -/
structure Bounded (s : Limiter) : Prop where
  consistent : s.Consistent
  bound : s.bucket.tokens + s.held ≤ s.bucket.capacity

theorem bounded_new (capacity queueSize : Nat) : (new capacity queueSize).Bounded :=
  ⟨consistent_new capacity queueSize, le_refl capacity⟩

theorem bounded_step (hs : s.Bounded) (h : s.step op = some t) : t.Bounded := by
  refine ⟨consistent_step hs.consistent h, ?_⟩
  have hbound := hs.bound
  obtain ⟨hcapacity, ⟨_, htotal⟩ | ⟨_, htotal⟩⟩ := total_step hs.consistent hbound h <;> omega

theorem sound_iff : s.Sound ↔ s.bucket.tokens + s.held = s.bucket.capacity ∧ ¬ s.Asleep := by
  constructor
  · exact fun h => ⟨h.conserved, h.awake⟩
  · rintro ⟨hconserved, hawake⟩
    refine ⟨hconserved, ?_, ?_, hawake⟩
    · have hrunning : s.requests.countP (fun req => req.client = .running) ≤ s.held := by
        apply countP_le_sum_map
        intro req hclient
        simp only [Request.held, of_decide_eq_true hclient, le_refl]
      omega
    · intro hsettled
      have hheld : s.held = 0 := by
        apply sum_map_eq_zero
        intro req hreq
        have := hsettled req hreq
        unfold Request.settled at this
        unfold Request.held
        split at this <;> simp_all
      omega

theorem sound_new (capacity queueSize : Nat) : (new capacity queueSize).Sound := by
  refine sound_iff.mpr ⟨rfl, ?_⟩
  rintro ⟨⟨req, hreq, _⟩, _⟩
  exact absurd hreq not_mem_nil

theorem sound_step (hs : s.Bounded) (hsound : s.Sound) (h : s.step op = some t) :
    t.Sound ↔ ¬ s.Slips op := by
  have hasleep := asleep_step hs.consistent hsound.awake h
  have hconserved := hsound.conserved
  rw [sound_iff, hasleep, Slips, not_or]
  obtain ⟨hcapacity, ⟨hkeeps, htotal⟩ | ⟨hloses, htotal⟩⟩ := total_step hs.consistent hs.bound h
  · have : t.bucket.tokens + t.held = t.bucket.capacity := by omega
    simp only [this, hkeeps, not_false_eq_true, true_and]
  · have : t.bucket.tokens + t.held ≠ t.bucket.capacity := by omega
    simp only [this, hloses, not_true_eq_false, false_and]

/-- In every interleaving, the limiter keeps its slots and wakes its waiters all along if and only
if no step slips. -/
theorem sound_iff_not_slips (capacity queueSize : Nat) (ops : List Op)
    (hrun : ∃ s, run step (new capacity queueSize) ops = some s) :
    (∀ n t, run step (new capacity queueSize) (ops.take n) = some t → t.Sound) ↔
      Along step (fun s op => ¬ s.Slips op) (new capacity queueSize) ops := by
  obtain ⟨s, hrun⟩ := hrun
  exact always_iff_along Bounded Sound (fun s op t => bounded_step) (fun s op t => sound_step)
    (bounded_new capacity queueSize) (sound_new capacity queueSize) hrun

/-- Two requests for one slot: the second is granted it when the first is done. -/
theorem sound_iff_not_slips_queued :
    (∀ n t, run step (new 1 1) ([.arrive, .tryAcquire 0, .arrive, .tryAcquire 1, .enqueue 1, .recv,
        .processorTry, .waiterTry 1, .park 1, .respond 0, .dropBody 0, .notifyWaiters, .waiterTry 1,
        .send 1, .receivePermit 1].take n) = some t → t.Sound) ↔
      Along step (fun s op => ¬ s.Slips op) (new 1 1)
      [.arrive, .tryAcquire 0, .arrive, .tryAcquire 1, .enqueue 1, .recv, .processorTry,
        .waiterTry 1, .park 1, .respond 0, .dropBody 0, .notifyWaiters, .waiterTry 1, .send 1,
        .receivePermit 1] :=
  sound_iff_not_slips 1 1 _ ⟨_, rfl⟩

/-- A client that disconnects while its request runs takes the only slot with it, and a waiter that
creates its wait after the notification sleeps next to a token. -/
theorem slot_lost_and_waiter_asleep :
    (∃ s, run step (new 1 0) [.arrive, .tryAcquire 0, .disconnect 0] = some s ∧
      s.bucket.tokens + s.held ≠ s.bucket.capacity ∧ s.bucket.tokens = 0 ∧
      ∀ req ∈ s.requests, req.settled = true) ∧
    (∃ s, run step (new 1 1) [.arrive, .tryAcquire 0, .arrive, .tryAcquire 1, .enqueue 1, .recv,
        .processorTry, .waiterTry 1, .respond 0, .dropBody 0, .notifyWaiters, .park 1] = some s ∧
      s.Asleep) := by
  refine ⟨⟨_, rfl, by decide, rfl, ?_⟩,
    ⟨_, rfl, ⟨⟨⟨.waiting, .parked, none⟩, ?_, rfl⟩, le_refl 1, rfl⟩⟩⟩
  · intro req hreq
    rw [mem_singleton.mp hreq]
    rfl
  · exact mem_cons_of_mem _ mem_cons_self

end Limiter
end Sglang.Gateway
