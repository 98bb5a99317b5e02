import Mathlib.Data.UInt
import Mathlib.Algebra.BigOperators.Group.List.Basic
import Mathlib.Tactic
import Sglang.Lib.Runs

/-!
# Active Load of the Workers

Model of `ActiveLoadRegistry` (`policies/active_load.rs`): the loads of the requests in flight,
which are given back by the drop of a guard or by the janitor, while workers leave and come back.

- `Registry`: the maps, the counters, the guards, and the calls that are in the middle of their
  atomic operations,
- `step`: one atomic operation of one caller,
- `held`: the loads that a counter should have,
- `run_exact`: in every interleaving it has them, and without guards and calls every counter is
  zero.

## Conventions

- A `WorkerCounters` behind an `Arc` is an index into `counters`: it outlives its entry of
  `workers`.
- Counters are `usize` and wrap around.
- The uuid of a request is a fresh number. An entry does not change while it is in `requests`, so
  that what the janitor's scan found about it still holds when it is removed, and the two are one
  step.
- Metrics, urls and cancellation tokens decide nothing.
-/

namespace Sglang.Router.ActiveLoad

open List Option Function
open Lib

/-! ## Section 1: State -/

inductive ActiveLoadKind where
  | prefillTokens
  | decodeBlocks
deriving DecidableEq, Repr

/-- `RequestEntry` with its id. -/
structure RequestEntry where
  id : Nat
  counters : Nat
  load : ActiveLoadKind → UInt64
  registeredAt : Nat

/-- The next operation of a `register`, or of a drop or a sweep that has removed its entry. -/
inductive Pc where
  | addPrefill
  | addDecode
  | insert
  | subPrefill
  | subDecode
deriving DecidableEq, Repr

/-- The counter has the load of the entry. -/
def Pc.holds : Pc → ActiveLoadKind → Bool
  | .addPrefill, _ => false
  | .addDecode, kind => kind = .prefillTokens
  | .insert, _ => true
  | .subPrefill, _ => true
  | .subDecode, kind => kind = .decodeBlocks

structure Task where
  pc : Pc
  entry : RequestEntry

structure Registry where
  workers : String → Option Nat
  counters : Nat → ActiveLoadKind → UInt64
  /-- The number of counters that were made. -/
  numCounters : Nat
  requests : List RequestEntry
  nextId : Nat
  /-- The ids of the guards that live. -/
  guards : List Nat
  tasks : List Task

def Registry.new : Registry where
  workers := fun _ => none
  counters := fun _ _ => 0
  numCounters := 0
  requests := []
  nextId := 0
  guards := []
  tasks := []

/-- `prefill_load` and `decode_load`. -/
def Registry.load (s : Registry) (kind : ActiveLoadKind) (worker : String) : UInt64 :=
  ((s.workers worker).map fun c => s.counters c kind).getD 0

/-! ## Section 2: Steps -/

inductive Action where
  | register (worker : String) (load : ActiveLoadKind → UInt64) (now : Nat)
  | dropGuard (id : Nat)
  | sweep (id now : Nat)
  | forgetWorker (worker : String)
  | goOn (i : Nat)

namespace Registry

/-- `workers.entry(worker).or_insert_with(...)` -/
def countersOf (s : Registry) (worker : String) : Registry × Nat :=
  match s.workers worker with
  | some c => (s, c)
  | none =>
    ({ s with
        workers := update s.workers worker (some s.numCounters)
        counters := update s.counters s.numCounters fun _ => 0
        numCounters := s.numCounters + 1 }, s.numCounters)

/-- `requests.remove(&id)`: the loads of the entry are still to be given back. -/
def remove (s : Registry) (id : Nat) : Registry :=
  match s.requests.find? (·.id = id) with
  | some e =>
    { s with requests := s.requests.eraseP (·.id = id), tasks := ⟨.subPrefill, e⟩ :: s.tasks }
  | none => s

def setCounter (s : Registry) (c : Nat) (kind : ActiveLoadKind) (v : UInt64) : Registry :=
  { s with counters := update s.counters c (update (s.counters c) kind v) }

/-- The next operation of a call, and where it is then. -/
def goOn (s : Registry) (e : RequestEntry) : Pc → Registry × Option Pc
  | .addPrefill =>
    (s.setCounter e.counters .prefillTokens
      (s.counters e.counters .prefillTokens + e.load .prefillTokens), some .addDecode)
  | .addDecode =>
    (s.setCounter e.counters .decodeBlocks
      (s.counters e.counters .decodeBlocks + e.load .decodeBlocks), some .insert)
  | .insert => ({ s with requests := e :: s.requests, guards := e.id :: s.guards }, none)
  | .subPrefill =>
    (s.setCounter e.counters .prefillTokens
      (s.counters e.counters .prefillTokens - e.load .prefillTokens), some .subDecode)
  | .subDecode =>
    (s.setCounter e.counters .decodeBlocks
      (s.counters e.counters .decodeBlocks - e.load .decodeBlocks), none)

/-- One atomic operation. A guard is dropped once, and the janitor removes what is stale. -/
def step (staleRequestTimeout : Nat) (s : Registry) : Action → Option Registry
  | .register worker load now =>
    let x := s.countersOf worker
    some { x.1 with nextId := x.1.nextId + 1, tasks :=
      ⟨.addPrefill, ⟨x.1.nextId, x.2, load, now⟩⟩ :: x.1.tasks }
  | .dropGuard id =>
    if id ∈ s.guards then some ({ s with guards := s.guards.erase id }.remove id) else none
  | .sweep id now =>
    if ∀ e ∈ s.requests, e.id = id →
      staleRequestTimeout ≤ now - e.registeredAt then some (s.remove id) else none
  | .forgetWorker worker => some { s with workers := update s.workers worker none }
  | .goOn i =>
    match s.tasks[i]? with
    | none => none
    | some task =>
      let next := s.goOn task.entry task.pc
      some { next.1 with tasks :=
        (next.2.map fun pc => ⟨pc, task.entry⟩).toList ++ s.tasks.eraseIdx i }

end Registry

/-! ## Section 3: The loads of a counter -/

def RequestEntry.share (e : RequestEntry) (c : Nat) (kind : ActiveLoadKind) : UInt64 :=
  if e.counters = c then e.load kind else 0

def Task.share (t : Task) (c : Nat) (kind : ActiveLoadKind) : UInt64 :=
  if t.pc.holds kind then t.entry.share c kind else 0

/-- The loads of the requests and of the calls that have added theirs or have not given them
back. -/
def Registry.held (s : Registry) (c : Nat) (kind : ActiveLoadKind) : UInt64 :=
  (s.requests.map (·.share c kind)).sum + (s.tasks.map (·.share c kind)).sum

/-- Each counter has the loads that it should have, and each request has a guard. -/
structure Inv (s : Registry) : Prop where
  exact : ∀ c kind, s.counters c kind = s.held c kind
  known : ∀ worker c, s.workers worker = some c → c < s.numCounters
  entries : ∀ e ∈ s.requests, e.counters < s.numCounters
  tasks : ∀ t ∈ s.tasks, t.entry.counters < s.numCounters
  guarded : ∀ id, (s.requests.map RequestEntry.id).count id ≤ s.guards.count id

variable {s s' : Registry}

theorem inv_new : Inv Registry.new :=
  ⟨fun _ _ => rfl, fun _ _ h => (by cases h), fun _ h => absurd h not_mem_nil,
    fun _ h => absurd h not_mem_nil, fun _ => le_rfl⟩

theorem held_eq_zero {c : Nat} (hentries : ∀ e ∈ s.requests, e.counters ≠ c)
    (htasks : ∀ t ∈ s.tasks, t.entry.counters ≠ c) (kind : ActiveLoadKind) : s.held c kind = 0 := by
  have hreq : ∀ x ∈ s.requests.map (·.share c kind), x = 0 := fun x hx => by
    obtain ⟨e, he, rfl⟩ := mem_map.mp hx
    exact if_neg (hentries e he)
  have htask : ∀ x ∈ s.tasks.map (·.share c kind), x = 0 := fun x hx => by
    obtain ⟨t, ht, rfl⟩ := mem_map.mp hx
    rw [Task.share, RequestEntry.share, if_neg (htasks t ht), ite_self]
  rw [Registry.held, sum_eq_zero hreq, sum_eq_zero htask, add_zero]

theorem Inv.countersOf (h : Inv s) (worker : String) : Inv (s.countersOf worker).1 ∧
    (s.countersOf worker).2 < (s.countersOf worker).1.numCounters := by
  unfold Registry.countersOf
  split
  · next c hc => exact ⟨h, h.known worker c hc⟩
  · refine ⟨⟨fun c kind => ?_, fun w c hc => ?_, fun e he => Nat.lt_succ_of_lt (h.entries e he),
      fun t ht => Nat.lt_succ_of_lt (h.tasks t ht), h.guarded⟩, Nat.lt_succ_self _⟩
    · show update s.counters s.numCounters (fun _ => 0) c kind = s.held c kind
      rcases eq_or_ne c s.numCounters with rfl | hne
      · rw [update_self]
        exact (held_eq_zero (fun e he => (h.entries e he).ne) (fun t ht =>
          (h.tasks t ht).ne) kind).symm
      · rw [update_of_ne hne]
        exact h.exact c kind
    · simp only [update_apply] at hc
      split at hc
      · cases hc
        exact Nat.lt_succ_self _
      · exact Nat.lt_succ_of_lt (h.known w c hc)

theorem remove_cases (s : Registry) (id : Nat) :
    (s.remove id = s ∧ id ∉ s.requests.map RequestEntry.id) ∨ ∃ before e after, e.id = id ∧
    s.requests = before ++ e :: after ∧ s.remove id =
      { s with requests := before ++ after, tasks := ⟨.subPrefill, e⟩ :: s.tasks } := by
  unfold Registry.remove
  split
  · next e he =>
    obtain ⟨hid, before, after, heq, hbefore⟩ := find?_eq_some_iff_append.mp he
    refine .inr ⟨before, e, after, by simpa using hid, heq, ?_⟩
    rw [heq, eraseP_append_right _ (by simpa using hbefore), eraseP_cons, hid]
    rfl
  · next hnone =>
    refine .inl ⟨rfl, fun hmem => ?_⟩
    obtain ⟨e, he, hid⟩ := mem_map.mp hmem
    simpa [hid] using find?_eq_none.mp hnone e he

theorem Inv.remove {g : List Nat} (h : Inv { s with guards := g }) (id : Nat)
    (hguards : ∀ i, g.count i ≤ s.guards.count i + if i = id then 1 else 0) : Inv
    (s.remove id) := by
  rcases remove_cases s id with ⟨heq, hnot⟩ | ⟨before, e, after, hid, hreq, heq⟩
  · rw [heq]
    refine ⟨h.exact, h.known, h.entries, h.tasks, fun i => ?_⟩
    rcases eq_or_ne i id with rfl | hne
    · rw [count_eq_zero_of_not_mem hnot]
      exact Nat.zero_le _
    · have := (h.guarded i).trans (hguards i)
      rwa [if_neg hne] at this
  · have hentries := h.entries
    have hexact := h.exact
    have hguarded := h.guarded
    simp only [hreq, Registry.held] at hentries hexact hguarded
    rw [heq]
    refine ⟨fun c kind => ?_, h.known, fun e' he' => hentries e' ?_, fun t ht => ?_, fun i => ?_⟩
    · rw [hexact c kind]
      simp only [Registry.held, map_append, map_cons, sum_append, sum_cons, Task.share, Pc.holds,
        if_true]
      abel
    · rcases mem_append.mp he' with hm | hm
      · exact mem_append_left _ hm
      · exact mem_append_right _ (mem_cons_of_mem _ hm)
    · rcases mem_cons.mp ht with rfl | ht
      · exact hentries e (by simp)
      · exact h.tasks t ht
    · have := (hguarded i).trans (hguards i)
      simp only [map_append, map_cons, count_append, count_cons, hid, beq_iff_eq] at this ⊢
      rcases eq_or_ne i id with rfl | hne
      · simp only [if_true] at this
        omega
      · simp only [hne, hne.symm, if_false] at this
        omega

theorem goOn_counters (s : Registry) (e : RequestEntry) (pc : Pc) (c : Nat)
    (kind : ActiveLoadKind) : (s.goOn e pc).1.counters c kind + (Task.mk pc e).share c kind =
      s.counters c kind + ((s.goOn e pc).2.elim 0 fun pc' => (Task.mk pc' e).share c kind) +
        if pc = .insert then e.share c kind else 0 := by
  cases pc <;> cases kind <;>
    simp [Registry.goOn, Registry.setCounter, Task.share, Pc.holds, RequestEntry.share,
      update_apply, eq_comm (a := c)] <;>
    split <;> simp_all

theorem goOn_rest (s : Registry) (e : RequestEntry) (pc : Pc) :
    (s.goOn e pc).1.workers = s.workers ∧ (s.goOn e pc).1.numCounters = s.numCounters ∧
    ((s.goOn e pc).1.requests = (if pc = .insert then [e] else []) ++ s.requests) ∧
    (s.goOn e pc).1.guards = (if pc = .insert then [e.id] else []) ++ s.guards := by
  cases pc <;> exact ⟨rfl, rfl, rfl, rfl⟩

theorem Inv.goOn (h : Inv s) {i : Nat} {t : Task} (ht : s.tasks[i]? = some t) : Inv
    { (s.goOn t.entry t.pc).1 with
      tasks := ((s.goOn t.entry t.pc).2.map fun pc => ⟨pc, t.entry⟩).toList ++
        s.tasks.eraseIdx i } := by
  obtain ⟨hworkers, hnum, hrequests, hguards⟩ := goOn_rest s t.entry t.pc
  obtain ⟨hi, hget⟩ := List.getElem?_eq_some_iff.mp ht
  have hperm : (t :: s.tasks.eraseIdx i).Perm s.tasks := hget ▸ getElem_cons_eraseIdx_perm hi
  have hmem : t ∈ s.tasks := hperm.mem_iff.mp (mem_cons_self ..)
  refine ⟨fun c kind => ?_, ?_, fun e he => ?_, fun t' ht' => ?_, fun id => ?_⟩
  · have hcounters := goOn_counters s t.entry t.pc c kind
    have hexact := h.exact c kind
    rw [Registry.held, ← (hperm.map (·.share c kind)).sum_eq, map_cons, sum_cons] at hexact
    rw [hexact] at hcounters
    show (s.goOn t.entry t.pc).1.counters c kind = _
    have hinsert : (((if t.pc = .insert then [t.entry] else []) ++ s.requests).map
      (·.share c kind)).sum = (if t.pc = .insert then t.entry.share c kind else 0) +
      (s.requests.map (·.share c kind)).sum := by
      split <;> simp
    have hnext :
      ((((s.goOn t.entry t.pc).2.map fun pc => Task.mk pc t.entry).toList ++ s.tasks.eraseIdx i).map
        (·.share c kind)).sum =
        ((s.goOn t.entry t.pc).2.elim 0 fun pc => (Task.mk pc t.entry).share c kind) +
        ((s.tasks.eraseIdx i).map (·.share c kind)).sum := by
      cases (s.goOn t.entry t.pc).2 <;> simp
    simp only [Registry.held, hrequests, hinsert, hnext]
    refine add_right_cancel (hcounters.trans ?_)
    show _ = _ + t.share c kind
    abel
  · intro worker c hc
    rw [hworkers] at hc
    exact hnum ▸ h.known worker c hc
  · rw [hrequests] at he
    rw [hnum]
    split at he
    · rcases mem_append.mp he with hm | hm
      · rw [mem_singleton.mp hm]
        exact h.tasks t hmem
      · exact h.entries e hm
    · exact h.entries e he
  · rw [hnum]
    rcases mem_append.mp ht' with hm | hm
    · obtain ⟨pc, -, rfl⟩ := map_eq_some_iff.mp (mem_toList.mp hm)
      exact h.tasks t hmem
    · exact h.tasks t' (mem_of_mem_eraseIdx hm)
  · have := h.guarded id
    rw [hrequests, hguards]
    split <;> simp [count_cons] <;> omega

theorem Inv.step (h : Inv s) {timeout : Nat} {a : Action} (hs : s.step timeout a = some s') :
    Inv s' := by
  cases a with
  | register worker load now =>
    obtain ⟨hinv, hlt⟩ := h.countersOf worker
    obtain rfl := Option.some.inj hs
    refine ⟨fun c kind => ?_, hinv.known, hinv.entries, fun t ht => ?_, hinv.guarded⟩
    · refine (hinv.exact c kind).trans ?_
      simp only [Registry.held, map_cons, sum_cons, Task.share, Pc.holds, Bool.false_eq_true,
        if_false, zero_add]
    · rcases mem_cons.mp ht with rfl | ht
      · exact hlt
      · exact hinv.tasks t ht
  | dropGuard id =>
    simp only [Registry.step] at hs
    split at hs
    · next hmem =>
      obtain rfl := Option.some.inj hs
      refine Inv.remove (s := { s with guards := s.guards.erase id }) (g := s.guards) h id
        fun i => ?_
      rw [count_erase]
      split <;> simp_all
    · cases hs
  | sweep id now =>
    simp only [Registry.step] at hs
    split at hs
    · obtain rfl := Option.some.inj hs
      exact Inv.remove (g := s.guards) h id fun i => Nat.le_add_right ..
    · cases hs
  | forgetWorker worker =>
    obtain rfl := Option.some.inj hs
    refine ⟨h.exact, fun w c hc => ?_, h.entries, h.tasks, h.guarded⟩
    simp only [update_apply] at hc
    split at hc
    · cases hc
    · exact h.known w c hc
  | goOn i =>
    simp only [Registry.step] at hs
    split at hs
    · cases hs
    · next t ht =>
      obtain rfl := Option.some.inj hs
      exact h.goOn ht

/-! ## Section 4: Runs -/

theorem inv_run {timeout : Nat} {actions : List Action}
    (h : run (Registry.step timeout) Registry.new actions = some s) :
    Inv s :=
  invariant_of_run (P := fun _ _ => True) Inv (fun _ _ _ hinv _ hstep => hinv.step hstep) inv_new
    (Along.of_forall (fun _ _ => trivial) _) h

/-- In every interleaving of registrations, drops, sweeps and leaving workers, the load of a worker
is that of the requests and unfinished calls on its counters, modulo what a `usize` holds. When all
guards are dropped and all calls have ended, nothing is left on any counter. -/
theorem run_exact {timeout : Nat} {actions : List Action}
    (h : run (Registry.step timeout) Registry.new actions = some s) :
    (∀ worker kind, s.load kind worker = ((s.workers worker).map fun c => s.held c kind).getD 0) ∧
      (s.guards = [] → s.tasks = [] → s.requests = [] ∧ ∀ c kind, s.counters c kind = 0) := by
  have hinv := inv_run h
  refine ⟨fun worker kind => by simp only [Registry.load, hinv.exact], fun hguards htasks => ?_⟩
  have hnone : s.requests = [] := by
    refine eq_nil_iff_forall_not_mem.mpr fun e he => ?_
    have hle := hinv.guarded e.id
    rw [hguards, count_nil] at hle
    exact (count_pos_iff.mpr (mem_map_of_mem he)).ne' (Nat.le_zero.mp hle)
  exact ⟨hnone, fun c kind => by rw [hinv.exact, Registry.held, hnone, htasks]; rfl⟩

/-- The worker leaves while its request is registered, and comes back before the janitor sweeps the
request. -/
def forgottenRun : List Action :=
  [.register "w" (fun _ => 3) 0, .goOn 0, .forgetWorker "w", .goOn 0, .goOn 0,
    .register "w" (fun _ => 4) 2, .goOn 0, .sweep 0 7, .goOn 0, .goOn 0]

theorem run_exact_forgotten : ∃ s, run (Registry.step 5) Registry.new forgottenRun = some s ∧
    (∀ worker kind, s.load kind worker = ((s.workers worker).map fun c => s.held c kind).getD 0) ∧
      (s.guards = [] → s.tasks = [] → s.requests = [] ∧ ∀ c kind, s.counters c kind = 0) := by
  obtain ⟨s, hs⟩ := isSome_iff_exists.mp
    (show (run (Registry.step 5) Registry.new forgottenRun).isSome = true from rfl)
  exact ⟨s, hs, run_exact hs⟩

end Sglang.Router.ActiveLoad
