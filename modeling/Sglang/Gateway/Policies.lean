import Mathlib.Data.List.MinMax
import Mathlib.Tactic

/-!
# Workers as the Routing Policies See Them

What the policies of `policies/` share: the state of a worker at the time of a call, the test of
`get_healthy_worker_indices`, and what it means that a request is routed.

- A random choice among `n` is a number that comes with the call, reduced modulo `n`.
- `UNKNOWN_MODEL_ID` comes from another crate, and is a parameter.
-/

namespace Sglang.Gateway

open List

inductive WorkerType where
  | regular
  | prefill
  | decode
deriving DecidableEq, Repr

/-- A worker at the time of a call. -/
structure Worker where
  url : String
  modelId : String
  workerType : WorkerType
  /-- `is_healthy()`. -/
  isHealthy : Bool
  /-- `circuit_breaker().can_execute()`. -/
  canExecute : Bool
  /-- `load()`. -/
  load : Nat
  /-- `worker_routing_key_load().value()`. -/
  routingKeyLoad : Nat
deriving DecidableEq, Repr

/-- The worker is healthy and its circuit breaker lets a call through. -/
def Worker.Available (w : Worker) : Prop := w.isHealthy = true ∧ w.canExecute = true

instance (w : Worker) : Decidable w.Available := inferInstanceAs (Decidable (_ ∧ _))

def getHealthyWorkerIndices (workers : List Worker) : List Nat :=
  (workers.zipIdx.filter fun x => x.1.isHealthy && x.1.canExecute).map Prod.snd

def normalizeModelKey (unknownModelId modelId : String) : String :=
  if modelId = "" then unknownModelId else modelId

/-- `workers.iter().position(|w| w.url() == url)`. -/
def positionOf (workers : List Worker) (url : String) : Option Nat :=
  workers.findIdx? fun w => w.url = url

def randomSelect (indices : List Nat) (random : Nat) : Option Nat :=
  indices[random % indices.length]?

def urlAt (workers : List Worker) (i : Nat) : String := (workers[i]?.map Worker.url).getD ""

/-- A request is refused if and only if no worker is available, and goes to an available one. -/
structure Routed (workers : List Worker) (result : Option Nat) : Prop where
  refused : result = none ↔ ∀ w ∈ workers, ¬ w.Available
  available : ∀ i, result = some i → ∃ w, workers[i]? = some w ∧ w.Available

variable {workers : List Worker} {i : Nat}

theorem mem_getHealthyWorkerIndices :
    i ∈ getHealthyWorkerIndices workers ↔ ∃ w, workers[i]? = some w ∧ w.Available := by
  simp only [getHealthyWorkerIndices, mem_map, mem_filter, Bool.and_eq_true,
    Prod.exists, mem_zipIdx_iff_getElem?, exists_eq_right, Worker.Available]

theorem getHealthyWorkerIndices_eq_nil :
    getHealthyWorkerIndices workers = [] ↔ ∀ w ∈ workers, ¬ w.Available := by
  rw [eq_nil_iff_forall_not_mem]
  constructor
  · intro h w hw havailable
    obtain ⟨i, hi⟩ := mem_iff_getElem?.mp hw
    exact h i (mem_getHealthyWorkerIndices.mpr ⟨w, hi, havailable⟩)
  · intro h i hi
    obtain ⟨w, hw, havailable⟩ := mem_getHealthyWorkerIndices.mp hi
    exact h w (mem_of_getElem? hw) havailable

theorem routed_none (h : getHealthyWorkerIndices workers = []) : Routed workers none where
  refused := iff_of_true rfl (getHealthyWorkerIndices_eq_nil.mp h)
  available := fun _ heq => by cases heq

theorem routed_some (h : i ∈ getHealthyWorkerIndices workers) : Routed workers (some i) where
  refused := by
    refine iff_of_false (Option.some_ne_none i) ?_
    intro hnone
    rw [getHealthyWorkerIndices_eq_nil.mpr hnone] at h
    exact absurd h not_mem_nil
  available := by
    intro j heq
    cases heq
    exact mem_getHealthyWorkerIndices.mp h

theorem routed_iff (h : getHealthyWorkerIndices workers ≠ []) {result : Option Nat} :
    Routed workers result ↔ ∃ i w, result = some i ∧ workers[i]? = some w ∧ w.Available := by
  constructor
  · intro hrouted
    cases result with
    | none => exact absurd (getHealthyWorkerIndices_eq_nil.mpr (hrouted.refused.mp rfl)) h
    | some i =>
      obtain ⟨w, hw⟩ := hrouted.available i rfl
      exact ⟨i, w, rfl, hw⟩
  · rintro ⟨i, w, rfl, hw⟩
    exact routed_some (mem_getHealthyWorkerIndices.mpr ⟨w, hw⟩)

theorem randomSelect_mem {indices : List Nat} (h : indices ≠ []) (random : Nat) :
    ∃ i ∈ indices, randomSelect indices random = some i := by
  have hlt : random % indices.length < indices.length :=
    Nat.mod_lt _ (length_pos_iff.mpr h)
  exact ⟨indices[random % indices.length], getElem_mem hlt, getElem?_eq_getElem hlt⟩

theorem positionOf_eq_some (h : positionOf workers url = some i) :
    ∃ w, workers[i]? = some w ∧ w.url = url := by
  unfold positionOf at h
  rw [findIdx?_eq_some_iff_getElem] at h
  obtain ⟨hi, hurl, _⟩ := h
  exact ⟨workers[i], getElem?_eq_getElem hi, of_decide_eq_true hurl⟩

end Sglang.Gateway
