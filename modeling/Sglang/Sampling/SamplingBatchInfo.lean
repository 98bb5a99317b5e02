import Mathlib.Data.List.Basic
import Mathlib.Tactic
import Sglang.Sampling.Penalizers

/-!
# Sampling State of a Batch

Model of `SamplingBatchInfo` of `sampling/sampling_batch_info.py`, and of the steps of
`ScheduleBatch` that build, advance, filter and merge it.

## Conventions

- A tensor with a row for each request is a list. A dict is a list of entries with distinct keys.
- A custom logit processor is the value it is deserialised from. The empty string, which `any`
  passes over and which cannot be deserialised beside another processor, is left out.
- Of a `ScheduleBatch` only its requests and its sampling state are kept. Grammars are left out.
- `reqs`, what is fixed about each request, and the server arguments are parameters (`Sampler`).
-/

namespace Sglang.Sampling

open Function
open Lib (gather)

variable {F C P K : Type}

def topKAll : Int := 2 ^ 30

/-- What does not change: the requests, the server arguments, `float("-inf")` and `hash`. -/
structure Sampler (F C P K : Type) where
  reqs : Nat → Req F C P
  enableDeterministicInference : Bool
  enableCustomLogitProcessor : Bool
  negInf : F
  hash : P → K

/-! ## Section 1: The sampling state -/

/-- An entry of `custom_logit_processor`. -/
structure CustomProcessor (P K : Type) where
  key : K
  processor : P
  mask : List Bool

structure SamplingBatchInfo (F C P K : Type) where
  temperatures : List F
  topPs : List F
  topKs : List Int
  minPs : List F
  isAllGreedy : Bool
  needTopPSampling : Bool
  needTopKSampling : Bool
  needMinPSampling : Bool
  temperaturesAllOne : Bool
  penalizerOrchestrator : Orchestrator F
  hasCustomLogitProcessor : Bool
  customParams : Option (List (Option C))
  customLogitProcessor : Option (List (CustomProcessor P K))
  samplingSeed : Option (List Int)
  logitBias : Option (List (Nat → F))

/-- A row of `logit_bias`. -/
def Req.biasRow [Zero F] (req : Req F C P) : Nat → F :=
  (req.logitBias.getD []).foldl (fun row entry => update row entry.1 entry.2) fun _ => 0

namespace SamplingBatchInfo

section
variable [Zero F] [One F] [Add F] [DecidableEq F] [LT F] [DecidableLT F] [DecidableEq P]
  [DecidableEq K] (S : Sampler F C P K)

/-- `d[key] = …`: an entry with the same key is replaced. -/
def putProcessor (entries : List (CustomProcessor P K)) (e : CustomProcessor P K) :
    List (CustomProcessor P K) :=
  if entries.any fun other => other.key = e.key then
    entries.map fun other => if other.key = e.key then e else other
  else entries ++ [e]

/-- The entry of a processor in `from_schedule_batch`. -/
def processorEntry (reqs : List (Req F C P)) (processor : P) : CustomProcessor P K :=
  { key := S.hash processor
    processor := processor
    mask := reqs.map fun req => req.customLogitProcessor = some processor }

/-- The merged custom logit processors of `from_schedule_batch`, in order of first occurrence. -/
def processorDict (reqs : List (Req F C P)) : List (CustomProcessor P K) :=
  ((reqs.filterMap Req.customLogitProcessor).reverse.dedup.reverse.map
    (processorEntry S reqs)).foldl putProcessor []

def fromScheduleBatch (reqs : List (Req F C P)) : SamplingBatchInfo F C P K :=
  let hasCustomLogitProcessor :=
    S.enableCustomLogitProcessor && reqs.any fun req => req.customLogitProcessor.isSome
  { temperatures := reqs.map Req.temperature
    topPs := reqs.map Req.topP
    topKs := reqs.map Req.topK
    minPs := reqs.map Req.minP
    samplingSeed :=
      if S.enableDeterministicInference then some (reqs.map fun req => req.samplingSeed.getD 42)
      else none
    isAllGreedy := reqs.all fun req => req.topK ≤ 1
    needTopPSampling := reqs.any fun req => req.topP ≠ 1
    needTopKSampling := reqs.any fun req => req.topK ≠ topKAll
    needMinPSampling := reqs.any fun req => 0 < req.minP
    temperaturesAllOne := reqs.all fun req => req.temperature = 1
    penalizerOrchestrator := Orchestrator.new S.negInf reqs
    hasCustomLogitProcessor := hasCustomLogitProcessor
    customParams := if hasCustomLogitProcessor then some (reqs.map Req.customParams) else none
    customLogitProcessor := if hasCustomLogitProcessor then some (processorDict S reqs) else none
    logitBias :=
      if reqs.any fun req => req.logitBias.isSome then some (reqs.map Req.biasRow) else none }

def filterBatchCustomLogitProcessor (s : SamplingBatchInfo F C P K) (keepIndices : List Nat) :
    SamplingBatchInfo F C P K :=
  let kept := ((s.customLogitProcessor.getD []).map fun e =>
    { e with mask := gather e.mask keepIndices }).filter fun e => e.mask.any id
  if kept.length = 0 then
    { s with customLogitProcessor := none, customParams := none, hasCustomLogitProcessor := false }
  else
    { s with
      customLogitProcessor := some kept
      customParams := s.customParams.map fun params => gather params keepIndices }

/-- `filter_batch`; the requests are already those that stay. -/
def filterBatch (s : SamplingBatchInfo F C P K) (reqs : List (Req F C P)) (keepIndices : List Nat) :
    SamplingBatchInfo F C P K :=
  let s := { s with
    penalizerOrchestrator := s.penalizerOrchestrator.filter S.negInf reqs keepIndices }
  let s := if s.hasCustomLogitProcessor then s.filterBatchCustomLogitProcessor keepIndices else s
  { s with
    temperatures := gather s.temperatures keepIndices
    topPs := gather s.topPs keepIndices
    topKs := gather s.topKs keepIndices
    minPs := gather s.minPs keepIndices
    samplingSeed := s.samplingSeed.map fun seeds => gather seeds keepIndices
    logitBias := s.logitBias.map fun rows => gather rows keepIndices }

end

def findProcessor [DecidableEq K] (entries : List (CustomProcessor P K)) (key : K) :
    Option (CustomProcessor P K) :=
  entries.find? fun e => e.key = key

def mergeCustomLogitProcessor [DecidableEq K] (lhs rhs : Option (List (CustomProcessor P K)))
    (bs1 bs2 : Nat) : Option (List (CustomProcessor P K)) :=
  if lhs.isNone ∧ rhs.isNone then none
  else
    let lhs := lhs.getD []
    let rhs := rhs.getD []
    let left := lhs.map fun e =>
      { e with
        mask := e.mask ++
          ((findProcessor rhs e.key).map CustomProcessor.mask).getD (List.replicate bs2 false) }
    let right := (rhs.filter fun e => (findProcessor lhs e.key).isNone).map fun e =>
      { e with mask := List.replicate bs1 false ++ e.mask }
    some (left ++ right)

def mergeBiasTensor [Zero F] (lhs rhs : Option (List (Nat → F))) (bs1 bs2 : Nat) :
    Option (List (Nat → F)) :=
  if lhs.isNone ∧ rhs.isNone then none
  else some (lhs.getD (List.replicate bs1 fun _ => 0) ++ rhs.getD (List.replicate bs2 fun _ => 0))

/-- `__len__`. -/
def length (s : SamplingBatchInfo F C P K) : Nat := s.temperatures.length

/-- `merge_batch`; the requests are those of the two batches before they are merged. -/
def mergeBatch [Zero F] [One F] [Add F] [DecidableEq F] [DecidableEq K] (S : Sampler F C P K)
    (s other : SamplingBatchInfo F C P K) (reqs otherReqs : List (Req F C P)) :
    SamplingBatchInfo F C P K :=
  let hasCustom := s.hasCustomLogitProcessor || other.hasCustomLogitProcessor
  { penalizerOrchestrator :=
      s.penalizerOrchestrator.merge S.negInf other.penalizerOrchestrator reqs otherReqs
    customLogitProcessor :=
      if hasCustom then
        mergeCustomLogitProcessor s.customLogitProcessor other.customLogitProcessor s.length
          other.length
      else s.customLogitProcessor
    customParams :=
      if hasCustom then
        some (s.customParams.getD (List.replicate s.length none) ++
          other.customParams.getD (List.replicate other.length none))
      else s.customParams
    hasCustomLogitProcessor := if hasCustom then true else s.hasCustomLogitProcessor
    logitBias := mergeBiasTensor s.logitBias other.logitBias s.length other.length
    temperatures := s.temperatures ++ other.temperatures
    topPs := s.topPs ++ other.topPs
    topKs := s.topKs ++ other.topKs
    minPs := s.minPs ++ other.minPs
    samplingSeed :=
      match s.samplingSeed, other.samplingSeed with
      | some seeds, some otherSeeds => some (seeds ++ otherSeeds)
      | seeds, _ => seeds
    isAllGreedy := s.isAllGreedy && other.isAllGreedy
    needTopPSampling := s.needTopPSampling || other.needTopPSampling
    needTopKSampling := s.needTopKSampling || other.needTopKSampling
    needMinPSampling := s.needMinPSampling || other.needMinPSampling
    temperaturesAllOne := s.temperaturesAllOne && other.temperaturesAllOne }

/-- `penalizer_orchestrator.cumulate_output_tokens`, where it is required. -/
def cumulateOutputTokens [Zero F] [Add F] [One F] [DecidableEq F] (S : Sampler F C P K)
    (s : SamplingBatchInfo F C P K) (outputIds : List Nat) : SamplingBatchInfo F C P K :=
  if s.penalizerOrchestrator.isRequired then
    { s with
      penalizerOrchestrator := Orchestrator.cumulateOutputTokens (C := C) (P := P) S.negInf
        s.penalizerOrchestrator outputIds }
  else s

end SamplingBatchInfo

/-! ## Section 2: The steps of a batch -/

/-- A `ScheduleBatch`; its requests are numbers. -/
structure ScheduleBatch (F C P K : Type) where
  reqs : List Nat
  samplingInfo : SamplingBatchInfo F C P K

variable [Zero F] [One F] [Add F] [DecidableEq F] [LT F] [DecidableLT F] [DecidableEq P]
  [DecidableEq K] (S : Sampler F C P K)

namespace ScheduleBatch

/-- The sampling part of `prepare_for_extend`. -/
def prepareForExtend (reqs : List Nat) : ScheduleBatch F C P K :=
  ⟨reqs, SamplingBatchInfo.fromScheduleBatch S (reqs.map S.reqs)⟩

/-- The token of a request that `cumulate_penalty_output_tokens` reads. -/
def lastToken (outputIds : Nat → List Nat) (r : Nat) : Nat :=
  ((outputIds r).getLast?.or (S.reqs r).originInputIds.getLast?).getD 0

/-- The sampling part of `prepare_for_decode`. -/
def prepareForDecode (outputIds : Nat → List Nat) (b : ScheduleBatch F C P K) :
    ScheduleBatch F C P K :=
  { b with samplingInfo :=
    b.samplingInfo.cumulateOutputTokens S (b.reqs.map (lastToken S outputIds)) }

/-- `filter_batch`; `none` is an index out of range. -/
def filterBatch (b : ScheduleBatch F C P K) (keepIndices : List Nat) :
    Option (ScheduleBatch F C P K) :=
  if keepIndices.length = 0 then
    -- the sampling state stays as it is
    some { b with reqs := [] }
  else if keepIndices.length = b.reqs.length then some b
  else if keepIndices.all fun i => i < b.reqs.length then
    let reqs := gather b.reqs keepIndices
    some ⟨reqs, b.samplingInfo.filterBatch S (reqs.map S.reqs) keepIndices⟩
  else none

def mergeBatch (b other : ScheduleBatch F C P K) : ScheduleBatch F C P K :=
  ⟨b.reqs ++ other.reqs, b.samplingInfo.mergeBatch S other.samplingInfo (b.reqs.map S.reqs)
    (other.reqs.map S.reqs)⟩

end ScheduleBatch

/-- The batches of a scheduler, and the output of the requests. -/
structure Batches (F C P K : Type) where
  batches : Nat → Option (ScheduleBatch F C P K)
  outputIds : Nat → List Nat

/-- What the scheduler does: build a prefill batch, prepare a batch for decode, filter it (also when
it retracts, preempts or excludes a chunked request), merge another one into it, forget it, or
process the result of a request. -/
inductive BatchOp where
  | prefill (b : Nat) (reqs : List Nat)
  | decode (b : Nat)
  | filter (b : Nat) (keepIndices : List Nat)
  | merge (b other : Nat)
  | drop (b : Nat)
  | output (r token : Nat)
deriving DecidableEq, Repr

namespace Batches

def setBatch (w : Batches F C P K) (b : Nat) (batch : Option (ScheduleBatch F C P K)) :
    Batches F C P K :=
  { w with batches := update w.batches b batch }

/-- One step. Empty batches are neither decoded nor merged. -/
def step (w : Batches F C P K) : BatchOp → Option (Batches F C P K)
  | .prefill b reqs => some (w.setBatch b (some (ScheduleBatch.prepareForExtend S reqs)))
  | .decode b =>
    match w.batches b with
    | none => none
    | some batch =>
      if batch.reqs = [] then none
      else some (w.setBatch b (some (batch.prepareForDecode S w.outputIds)))
  | .filter b keepIndices =>
    match w.batches b with
    | none => none
    | some batch => (batch.filterBatch S keepIndices).map fun batch => w.setBatch b (some batch)
  | .merge b other =>
    match w.batches b, w.batches other with
    | some batch, some otherBatch =>
      if b = other ∨ batch.reqs = [] ∨ otherBatch.reqs = [] then none
      else some ((w.setBatch b (some (batch.mergeBatch S otherBatch))).setBatch other none)
    | _, _ => none
  | .drop b => some (w.setBatch b none)
  | .output r token =>
    some { w with outputIds := update w.outputIds r (w.outputIds r ++ [token]) }

end Batches

end Sglang.Sampling
