import Mathlib.Data.List.Basic
import Mathlib.Logic.Function.Basic
import Mathlib.Tactic
import Sglang.Lib.Gather

/-!
# Batched Penalizers

Model of `sampling/penaltylib`: four penalizers with one row for each request of a batch, and the
orchestrator that prepares, filters and merges them.

## Conventions

- Numbers of `torch.float32` are of a type `F`, of which only what the code does with them is used.
- A row over the vocabulary is a function of the token.
- A penalizer that is not prepared has no rows: `none`.
- `_batch_ref` is the list of requests that the batch has at the time of a call.
-/

namespace Sglang.Sampling

open Function
open Lib (gather)

/-- What the sampling of a request depends on. `F` is the type of the floats, `C` that of the custom
parameters and `P` that of a serialised custom logit processor. -/
structure Req (F C P : Type) where
  temperature : F
  topP : F
  topK : Int
  minP : F
  samplingSeed : Option Int
  logitBias : Option (List (Nat × F))
  frequencyPenalty : F
  presencePenalty : F
  repetitionPenalty : F
  minNewTokens : Nat
  stopTokenIds : Option (List Nat)
  additionalStopTokenIds : Option (List Nat)
  eosTokenId : Nat
  customParams : Option C
  customLogitProcessor : Option P
  originInputIds : List Nat

variable {F C P σ : Type}

/-! ## Section 1: One penalizer -/

/-- What the penalizers differ in, for a request. -/
structure Penalizer (F C P σ : Type) where
  /-- The test of `_is_required`. -/
  required : Req F C P → Bool
  /-- The row of `_prepare`. -/
  prepareRow : Req F C P → σ
  /-- `_cumulate_output_tokens` for a row. -/
  cumulateRow : Nat → σ → σ

/-- A row of the frequency, the presence and the repetition penalizer. -/
structure PenaltyRow (F : Type) where
  penalty : F
  cumulated : Nat → F

/-- A row of the penalizer of minimum new tokens. -/
structure MinNewTokensRow (F : Type) where
  minNewTokens : Nat
  stopTokenPenalties : Nat → F
  lenOutputTokens : Nat

def batchedFrequencyPenalizer [Zero F] [Add F] [DecidableEq F] : Penalizer F C P
    (PenaltyRow F) where
  required := fun req => req.frequencyPenalty ≠ 0
  prepareRow := fun req => ⟨req.frequencyPenalty, fun _ => 0⟩
  cumulateRow := fun id row =>
    { row with cumulated := update row.cumulated id (row.cumulated id + row.penalty) }

def batchedPresencePenalizer [Zero F] [DecidableEq F] : Penalizer F C P (PenaltyRow F) where
  required := fun req => req.presencePenalty ≠ 0
  prepareRow := fun req => ⟨req.presencePenalty, fun _ => 0⟩
  cumulateRow := fun id row => { row with cumulated := update row.cumulated id row.penalty }

def batchedRepetitionPenalizer [One F] [DecidableEq F] : Penalizer F C P (PenaltyRow F) where
  required := fun req => req.repetitionPenalty ≠ 1
  prepareRow := fun req => ⟨req.repetitionPenalty, fun _ => 1⟩
  cumulateRow := fun id row => { row with cumulated := update row.cumulated id row.penalty }

/-- The stop tokens that the penalizer of minimum new tokens suppresses. -/
def Req.stopIds (req : Req F C P) : List Nat :=
  req.stopTokenIds.getD [] ++ req.additionalStopTokenIds.getD [] ++ [req.eosTokenId]

/-- `BatchedMinNewTokensPenalizer`; `negInf` is `float("-inf")`. -/
def batchedMinNewTokensPenalizer [Zero F] (negInf : F) : Penalizer F C P (MinNewTokensRow F) where
  required := fun req => req.minNewTokens > 0
  prepareRow := fun req =>
    { minNewTokens := req.minNewTokens
      stopTokenPenalties := fun id => if id ∈ req.stopIds then negInf else 0
      lenOutputTokens := 0 }
  cumulateRow := fun _ row => { row with lenOutputTokens := row.lenOutputTokens + 1 }

/-- What `_apply` adds to the logits of a row. -/
def MinNewTokensRow.applied [Zero F] (row : MinNewTokensRow F) (id : Nat) : F :=
  if row.lenOutputTokens < row.minNewTokens then row.stopTokenPenalties id else 0

namespace Penalizer

variable (K : Penalizer F C P σ)

def isRequired (reqs : List (Req F C P)) : Bool := reqs.any K.required

def prepare (reqs : List (Req F C P)) (rows : Option (List σ)) : List σ :=
  rows.getD (reqs.map K.prepareRow)

/-- `prepare_if_required` of a new penalizer. -/
def prepareIfRequired (reqs : List (Req F C P)) : Option (List σ) :=
  if K.isRequired reqs then some (K.prepare reqs none) else none

def cumulateOutputTokens (outputIds : List Nat) (rows : Option (List σ)) : Option (List σ) :=
  rows.map fun rows => outputIds.zipWith K.cumulateRow rows

/-- What `filter` of the orchestrator does to a penalizer: filter it, or tear it down. -/
def filterOrTeardown (reqs : List (Req F C P)) (keepIndices : List Nat) (rows : Option (List σ)) :
    Option (List σ) :=
  if K.isRequired reqs then rows.map fun rows => gather rows keepIndices else none

def merge (reqs theirReqs : List (Req F C P)) (rows theirRows : Option (List σ)) :
    Option (List σ) :=
  if rows.isNone ∧ theirRows.isNone then none
  else some (K.prepare reqs rows ++ K.prepare theirReqs theirRows)

end Penalizer

/-! ## Section 2: The orchestrator -/

/-- `BatchedPenalizerOrchestrator`. -/
structure Orchestrator (F : Type) where
  frequency : Option (List (PenaltyRow F))
  minNewTokens : Option (List (MinNewTokensRow F))
  presence : Option (List (PenaltyRow F))
  repetition : Option (List (PenaltyRow F))
  isRequired : Bool

namespace Orchestrator

variable [Zero F] [One F] [Add F] [DecidableEq F] (negInf : F)

/-- `__init__`. -/
def new (reqs : List (Req F C P)) : Orchestrator F where
  frequency := batchedFrequencyPenalizer.prepareIfRequired reqs
  minNewTokens := (batchedMinNewTokensPenalizer negInf).prepareIfRequired reqs
  presence := batchedPresencePenalizer.prepareIfRequired reqs
  repetition := batchedRepetitionPenalizer.prepareIfRequired reqs
  isRequired := batchedFrequencyPenalizer.isRequired reqs ||
    (batchedMinNewTokensPenalizer negInf).isRequired reqs ||
    batchedPresencePenalizer.isRequired reqs || batchedRepetitionPenalizer.isRequired reqs

def cumulateOutputTokens (o : Orchestrator F) (outputIds : List Nat) : Orchestrator F :=
  { o with
    frequency := (batchedFrequencyPenalizer (C := C) (P := P)).cumulateOutputTokens outputIds
      o.frequency
    minNewTokens := (batchedMinNewTokensPenalizer (C := C) (P := P) negInf).cumulateOutputTokens
      outputIds o.minNewTokens
    presence := (batchedPresencePenalizer (C := C) (P := P)).cumulateOutputTokens outputIds
      o.presence
    repetition := (batchedRepetitionPenalizer (C := C) (P := P)).cumulateOutputTokens outputIds
      o.repetition }

def release : Orchestrator F := ⟨none, none, none, none, false⟩

/-- `filter`; the requests are already those that stay. -/
def filter (o : Orchestrator F) (reqs : List (Req F C P)) (keepIndices : List Nat) :
    Orchestrator F :=
  if ! o.isRequired then o
  else if keepIndices.length = 0 then release
  else
    { frequency := batchedFrequencyPenalizer.filterOrTeardown reqs keepIndices o.frequency
      minNewTokens := (batchedMinNewTokensPenalizer negInf).filterOrTeardown reqs keepIndices
        o.minNewTokens
      presence := batchedPresencePenalizer.filterOrTeardown reqs keepIndices o.presence
      repetition := batchedRepetitionPenalizer.filterOrTeardown reqs keepIndices o.repetition
      isRequired := batchedFrequencyPenalizer.isRequired reqs ||
        (batchedMinNewTokensPenalizer negInf).isRequired reqs ||
        batchedPresencePenalizer.isRequired reqs || batchedRepetitionPenalizer.isRequired reqs }

/-- `merge`; the requests are those of the two batches before they are merged. -/
def merge (o their : Orchestrator F) (reqs theirReqs : List (Req F C P)) : Orchestrator F :=
  if ! o.isRequired && ! their.isRequired then o
  else
    { frequency := batchedFrequencyPenalizer.merge reqs theirReqs o.frequency their.frequency
      minNewTokens := (batchedMinNewTokensPenalizer negInf).merge reqs theirReqs o.minNewTokens
        their.minNewTokens
      presence := batchedPresencePenalizer.merge reqs theirReqs o.presence their.presence
      repetition := batchedRepetitionPenalizer.merge reqs theirReqs o.repetition their.repetition
      isRequired := true }

end Orchestrator

end Sglang.Sampling
