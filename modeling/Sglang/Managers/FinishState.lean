import Mathlib.Data.List.Infix
import Mathlib.Tactic

/-!
# When a Request Is Finished

Model of `Req.update_finish_state` (`managers/schedule_batch.py`), which is called after each step
with the number of tokens that the step accepted.

- `checkVocabBoundaryFinish`, `checkStrBasedFinish`, `checkTokenBasedFinish`: the checks of the
  accepted tokens,
- `updateFinishState`: their order,
- `Req.feed`: accepted runs, until the request is finished.

## Conventions

- Texts are lists of characters, `s <:+: text` is `s in text`, and a set is a list.
- `re.search` is a parameter.
- A check is `some` of the changed request where the source returns `True`.
-/

namespace Sglang.Managers

/-! ## Section 1: Requests -/

inductive FinishReason where
  | matchedToken (matched : Int)
  | matchedStr (matched : List Char)
  | matchedRegex (matched : List Char)
  | length (length : Nat)
  | abort (message : List Char)
deriving DecidableEq, Repr

structure SamplingParams where
  maxNewTokens : Nat
  ignoreEos : Bool
  stopTokenIds : List Int
  stopStrs : List (List Char)
  stopRegexStrs : List (List Char)
  stopStrMaxLen : Nat
  stopRegexMaxLen : Nat

structure Tokenizer where
  decode : List Int → List Char
  eosTokenId : Option Int
  additionalStopTokenIds : List Int

structure Req where
  samplingParams : SamplingParams
  eosTokenIds : List Int
  tokenizer : Option Tokenizer
  vocabSize : Nat
  /-- `is_terminated` of the grammar, if there is one. -/
  grammar : Option Bool
  decodedText : List Char
  outputIds : List Int
  finishedReason : Option FinishReason
  finishedLen : Option Nat
  toFinish : Option FinishReason

namespace Req

variable (reSearch : List Char → List Char → Bool) (req : Req)

def finished : Bool := req.finishedReason.isSome

/-- Output ids through the stop, which is included. -/
def outputIdsThroughStop : List Int :=
  match req.finishedLen with
  | some n => req.outputIds.take n
  | none => req.outputIds

/-- `xs[-n:]`. -/
def lastIds (n : Nat) (xs : List Int) : List Int := if n = 0 then xs else xs.drop (xs.length - n)

/-- `self.tokenizer.decode`; without a tokenizer there are no stop strings. -/
def decode (ids : List Int) : List Char :=
  match req.tokenizer with
  | some tokenizer => tokenizer.decode ids
  | none => []

/-! ## Section 2: Stop strings -/

def stopMatchTailLen (newAcceptedLen : Nat) : Nat :=
  let maxLenTailStr :=
    max (req.samplingParams.stopStrMaxLen + 1) (req.samplingParams.stopRegexMaxLen + 1)
  min (maxLenTailStr + (newAcceptedLen - 1)) req.outputIds.length

def tailStr (newAcceptedLen : Nat) : List Char :=
  if req.samplingParams.stopStrs.length = 0 ∧ req.samplingParams.stopRegexStrs.length = 0 then []
  else req.decode (lastIds (req.stopMatchTailLen newAcceptedLen) req.outputIds)

/-- `_locate_str_stop_finished_len`: the first prefix of the window that matches, among those that
end in the accepted tokens. -/
def locateStrStopFinishedLen (newAcceptedLen : Nat) (matched : List Char → Bool) : Nat :=
  let start := req.outputIds.length - req.stopMatchTailLen newAcceptedLen
  let tokenWindow := req.outputIds.drop start
  let first := max 1 (tokenWindow.length - newAcceptedLen + 1)
  match (List.range' first (tokenWindow.length - first)).find? fun tokenCount =>
      matched (req.decode (tokenWindow.take tokenCount)) with
  | some tokenCount => start + tokenCount
  -- the full window is known to match
  | none => req.outputIds.length

/-- The loop over `stop_strs`. -/
def checkStopStrs (newAcceptedLen : Nat) : Option Req :=
  let tail := req.tailStr newAcceptedLen
  match req.samplingParams.stopStrs.find? fun s => s <:+: tail ∨ s <:+: req.decodedText with
  | none => none
  | some s =>
    let req := { req with finishedReason := some (.matchedStr s) }
    if s <:+: tail then
      some { req with
        finishedLen :=
          some (req.locateStrStopFinishedLen newAcceptedLen fun text => decide (s <:+: text)) }
    else some req

/-- The loop over `stop_regex_strs`. -/
def checkStopRegexStrs (newAcceptedLen : Nat) : Option Req :=
  match req.samplingParams.stopRegexStrs.find? fun r => reSearch r (req.tailStr newAcceptedLen) with
  | none => none
  | some r =>
    some { req with
      finishedReason := some (.matchedRegex r)
      finishedLen := some (req.locateStrStopFinishedLen newAcceptedLen (reSearch r)) }

def checkStrBasedFinish (newAcceptedLen : Nat) : Option Req :=
  match req.checkStopStrs newAcceptedLen with
  | some req => some req
  | none => req.checkStopRegexStrs reSearch newAcceptedLen

/-! ## Section 3: Tokens -/

/-- `matched_eos` of one token. -/
def matchedEos (tokenId : Int) : Bool :=
  decide (tokenId ∈ req.samplingParams.stopTokenIds) || decide (tokenId ∈ req.eosTokenIds) ||
    match req.tokenizer with
    | some tokenizer =>
      decide (tokenizer.eosTokenId = some tokenId) ||
        decide (tokenId ∈ tokenizer.additionalStopTokenIds)
    | none => false

def checkTokenBasedFinish (newAcceptedTokens : List Int) : Option Req :=
  if req.samplingParams.ignoreEos then none
  else
    match newAcceptedTokens.zipIdx.find? fun token => req.matchedEos token.1 with
    | none => none
    | some (tokenId, i) =>
      let matchedPos := req.outputIds.length - newAcceptedTokens.length + i
      some { req with
        finishedReason := some (.matchedToken tokenId), finishedLen := some (matchedPos + 1) }

def checkVocabBoundaryFinish (newAcceptedTokens : List Int) : Option Req :=
  match newAcceptedTokens.zipIdx.find? fun token => (req.vocabSize : Int) ≤ token.1 ∨
    token.1 < 0 with
  | none => none
  | some (_, i) =>
    let offset := req.outputIds.length - newAcceptedTokens.length + i
    -- the output gets the first stop token, or the first EOS token
    let outputIds := match req.samplingParams.stopTokenIds with
      | [] => req.outputIds
      | stop :: _ => req.outputIds.set offset stop
    let outputIds := match req.eosTokenIds with
      | [] => outputIds
      | eos :: _ => outputIds.set offset eos
    some { req with
      outputIds := outputIds
      finishedReason := some (.matchedStr "NaN happened".toList)
      finishedLen := some (offset + 1) }

/-! ## Section 4: All checks -/

def updateFinishState (newAcceptedLen : Nat) : Req :=
  if req.finished then req
  else
    match req.toFinish with
    | some reason => { req with finishedReason := some reason, toFinish := none }
    | none =>
      if req.samplingParams.maxNewTokens ≤ req.outputIds.length then
        { req with
          finishedReason := some (.length req.samplingParams.maxNewTokens)
          finishedLen := some req.samplingParams.maxNewTokens }
      else if req.grammar = some true then
        { req with finishedReason := some (.matchedToken (req.outputIds.getLastD 0)) }
      else
        let newAcceptedTokens := lastIds newAcceptedLen req.outputIds
        match req.checkVocabBoundaryFinish newAcceptedTokens with
        | some req => req
        | none =>
          match req.checkStrBasedFinish reSearch newAcceptedLen with
          | some req => req
          | none => (req.checkTokenBasedFinish newAcceptedTokens).getD req

/-- One step that accepts `run`. -/
def acceptRun (run : List Int) : Req :=
  if req.finished then req
  else updateFinishState reSearch { req with outputIds := req.outputIds ++ run } run.length

/-- Accepted runs, until the request is finished. -/
def feed (runs : List (List Int)) : Req := runs.foldl (acceptRun reSearch) req

end Req

end Sglang.Managers
