import Mathlib.Data.Finset.Basic
import Mathlib.Tactic

/-!
# Control Messages for the Drafter

Model of the drafter side of decoupled speculative decoding (`speculative/decoupled_spec_io.py`).

- `VerifierCommitSegment`: contiguous commits of one request, appended and extracted in parts,
- `DraftControlInbox`: what has come from the verifiers and was not extracted yet.

## Conventions

- `verifier_commit_segments` is the list of its values: the key of an entry is the key of its
  segment.
- An exception is `Except.error`, with what its text shows.
-/

namespace Sglang.Speculative

/-! ## Section 1: Messages -/

structure DraftReqKey where
  srcVerifierRank : Int
  requestId : String
deriving DecidableEq, Repr

structure DraftSync where
  requestId : String
  srcVerifierRank : Int
  dstDrafterRank : Int
  promptTokenIds : List Int
  committedOutputs : List Int
deriving DecidableEq, Repr

structure VerifyCommit where
  requestId : String
  srcVerifierRank : Int
  dstDrafterRank : Int
  preVerifyCommittedLen : Int
  committedTokens : List Int
deriving DecidableEq, Repr

structure DraftClose where
  requestId : String
  srcVerifierRank : Int
  dstDrafterRank : Int
  reason : String
deriving DecidableEq, Repr

def DraftSync.draftKey (message : DraftSync) : DraftReqKey :=
    ⟨message.srcVerifierRank, message.requestId⟩

def VerifyCommit.draftKey (message : VerifyCommit) : DraftReqKey :=
    ⟨message.srcVerifierRank, message.requestId⟩

def DraftClose.draftKey (message : DraftClose) : DraftReqKey :=
    ⟨message.srcVerifierRank, message.requestId⟩

structure DraftControlBatch where
  dstDrafterRank : Int
  syncMessages : List DraftSync
  verifyCommitMessages : List VerifyCommit
  closeMessages : List DraftClose

/-- What can be raised. -/
inductive ControlError where
  | differentRequest (segmentKey messageKey : DraftReqKey)
  | differentDrafterRank (requestId : String) (segmentDrafterRank messageDrafterRank : Int)
  | emptyCommittedTokens (requestId : String) (preVerifyCommittedLen : Int)
  | negativeCommittedLen (requestId : String) (preVerifyCommittedLen : Int)
  | notContiguous (requestId : String) (expectedLen actualLen : Int)
  | nonPositivePrefix (requestId : String) (numTokens : Int)
  | prefixTooLong (requestId : String) (numTokens : Int) (segmentLen : Nat)
deriving DecidableEq, Repr

def VerifyCommit.validateCommittedTokens (message : VerifyCommit) : Except ControlError Unit :=
  if message.committedTokens = [] then
    .error (.emptyCommittedTokens message.requestId message.preVerifyCommittedLen)
  else if message.preVerifyCommittedLen < 0 then
    .error (.negativeCommittedLen message.requestId message.preVerifyCommittedLen)
  else .ok ()

/-! ## Section 2: Segments -/

structure VerifierCommitSegment where
  draftKey : DraftReqKey
  dstDrafterRank : Int
  preVerifyCommittedLen : Int
  committedTokens : List Int
deriving DecidableEq, Repr

namespace VerifierCommitSegment

variable (segment : VerifierCommitSegment)

def endCommittedLen : Int := segment.preVerifyCommittedLen + segment.committedTokens.length

def appendMessage (message : VerifyCommit) : Except ControlError VerifierCommitSegment :=
  if message.draftKey ≠ segment.draftKey then
    .error (.differentRequest segment.draftKey message.draftKey)
  else if message.dstDrafterRank ≠ segment.dstDrafterRank then
    .error (.differentDrafterRank message.requestId segment.dstDrafterRank message.dstDrafterRank)
  else do
    message.validateCommittedTokens
    if message.preVerifyCommittedLen ≠ segment.endCommittedLen then
      .error (.notContiguous message.requestId segment.endCommittedLen
        message.preVerifyCommittedLen)
    else .ok { segment with committedTokens := segment.committedTokens ++ message.committedTokens }

def extractPrefix (numTokens : Int) : Except ControlError
    (VerifierCommitSegment × VerifierCommitSegment) :=
  if numTokens ≤ 0 then .error (.nonPositivePrefix segment.draftKey.requestId numTokens)
  else if numTokens > segment.committedTokens.length then
    .error (.prefixTooLong segment.draftKey.requestId numTokens segment.committedTokens.length)
  else
    .ok ({ segment with committedTokens := segment.committedTokens.take numTokens.toNat },
      { segment with
        preVerifyCommittedLen := segment.preVerifyCommittedLen + numTokens
        committedTokens := segment.committedTokens.drop numTokens.toNat })

end VerifierCommitSegment

/-! ## Section 3: The inbox -/

structure DraftControlInbox where
  syncMessages : List DraftSync
  verifierCommitSegments : List VerifierCommitSegment
  closeKeys : Finset DraftReqKey

structure ReadyDraftControls where
  syncMessages : List DraftSync
  closeKeys : Finset DraftReqKey
  readyCommitSegments : List VerifierCommitSegment

namespace DraftControlInbox

variable (inbox : DraftControlInbox)

def empty : DraftControlInbox := ⟨[], [], ∅⟩

def addCloseKeyLocked (draftKey : DraftReqKey) : DraftControlInbox where
  closeKeys := insert draftKey inbox.closeKeys
  verifierCommitSegments := inbox.verifierCommitSegments.filter (·.draftKey ≠ draftKey)
  syncMessages := inbox.syncMessages.filter (·.draftKey ≠ draftKey)

def addVerifyCommitLocked (message : VerifyCommit) : Except ControlError DraftControlInbox :=
  if message.draftKey ∈ inbox.closeKeys then .ok inbox
  else
    match inbox.verifierCommitSegments.find? (·.draftKey = message.draftKey) with
    | none => do
      let segment : VerifierCommitSegment :=
        ⟨message.draftKey, message.dstDrafterRank, message.preVerifyCommittedLen, []⟩
      let segment ← segment.appendMessage message
      .ok { inbox with verifierCommitSegments := inbox.verifierCommitSegments ++ [segment] }
    | some segment => do
      let segment ← segment.appendMessage message
      .ok { inbox with
        verifierCommitSegments := inbox.verifierCommitSegments.map fun other =>
          if other.draftKey = message.draftKey then segment else other }

def addSyncMessages (messages : List DraftSync) : DraftControlInbox :=
  { inbox with syncMessages :=
    inbox.syncMessages ++ messages.filter (·.draftKey ∉ inbox.closeKeys) }

def addControlBatchLocked (batch : DraftControlBatch) : Except ControlError DraftControlInbox :=
  let inbox := (batch.closeMessages.map (·.draftKey)).foldl addCloseKeyLocked inbox
  let inbox := inbox.addSyncMessages batch.syncMessages
  batch.verifyCommitMessages.foldlM addVerifyCommitLocked inbox

/-- The loop over the segments: the prefixes that are ready, and the segments that stay. -/
def extractSegments (consumableCommitLen : VerifierCommitSegment → Int) :
    List VerifierCommitSegment →
    Except ControlError (List VerifierCommitSegment × List VerifierCommitSegment)
  | [] => .ok ([], [])
  | segment :: segments =>
    let consumableLen := consumableCommitLen segment
    if consumableLen ≤ 0 then do
      let (ready, rest) ← extractSegments consumableCommitLen segments
      .ok (ready, segment :: rest)
    else do
      let (front, segment) ← segment.extractPrefix consumableLen
      let (ready, rest) ← extractSegments consumableCommitLen segments
      .ok (front :: ready, if segment.committedTokens = [] then rest else segment :: rest)

def extractReadyControlsLocked (consumableCommitLen : VerifierCommitSegment → Int) :
    Except ControlError (ReadyDraftControls × DraftControlInbox) := do
  let (ready, rest) ← extractSegments consumableCommitLen inbox.verifierCommitSegments
  .ok (⟨inbox.syncMessages, inbox.closeKeys, ready⟩, ⟨[], rest, ∅⟩)

end DraftControlInbox

end Sglang.Speculative
