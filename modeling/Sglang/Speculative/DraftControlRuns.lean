import Sglang.Lib.Runs
import Sglang.Speculative.DraftControlInbox

/-!
# What a Drafter Extracts

Runs of a `DraftControlInbox`: control batches from the verifiers, and extractions.

- `Item`, `Orderly`: the log of one request, and what may be extracted when,
- `SentInOrder`: a batch continues what the verifier of a request sent before,
- `addVerifyCommits_spec`, `extractSegments_spec`: what the two loops do to the segment of a
  request,
- `inbox_keeps`: nothing is lost, repeated or reordered, as long as no request is opened again
  before its close was extracted,
- `not_inbox_keeps`: where one is, its commits are lost.
-/

namespace Sglang.Speculative

open List
open Lib (run Along)

/-! ## Section 1: The log of a request -/

/-- What was sent for a request, and what was extracted. -/
inductive Item where
  | sentSync (message : DraftSync)
  | sentCommit (message : VerifyCommit)
  | sentClose (message : DraftClose)
  | gotClose
  | gotSync (message : DraftSync)
  | gotSegment (segment : VerifierCommitSegment)

abbrev KeyLog := List Item

namespace KeyLog

/-- A sync was sent and no close after it. -/
def isOpen : KeyLog → Bool
  | [] => false
  | .sentSync _ :: _ => true
  | .sentClose _ :: _ => false
  | _ :: log => isOpen log

def lastSync : KeyLog → Option DraftSync
  | [] => none
  | .sentSync message :: _ => some message
  | _ :: log => lastSync log

/-- The committed length that the last sync starts from. -/
def base (log : KeyLog) : Nat :=
  match lastSync log with
  | some message => message.committedOutputs.length
  | none => 0

/-- The tokens committed since the last sync. -/
def committed : KeyLog → List Int
  | [] => []
  | .sentSync _ :: _ => []
  | .sentCommit message :: log => committed log ++ message.committedTokens
  | _ :: log => committed log

/-- The tokens of the segments extracted since the last sync. -/
def extracted : KeyLog → List Int
  | [] => []
  | .sentSync _ :: _ => []
  | .gotSegment segment :: log => extracted log ++ segment.committedTokens
  | _ :: log => extracted log

/-- The syncs extracted since the last one was sent. -/
def syncsGot : KeyLog → Nat
  | [] => 0
  | .sentSync _ :: _ => 0
  | .gotSync _ :: log => syncsGot log + 1
  | _ :: log => syncsGot log

def closesSent : KeyLog → Nat
  | [] => 0
  | .sentClose _ :: log => closesSent log + 1
  | _ :: log => closesSent log

def closesGot : KeyLog → Nat
  | [] => 0
  | .gotClose :: log => closesGot log + 1
  | _ :: log => closesGot log

/-- Whatever was extracted could be extracted then: a close that was sent; a sync that was not
closed, once and after all earlier closes; tokens of a request that was not closed, from where those
before them end. -/
def Orderly : KeyLog → Prop
  | [] => True
  | .gotClose :: log => closesGot log < closesSent log ∧ Orderly log
  | .gotSync message :: log =>
    (isOpen log = true ∧ lastSync log = some message ∧ syncsGot log = 0 ∧
      closesGot log = closesSent log) ∧ Orderly log
  | .gotSegment segment :: log =>
    (isOpen log = true ∧ segment.committedTokens ≠ [] ∧
      segment.preVerifyCommittedLen = (base log + (extracted log).length : Nat)) ∧ Orderly log
  | _ :: log => Orderly log

end KeyLog

/-! ## Section 2: Runs -/

inductive Event where
  | batch (batch : DraftControlBatch)
  | extract (consumableCommitLen : VerifierCommitSegment → Int)

structure State where
  inbox : DraftControlInbox
  log : DraftReqKey → KeyLog

namespace DraftControlBatch

variable (batch : DraftControlBatch) (k : DraftReqKey)

def syncsOf : List DraftSync := batch.syncMessages.filter (·.draftKey = k)

def commitsOf : List VerifyCommit := batch.verifyCommitMessages.filter (·.draftKey = k)

def closesOf : List DraftClose := batch.closeMessages.filter (·.draftKey = k)

/-- The part of a request, in the order in which its verifier produced it. -/
def itemsOf : List Item :=
  (batch.syncsOf k).map .sentSync ++ (batch.commitsOf k).map .sentCommit ++
    (batch.closesOf k).map .sentClose

end DraftControlBatch

/-- The part of a request, in the order in which the drafter takes it. -/
def ReadyDraftControls.itemsOf (ready : ReadyDraftControls) (k : DraftReqKey) : List Item :=
  (if k ∈ ready.closeKeys then [.gotClose] else []) ++
    (ready.syncMessages.filter (·.draftKey = k)).map .gotSync ++
    (ready.readyCommitSegments.filter (·.draftKey = k)).map .gotSegment

namespace State

def init : State := ⟨.empty, fun _ => []⟩

def step (s : State) : Event → Except ControlError State
  | .batch batch => do
    let inbox ← s.inbox.addControlBatchLocked batch
    .ok ⟨inbox, fun k => (batch.itemsOf k).reverse ++ s.log k⟩
  | .extract consumableCommitLen => do
    let (ready, inbox) ← s.inbox.extractReadyControlsLocked consumableCommitLen
    .ok ⟨inbox, fun k => (ready.itemsOf k).reverse ++ s.log k⟩

def step? (s : State) (event : Event) : Option State := (s.step event).toOption

end State

/-- Commits of which each starts where the one before ends. -/
def Contiguous (rank : Int) : Nat → List VerifyCommit → Prop
  | _, [] => True
  | start, message :: messages =>
    (message.preVerifyCommittedLen = start ∧ message.committedTokens ≠ [] ∧
      message.dstDrafterRank = rank) ∧
      Contiguous rank (start + message.committedTokens.length) messages

/-- The batch continues the stream of request `k`: a sync only where it is closed, commits only
where it is open, and one close at most, of which no sync of the batch comes after. -/
structure SentInOrder (rank : Int) (log : KeyLog) (batch : DraftControlBatch) (k : DraftReqKey) :
    Prop where
  sync : batch.syncsOf k = [] ∨ (log.isOpen = false ∧ ∃ message, batch.syncsOf k = [message])
  idle : log.isOpen = false → batch.syncsOf k = [] → batch.commitsOf k = [] ∧ batch.closesOf k = []
  contiguous : Contiguous rank (KeyLog.base ((batch.syncsOf k).map .sentSync ++ log) +
    (KeyLog.committed ((batch.syncsOf k).map .sentSync ++ log)).length) (batch.commitsOf k)
  close : (batch.closesOf k).length ≤ 1

/-- What the verifiers and the scheduler of the drafter do. -/
def Produced (rank : Int) (s : State) : Event → Prop
  | .batch batch => ∀ k, SentInOrder rank (s.log k) batch k
  | .extract consumableCommitLen => ∀ segment ∈ s.inbox.verifierCommitSegments,
      0 ≤ consumableCommitLen segment ∧ consumableCommitLen segment ≤ segment.committedTokens.length

/-- No request is opened again before its close was extracted. -/
def ReopensExtracted (s : State) : Event → Prop
  | .batch batch => ∀ message ∈ batch.syncMessages, message.draftKey ∉ s.inbox.closeKeys
  | .extract _ => True

/-- The tokens of a request that were not extracted yet. -/
def DraftControlInbox.pending (inbox : DraftControlInbox) (k : DraftReqKey) : List Int :=
  (inbox.verifierCommitSegments.filter (·.draftKey = k)).flatMap (·.committedTokens)

/-- Nothing of a request is lost, repeated or reordered. -/
structure Kept (s : State) (k : DraftReqKey) : Prop where
  orderly : (s.log k).Orderly
  one_segment : (s.inbox.verifierCommitSegments.filter (·.draftKey = k)).length ≤ 1
  tokens : (s.log k).isOpen = true → (s.log k).extracted ++ s.inbox.pending k = (s.log k).committed
  start : (s.log k).isOpen = true → ∀ segment ∈ s.inbox.verifierCommitSegments,
    segment.draftKey = k →
    segment.preVerifyCommittedLen = ((s.log k).base + (s.log k).extracted.length : Nat)
  closes : (s.log k).closesSent = (s.log k).closesGot + if k ∈ s.inbox.closeKeys then 1 else 0

/-! ## Section 3: The loops over commits and segments -/

variable {rank : Int} {k : DraftReqKey}

/-- The segments of a request of which `tokens` are pending, from `start` on. -/
def pendingSegments (rank : Int) (k : DraftReqKey) (start : Nat) (tokens : List Int) :
    List VerifierCommitSegment :=
  if tokens = [] then [] else [⟨k, rank, start, tokens⟩]

variable {start : Nat} {tokens : List Int} {f : VerifierCommitSegment → Int} {s : State}
  {batch : DraftControlBatch}

theorem pendingSegments_nil : pendingSegments rank k start [] = [] := if_pos rfl

theorem pendingSegments_of_ne (h : tokens ≠ []) :
    pendingSegments rank k start tokens = [⟨k, rank, start, tokens⟩] := if_neg h

/-- The next commit, and with it the pending tokens, are read off the segment. -/
theorem pendingSegments_inj {start' : Nat} {tokens' : List Int}
    (h : pendingSegments rank k start tokens = pendingSegments rank k start' tokens')
    (hend : start + tokens.length = start' + tokens'.length) : start = start' ∧
    tokens = tokens' := by
  by_cases htokens : tokens = [] <;> by_cases htokens' : tokens' = []
  · subst htokens htokens'
    exact ⟨hend, rfl⟩
  · rw [htokens, pendingSegments_nil, pendingSegments_of_ne htokens'] at h
    cases h
  · rw [htokens', pendingSegments_nil, pendingSegments_of_ne htokens] at h
    cases h
  · rw [pendingSegments_of_ne htokens, pendingSegments_of_ne htokens'] at h
    injection h with h
    injection h with _ _ hstart htokens
    exact ⟨Int.ofNat.inj hstart, htokens⟩

theorem mem_pendingSegments {segment : VerifierCommitSegment}
    (h : segment ∈ pendingSegments rank k start tokens) : segment = ⟨k, rank, start, tokens⟩ := by
  rw [pendingSegments] at h
  split at h
  · cases h
  · exact mem_singleton.mp h

theorem pendingSegments_tokens (start : Nat) (tokens : List Int) :
    (pendingSegments rank k start tokens).flatMap (·.committedTokens) = tokens := by
  rw [pendingSegments]
  split
  · next h => rw [h, flatMap_nil]
  · rw [flatMap_singleton]

theorem pendingSegments_length (start : Nat) (tokens : List Int) :
    (pendingSegments rank k start tokens).length ≤ 1 := by
  rw [pendingSegments]
  split
  · exact Nat.zero_le 1
  · exact le_rfl

theorem appendMessage_ok {segment : VerifierCommitSegment} {message : VerifyCommit}
    (hkey : message.draftKey = segment.draftKey)
    (hrank : message.dstDrafterRank = segment.dstDrafterRank)
    (hne : message.committedTokens ≠ []) (hnonneg : 0 ≤ message.preVerifyCommittedLen)
    (hend : message.preVerifyCommittedLen = segment.endCommittedLen) :
    segment.appendMessage message =
      .ok { segment with
        committedTokens := segment.committedTokens ++ message.committedTokens } := by
  have hvalid : message.validateCommittedTokens = .ok () := by
    rw [VerifyCommit.validateCommittedTokens, if_neg hne, if_neg (by omega)]
  rw [VerifierCommitSegment.appendMessage, if_neg (not_not.mpr hkey), if_neg (not_not.mpr hrank),
    hvalid]
  exact if_neg (not_not.mpr hend)

/-- One commit of an open request extends its segment, and no other. -/
theorem addVerifyCommitLocked_spec {inbox : DraftControlInbox} {message : VerifyCommit}
    (hclose : message.draftKey ∉ inbox.closeKeys)
    (hpending : inbox.verifierCommitSegments.filter (·.draftKey = message.draftKey) =
      pendingSegments rank message.draftKey start tokens)
    (hstart : message.preVerifyCommittedLen = (start + tokens.length : Nat))
    (hne : message.committedTokens ≠ [])
    (hrank : message.dstDrafterRank = rank) :
    ∃ segments, inbox.addVerifyCommitLocked message = .ok
    { inbox with verifierCommitSegments := segments } ∧
    segments.filter (·.draftKey = message.draftKey) = pendingSegments rank message.draftKey start
    (tokens ++ message.committedTokens) ∧ ∀ k, k ≠ message.draftKey →
        segments.filter (·.draftKey = k) = inbox.verifierCommitSegments.filter
        (·.draftKey = k) := by
  have hfind : inbox.verifierCommitSegments.find? (·.draftKey = message.draftKey) =
      (pendingSegments rank message.draftKey start tokens).head? := by
    rw [← hpending, head?_filter]
  have happend : tokens ++ message.committedTokens ≠ [] := by
    intro h
    exact hne (append_eq_nil_iff.mp h).2
  rw [DraftControlInbox.addVerifyCommitLocked, if_neg hclose, hfind, pendingSegments_of_ne happend]
  by_cases htokens : tokens = []
  · -- the first commit that is pending
    subst htokens
    have hcommit : VerifierCommitSegment.appendMessage
        ⟨message.draftKey, message.dstDrafterRank, message.preVerifyCommittedLen, []⟩ message =
        .ok ⟨message.draftKey, message.dstDrafterRank, message.preVerifyCommittedLen,
          message.committedTokens⟩ := by
      apply appendMessage_ok rfl rfl hne
      · omega
      · rw [VerifierCommitSegment.endCommittedLen, length_nil, Nat.cast_zero, add_zero]
    rw [pendingSegments_nil] at hpending ⊢
    refine ⟨inbox.verifierCommitSegments ++
      [⟨message.draftKey, message.dstDrafterRank, message.preVerifyCommittedLen,
        message.committedTokens⟩], ?_, ?_, ?_⟩
    · simp only [head?_nil, hcommit]
      rfl
    · rw [filter_append, hpending]
      simp [hstart, hrank]
    · intro k hk
      rw [filter_append]
      simp [Ne.symm hk]
  · rw [pendingSegments_of_ne htokens] at hpending ⊢
    obtain ⟨grown, hgrown⟩ : ∃ grown : VerifierCommitSegment,
        grown = ⟨message.draftKey, rank, start, tokens ++ message.committedTokens⟩ := ⟨_, rfl⟩
    have hkey : grown.draftKey = message.draftKey := by rw [hgrown]
    have hcommit : VerifierCommitSegment.appendMessage ⟨message.draftKey, rank, start,
      tokens⟩ message = .ok grown := by
      rw [hgrown]
      apply appendMessage_ok rfl hrank hne
      · omega
      · rw [hstart, VerifierCommitSegment.endCommittedLen]
        push_cast
        rfl
    -- the segment is replaced by one of the same request
    have hsame (k : DraftReqKey) : (fun segment : VerifierCommitSegment =>
      decide (segment.draftKey = k)) ∘ (fun other => if other.draftKey = message.draftKey then grown
        else other) = fun segment => decide (segment.draftKey = k) := by
      funext other
      by_cases hother : other.draftKey = message.draftKey <;> simp [hother, hkey]
    refine ⟨inbox.verifierCommitSegments.map fun other => if other.draftKey = message.draftKey then
      grown
      else other, ?_, ?_, ?_⟩
    · simp only [head?_cons, hcommit]
      rfl
    · rw [filter_map, hsame, hpending, hgrown]
      simp
    · intro k hk
      rw [filter_map, hsame]
      refine (map_congr_left fun other hother => ?_).trans (map_id _)
      have hkey : other.draftKey = k := by simpa using (mem_filter.mp hother).2
      rw [if_neg (by rw [hkey]; exact hk), id]

/-- The loop over the commits of a batch: the segments of open requests grow, the others stay. -/
theorem addVerifyCommits_spec (messages : List VerifyCommit) : ∀ inbox : DraftControlInbox,
    (∀ k ∉ inbox.closeKeys, ∃ start tokens,
      inbox.verifierCommitSegments.filter (·.draftKey = k) = pendingSegments rank k start tokens ∧
      Contiguous rank (start + tokens.length) (messages.filter (·.draftKey = k))) →
    ∃ segments, messages.foldlM DraftControlInbox.addVerifyCommitLocked inbox =
        .ok { inbox with verifierCommitSegments := segments } ∧
      (∀ k ∉ inbox.closeKeys, ∀ start tokens,
        inbox.verifierCommitSegments.filter (·.draftKey = k) = pendingSegments rank k start tokens →
        Contiguous rank (start + tokens.length) (messages.filter (·.draftKey = k)) →
        segments.filter (·.draftKey = k) = pendingSegments rank k start
          (tokens ++ (messages.filter (·.draftKey = k)).flatMap (·.committedTokens))) ∧
      ∀ k ∈ inbox.closeKeys,
        segments.filter (·.draftKey = k) = inbox.verifierCommitSegments.filter
        (·.draftKey = k) := by
  -- the induction is on the messages, each of which touches the segments of its key only
  induction messages with
  | nil =>
    intro inbox _
    refine ⟨inbox.verifierCommitSegments, rfl, fun k _ start tokens hpending _ => ?_,
      fun _ _ => rfl⟩
    rw [hpending, filter_nil, flatMap_nil, append_nil]
  | cons message messages ih =>
    intro inbox h
    have hother {k : DraftReqKey} (hk : k ≠ message.draftKey) :
        (message :: messages).filter (·.draftKey = k) = messages.filter (·.draftKey = k) :=
      filter_cons_of_neg (by simpa using Ne.symm hk)
    by_cases hclose : message.draftKey ∈ inbox.closeKeys
    · -- ignored
      have hskip {k : DraftReqKey} (hk : k ∉ inbox.closeKeys) :=
        hother (k := k) fun heq => hk (heq ▸ hclose)
      obtain ⟨segments, hrun, hopen, hclosed⟩ := ih inbox fun k hk => by
        obtain ⟨start, tokens, hpending, hcontig⟩ := h k hk
        rw [hskip hk] at hcontig
        exact ⟨start, tokens, hpending, hcontig⟩
      refine ⟨segments, ?_, fun k hk start tokens hpending hcontig => ?_, hclosed⟩
      · rw [foldlM_cons, DraftControlInbox.addVerifyCommitLocked, if_pos hclose]
        exact hrun
      · rw [hskip hk] at hcontig ⊢
        exact hopen k hk start tokens hpending hcontig
    · -- added to the segments of its key
      obtain ⟨start, tokens, hpending, hcontig⟩ := h message.draftKey hclose
      have hself : (message :: messages).filter (·.draftKey = message.draftKey) =
          message :: messages.filter (·.draftKey = message.draftKey) := filter_cons_of_pos (by simp)
      rw [hself] at hcontig
      obtain ⟨⟨hstart, hne, hrank⟩, hrest⟩ := hcontig
      obtain ⟨mid, hadd, hmid, hmidOther⟩ :=
        addVerifyCommitLocked_spec hclose hpending hstart hne hrank
      rw [Nat.add_assoc, ← length_append] at hrest
      obtain ⟨segments, hrun, hopen, hclosed⟩ := ih { inbox with verifierCommitSegments := mid }
        fun k hk => by
          by_cases hkey : k = message.draftKey
          · subst hkey
            exact ⟨start, _, hmid, hrest⟩
          · obtain ⟨start', tokens', hpending', hcontig'⟩ := h k hk
            rw [hother hkey] at hcontig'
            exact ⟨start', tokens', (hmidOther k hkey).trans hpending', hcontig'⟩
      refine ⟨segments, ?_, fun k hk start' tokens' hpending' hcontig' => ?_, fun k hk => ?_⟩
      · rw [foldlM_cons, hadd]
        exact hrun
      · by_cases hkey : k = message.draftKey
        · -- the given segment is the one that the commit was added to
          subst hkey
          rw [hself] at hcontig' ⊢
          obtain ⟨rfl, rfl⟩ := pendingSegments_inj (hpending.symm.trans hpending')
            (Int.ofNat.inj (hstart.symm.trans hcontig'.1.1))
          rw [flatMap_cons, ← append_assoc]
          exact hopen _ hk start _ hmid hrest
        · rw [hother hkey] at hcontig' ⊢
          exact hopen k hk start' tokens' ((hmidOther k hkey).trans hpending') hcontig'
      · have hkey : k ≠ message.draftKey := by
          rintro rfl
          exact hclose hk
        rw [hclosed k hk, hmidOther k hkey]

/-- What an extraction takes of a segment. -/
def taken (f : VerifierCommitSegment → Int) (segment : VerifierCommitSegment) :
    List VerifierCommitSegment :=
  if f segment ≤ 0 then []
  else [{ segment with committedTokens := segment.committedTokens.take (f segment).toNat }]

def left (f : VerifierCommitSegment → Int) (segment : VerifierCommitSegment) :
    List VerifierCommitSegment :=
  if f segment ≤ 0 then [segment]
  else if segment.committedTokens.drop (f segment).toNat = [] then []
  else
    [{ segment with
      preVerifyCommittedLen := segment.preVerifyCommittedLen + f segment
      committedTokens := segment.committedTokens.drop (f segment).toNat }]

theorem extractSegments_spec (segments : List VerifierCommitSegment)
    (h : ∀ segment ∈ segments, f segment ≤ segment.committedTokens.length) :
    DraftControlInbox.extractSegments f segments = .ok
    (segments.flatMap (taken f), segments.flatMap (left f)) := by
  induction segments with
  | nil => rfl
  | cons segment segments ih =>
    have hrest := ih fun other hother => h other (mem_cons_of_mem _ hother)
    have hle := h segment (mem_cons_self ..)
    rw [DraftControlInbox.extractSegments, hrest, flatMap_cons, flatMap_cons, taken, left]
    by_cases hzero : f segment ≤ 0
    · simp only [if_pos hzero]
      rfl
    · have hextract : segment.extractPrefix (f segment) =
          .ok ({ segment with committedTokens := segment.committedTokens.take (f segment).toNat },
            { segment with
              preVerifyCommittedLen := segment.preVerifyCommittedLen + f segment
              committedTokens := segment.committedTokens.drop (f segment).toNat }) := by
        rw [VerifierCommitSegment.extractPrefix, if_neg hzero, if_neg (by omega)]
      simp only [if_neg hzero, hextract]
      by_cases hnil : segment.committedTokens.drop (f segment).toNat = []
      · simp only [if_pos hnil]
        show Except.ok _ = _
        simp [hnil]
      · simp only [if_neg hnil]
        show Except.ok _ = _
        simp [hnil]

theorem filter_flatMap {g : VerifierCommitSegment → List VerifierCommitSegment}
    (hg : ∀ segment, ∀ other ∈ g segment, other.draftKey = segment.draftKey) (k : DraftReqKey)
    (segments : List VerifierCommitSegment) :
    (segments.flatMap g).filter (·.draftKey = k) =
      (segments.filter (·.draftKey = k)).flatMap g := by
  induction segments with
  | nil => rfl
  | cons segment segments ih =>
    rw [flatMap_cons, filter_append, ih]
    by_cases hk : segment.draftKey = k
    · rw [filter_cons_of_pos (by simpa using hk), flatMap_cons]
      congr 1
      rw [filter_eq_self]
      intro other hother
      simpa using (hg segment other hother).trans hk
    · have hnil : (g segment).filter (·.draftKey = k) = [] := by
        rw [filter_eq_nil_iff]
        intro other hother
        rw [hg segment other hother]
        simpa using hk
      rw [filter_cons_of_neg (by simpa using hk), hnil, nil_append]

theorem taken_key (f : VerifierCommitSegment → Int) (segment other : VerifierCommitSegment)
    (h : other ∈ taken f segment) : other.draftKey = segment.draftKey := by
  rw [taken] at h
  split at h
  · cases h
  · rw [mem_singleton.mp h]

theorem left_key (f : VerifierCommitSegment → Int) (segment other : VerifierCommitSegment)
    (h : other ∈ left f segment) : other.draftKey = segment.draftKey := by
  rw [left] at h
  split at h
  · rw [mem_singleton.mp h]
  · split at h
    · cases h
    · rw [mem_singleton.mp h]

/-- A pending segment is split in two, either of which may be empty. -/
theorem split_pendingSegments
    (h : ∀ segment ∈ pendingSegments rank k start tokens,
      0 ≤ f segment ∧ f segment ≤ segment.committedTokens.length) :
    ∃ front back, front ++ back = tokens ∧
      (pendingSegments rank k start tokens).flatMap (taken f) = pendingSegments rank k start front ∧
      (pendingSegments rank k start tokens).flatMap (left f) =
        pendingSegments rank k (start + front.length) back := by
  by_cases hnil : tokens = []
  · refine ⟨[], [], hnil.symm, ?_, ?_⟩
    · rw [hnil, pendingSegments_nil, flatMap_nil]
    · rw [hnil, pendingSegments_nil, flatMap_nil, pendingSegments_nil]
  · obtain ⟨n, hn⟩ : ∃ n : Nat, f ⟨k, rank, start, tokens⟩ = n := by
      apply Int.eq_ofNat_of_zero_le
      apply (h _ _).1
      rw [pendingSegments_of_ne hnil]
      exact mem_singleton_self _
    have hle : n ≤ tokens.length := by
      have hbound := (h ⟨k, rank, start, tokens⟩ (by
        rw [pendingSegments_of_ne hnil]
        exact mem_singleton_self _)).2
      rw [hn] at hbound
      exact Int.ofNat_le.mp hbound
    refine ⟨tokens.take n, tokens.drop n, take_append_drop n tokens, ?_, ?_⟩
    · rw [pendingSegments_of_ne hnil, flatMap_singleton, taken, hn, pendingSegments]
      rcases Nat.eq_zero_or_pos n with rfl | hpos
      · simp
      · have hfront : tokens.take n ≠ [] := by
          intro heq
          rcases take_eq_nil_iff.mp heq with hzero | hzero
          · omega
          · exact hnil hzero
        rw [if_neg (by omega), if_neg hfront, Int.toNat_natCast]
    · rw [pendingSegments_of_ne hnil, flatMap_singleton, left, hn, pendingSegments, length_take,
        Nat.min_eq_left hle]
      rcases Nat.eq_zero_or_pos n with rfl | hpos
      · simp [hnil]
      · rw [if_neg (by omega), Int.toNat_natCast]
        push_cast
        rfl

/-! ## Section 4: What one step keeps -/

/-- What the inbox knows of a request, and what it is to know by the log. -/
structure KeyInv (rank : Int) (inbox : DraftControlInbox) (log : KeyLog) (k : DraftReqKey) :
    Prop where
  orderly : log.Orderly
  closes : log.closesSent = log.closesGot + if k ∈ inbox.closeKeys then 1 else 0
  not_closing : log.isOpen = true → k ∉ inbox.closeKeys
  segments : ∃ tokens, inbox.verifierCommitSegments.filter (·.draftKey = k) =
      pendingSegments rank k (log.base + log.extracted.length) tokens ∧
    (log.isOpen = true → log.extracted ++ tokens = log.committed) ∧
    (log.isOpen = false → tokens = [])
  syncs : inbox.syncMessages.filter (·.draftKey = k) = [] ∨
    ∃ message, inbox.syncMessages.filter (·.draftKey = k) = [message] ∧ log.isOpen = true ∧
      log.lastSync = some message ∧ log.syncsGot = 0

theorem KeyInv.kept (h : KeyInv rank s.inbox (s.log k) k) : Kept s k := by
  obtain ⟨tokens, hsegments, hopen, _⟩ := h.segments
  refine ⟨h.orderly, ?_, fun ho => ?_, fun _ segment hsegment hkey => ?_, h.closes⟩
  · rw [hsegments]
    exact pendingSegments_length _ _
  · rw [DraftControlInbox.pending, hsegments, pendingSegments_tokens]
    exact hopen ho
  · have hmem : segment ∈ s.inbox.verifierCommitSegments.filter (·.draftKey = k) := by
      rw [mem_filter]
      exact ⟨hsegment, by simpa using hkey⟩
    rw [hsegments] at hmem
    rw [mem_pendingSegments hmem]

theorem KeyInv.init (k : DraftReqKey) : KeyInv rank DraftControlInbox.empty [] k := by
  refine ⟨trivial, rfl, fun _ => Finset.notMem_empty k, ⟨[], ?_, fun _ => rfl, fun _ => rfl⟩,
    .inl rfl⟩
  rw [pendingSegments_nil]
  rfl

theorem commits_log (messages : List VerifyCommit) (log : KeyLog) :
    KeyLog.isOpen (messages.map .sentCommit ++ log) = log.isOpen ∧
      KeyLog.lastSync (messages.map .sentCommit ++ log) = log.lastSync ∧
      KeyLog.committed (messages.map .sentCommit ++ log) =
        log.committed ++ messages.reverse.flatMap (·.committedTokens) ∧
      KeyLog.extracted (messages.map .sentCommit ++ log) = log.extracted ∧
      KeyLog.syncsGot (messages.map .sentCommit ++ log) = log.syncsGot ∧
      KeyLog.closesSent (messages.map .sentCommit ++ log) = log.closesSent ∧
      KeyLog.closesGot (messages.map .sentCommit ++ log) = log.closesGot ∧
      (KeyLog.Orderly (messages.map .sentCommit ++ log) ↔ log.Orderly) := by
  induction messages with
  | nil => simp
  | cons message messages ih =>
    obtain ⟨hopen, hsync, hcommitted, hextracted, hgot, hsent, hclosed, horderly⟩ := ih
    simp only [map_cons, cons_append, KeyLog.isOpen, KeyLog.lastSync, KeyLog.committed,
      KeyLog.extracted, KeyLog.syncsGot, KeyLog.closesSent, KeyLog.closesGot, KeyLog.Orderly,
      reverse_cons, flatMap_append,
      flatMap_singleton]
    exact ⟨hopen, hsync, by rw [hcommitted, append_assoc], hextracted, hgot, hsent, hclosed,
      horderly⟩

theorem base_congr {log log' : KeyLog} (h : log.lastSync = log'.lastSync) :
    log.base = log'.base := by
  rw [KeyLog.base, KeyLog.base, h]

theorem addCloseKeys_spec (keys : List DraftReqKey) : ∀ inbox : DraftControlInbox,
    keys.foldl DraftControlInbox.addCloseKeyLocked inbox =
      ⟨inbox.syncMessages.filter (·.draftKey ∉ keys),
        inbox.verifierCommitSegments.filter (·.draftKey ∉ keys),
        inbox.closeKeys ∪ keys.toFinset⟩ := by
  induction keys with
  | nil => simp
  | cons key keys ih =>
    intro inbox
    rw [foldl_cons, ih, DraftControlInbox.addCloseKeyLocked]
    simp only [filter_filter, mem_cons, not_or, toFinset_cons]
    congr 1
    · apply filter_congr
      intro message _
      simp [Bool.and_comm]
    · apply filter_congr
      intro segment _
      simp [Bool.and_comm]
    · ext k
      simp only [Finset.mem_union, Finset.mem_insert, mem_toFinset]
      tauto

theorem closesOf_eq_nil :
    batch.closesOf k = [] ↔ k ∉ batch.closeMessages.map (·.draftKey) := by
  rw [DraftControlBatch.closesOf, filter_eq_nil_iff]
  simp [eq_comm]

theorem filter_and {α : Type*} {key : α → DraftReqKey} {p : DraftReqKey → Prop} [DecidablePred p]
    (xs : List α) (k : DraftReqKey) :
    (xs.filter fun x => decide (p (key x))).filter (fun x => decide (key x = k)) =
      if p k then xs.filter fun x => decide (key x = k) else [] := by
  rw [filter_filter]
  split
  · next hp =>
    apply filter_congr
    intro x _
    by_cases hx : key x = k
    · simp [hx, hp]
    · simp [hx]
  · next hp =>
    rw [filter_eq_nil_iff]
    intro x _
    by_cases hx : key x = k
    · simp [hx, hp]
    · simp [hx]

section Batch

variable {inbox : DraftControlInbox} {log : KeyLog} {batch : DraftControlBatch}
  (hinv : KeyInv rank inbox log k)
  (hsent : SentInOrder rank log batch k) (hfresh : ∀ message ∈ batch.syncsOf k, k ∉ inbox.closeKeys)
include hinv hsent

theorem keyInv_contiguous : ∃ start tokens,
    inbox.verifierCommitSegments.filter (·.draftKey = k) = pendingSegments rank k start tokens ∧
      Contiguous rank (start + tokens.length) (batch.commitsOf k) ∧
      (log.isOpen = true → start = log.base + log.extracted.length ∧
        log.extracted ++ tokens = log.committed) ∧
      (log.isOpen = false → tokens = [] ∧
        start = KeyLog.base ((batch.syncsOf k).map .sentSync ++ log)) := by
  obtain ⟨tokens, hsegments, hopen, hclosed⟩ := hinv.segments
  have hcontig := hsent.contiguous
  cases ho : log.isOpen with
  | true =>
    obtain hnil | ⟨hfalse, _⟩ := hsent.sync
    · rw [hnil, map_nil, nil_append, ← hopen ho, length_append, ← Nat.add_assoc] at hcontig
      exact ⟨_, tokens, hsegments, hcontig, fun _ => ⟨rfl, hopen ho⟩, fun h => Bool.noConfusion h⟩
    · rw [ho] at hfalse
      exact Bool.noConfusion hfalse
  | false =>
    have hempty := hclosed ho
    subst hempty
    refine ⟨KeyLog.base ((batch.syncsOf k).map .sentSync ++ log), [], ?_, ?_,
      fun h => Bool.noConfusion h, fun _ => ⟨rfl, rfl⟩⟩
    · rw [hsegments, pendingSegments_nil, pendingSegments_nil]
    · obtain hnil | ⟨_, message, hmessage⟩ := hsent.sync
      · rw [(hsent.idle ho hnil).1]
        trivial
      · rw [hmessage] at hcontig ⊢
        exact hcontig

include hfresh

theorem keyInv_batch {after : DraftControlInbox}
    (hclose : k ∈ after.closeKeys ↔ k ∈ inbox.closeKeys ∨ batch.closesOf k ≠ [])
    (hsyncs : after.syncMessages.filter (·.draftKey = k) =
      (if batch.closesOf k = [] then inbox.syncMessages.filter (·.draftKey = k) else []) ++
        if k ∉ after.closeKeys then batch.syncsOf k else [])
    (hkept : k ∈ after.closeKeys → after.verifierCommitSegments.filter (·.draftKey = k) =
      if batch.closesOf k = [] then inbox.verifierCommitSegments.filter (·.draftKey = k) else [])
    (hgrown : k ∉ after.closeKeys → ∀ start tokens,
      inbox.verifierCommitSegments.filter (·.draftKey = k) = pendingSegments rank k start tokens →
      Contiguous rank (start + tokens.length) (batch.commitsOf k) →
      after.verifierCommitSegments.filter (·.draftKey = k) = pendingSegments rank k start
        (tokens ++ (batch.commitsOf k).flatMap (·.committedTokens))) :
    KeyInv rank after ((batch.itemsOf k).reverse ++ log) k := by
  obtain ⟨start, tokens, hsegments, hcontig, hopen, hclosed⟩ := keyInv_contiguous hinv hsent
  have hsyncLen : (batch.syncsOf k).reverse = batch.syncsOf k := by
    obtain hnil | ⟨_, message, hmessage⟩ := hsent.sync
    · rw [hnil, reverse_nil]
    · rw [hmessage, reverse_singleton]
  -- the log grows by syncs, then commits, then the close
  have hlog : (batch.itemsOf k).reverse ++ log = ((batch.closesOf k).reverse.map .sentClose) ++
      ((batch.commitsOf k).reverse.map .sentCommit ++
        ((batch.syncsOf k).map .sentSync ++ log)) := by
    simp only [DraftControlBatch.itemsOf, reverse_append, ← map_reverse, hsyncLen, append_assoc]
  rw [hlog]
  obtain ⟨cOpen, cSync, cCommitted, cExtracted, cGot, cSent, cClosed, cOrderly⟩ :=
    commits_log (batch.commitsOf k).reverse ((batch.syncsOf k).map .sentSync ++ log)
  rw [reverse_reverse] at cCommitted
  generalize hlog₂ : (batch.commitsOf k).reverse.map Item.sentCommit ++
    ((batch.syncsOf k).map .sentSync ++ log) = log₂ at *
  have hsyncLog : KeyLog.closesSent ((batch.syncsOf k).map .sentSync ++ log) = log.closesSent ∧
      KeyLog.closesGot ((batch.syncsOf k).map .sentSync ++ log) = log.closesGot ∧
      (KeyLog.Orderly ((batch.syncsOf k).map .sentSync ++ log) ↔ log.Orderly) := by
    obtain hnil | ⟨_, message, hmessage⟩ := hsent.sync
    · rw [hnil]
      exact ⟨rfl, rfl, Iff.rfl⟩
    · rw [hmessage]
      exact ⟨rfl, rfl, Iff.rfl⟩
  by_cases hnil : batch.closesOf k = []
  · rw [hnil, reverse_nil, map_nil, nil_append]
    rw [if_pos hnil] at hsyncs
    have hsame : k ∈ after.closeKeys ↔ k ∈ inbox.closeKeys := by
      rw [hclose]
      exact ⟨fun h => h.elim id fun hne => absurd hnil hne, Or.inl⟩
    have hcloses : (KeyLog.closesSent log₂) = (KeyLog.closesGot log₂) +
        if k ∈ after.closeKeys then 1 else 0 := by
      rw [cSent, cClosed, hsyncLog.1, hsyncLog.2.1, hinv.closes]
      simp only [hsame]
    have horderly : (KeyLog.Orderly log₂) := cOrderly.mpr (hsyncLog.2.2.mpr hinv.orderly)
    obtain hsync | ⟨hfalse, message, hsync⟩ := hsent.sync
    · -- no sync: the segments of an open request grow, a closed one has none
      rw [hsync, map_nil, nil_append] at cOpen cSync cCommitted cExtracted cGot
      rw [hsync, ite_self, append_nil] at hsyncs
      refine ⟨horderly, hcloses, fun h => ?_, ?_, ?_⟩
      · rw [hsame]
        exact hinv.not_closing (cOpen.symm.trans h)
      · rw [cOpen, cCommitted, cExtracted, base_congr cSync]
        cases ho : log.isOpen with
        | true =>
          have hout : k ∉ after.closeKeys := fun h => hinv.not_closing ho (hsame.mp h)
          obtain ⟨hstart, htokens⟩ := hopen ho
          refine ⟨tokens ++ (batch.commitsOf k).flatMap (·.committedTokens), ?_, fun _ => ?_,
            fun h => Bool.noConfusion h⟩
          · rw [hgrown hout start tokens hsegments hcontig, hstart]
          · rw [← append_assoc, htokens]
        | false =>
          obtain ⟨hcommits, _⟩ := hsent.idle ho hsync
          obtain ⟨hempty, _⟩ := hclosed ho
          refine ⟨[], ?_, fun h => Bool.noConfusion h, fun _ => rfl⟩
          by_cases hout : k ∈ after.closeKeys
          · rw [hkept hout, if_pos hnil, hsegments, hempty, pendingSegments_nil,
              pendingSegments_nil]
          · rw [hgrown hout start tokens hsegments hcontig, hempty, hcommits, flatMap_nil,
              append_nil, pendingSegments_nil, pendingSegments_nil]
      · rw [hsyncs, cOpen, cSync, cGot]
        exact hinv.syncs
    · -- the request is opened
      have hin : k ∉ inbox.closeKeys := hfresh message (by rw [hsync]; exact mem_singleton_self _)
      have hout : k ∉ after.closeKeys := fun h => hin (hsame.mp h)
      obtain ⟨hempty, hstart⟩ := hclosed hfalse
      subst hempty
      rw [hsync, map_singleton, singleton_append] at cOpen cSync cCommitted cExtracted cGot hstart
      have hnosync : inbox.syncMessages.filter (·.draftKey = k) = [] := by
        obtain h | ⟨_, _, htrue, _⟩ := hinv.syncs
        · exact h
        · rw [hfalse] at htrue
          exact Bool.noConfusion htrue
      refine ⟨horderly, hcloses, fun _ => hout,
        ⟨(batch.commitsOf k).flatMap (·.committedTokens), ?_, fun _ => ?_,
        fun h => ?_⟩, .inr ⟨message, ?_, cOpen, cSync, cGot⟩⟩
      · rw [hgrown hout start [] hsegments hcontig, nil_append, hstart, cExtracted,
          base_congr cSync]
        rfl
      · rw [cCommitted, cExtracted]
        rfl
      · rw [cOpen] at h
        exact Bool.noConfusion h
      · rw [hsyncs, hnosync, nil_append, if_pos hout, hsync]
  · -- the request is closed
    obtain ⟨message, hmessage⟩ : ∃ message, batch.closesOf k = [message] := by
      apply length_eq_one_iff.mp
      have hpos := length_pos_iff.mpr hnil
      have := hsent.close
      omega
    have hin : k ∈ after.closeKeys := hclose.mpr (.inr hnil)
    have hwas : k ∉ inbox.closeKeys := by
      cases ho : log.isOpen with
      | true => exact hinv.not_closing ho
      | false =>
        obtain hsync | ⟨_, message', hsync⟩ := hsent.sync
        · exact absurd (hsent.idle ho hsync).2 hnil
        · exact hfresh message' (by rw [hsync]; exact mem_singleton_self _)
    rw [if_neg hnil, nil_append, if_neg (not_not.mpr hin)] at hsyncs
    rw [hmessage, reverse_singleton, map_singleton, singleton_append]
    refine ⟨cOrderly.mpr (hsyncLog.2.2.mpr hinv.orderly), ?_, fun h => Bool.noConfusion h,
      ⟨[], ?_, fun h => Bool.noConfusion h, fun _ => rfl⟩, .inl hsyncs⟩
    · rw [if_pos hin]
      show (KeyLog.closesSent log₂) + 1 = (KeyLog.closesGot log₂) + 1
      rw [cSent, cClosed, hsyncLog.1, hsyncLog.2.1, hinv.closes, if_neg hwas]
    · rw [hkept hin, if_neg hnil, pendingSegments_nil]

end Batch

/-- A batch that continues what was sent does not raise, and keeps what is known of every
request. -/
theorem step_batch (hinv : ∀ k, KeyInv rank s.inbox (s.log k) k)
    (hsent : Produced rank s (.batch batch)) (hreopen : ReopensExtracted s (.batch batch)) :
    ∃ s', s.step (.batch batch) = .ok s' ∧ ∀ k, KeyInv rank s'.inbox (s'.log k) k := by
  obtain ⟨keys, hkeys⟩ : ∃ keys, keys = batch.closeMessages.map (·.draftKey) := ⟨_, rfl⟩
  have hnil (k : DraftReqKey) : batch.closesOf k = [] ↔ k ∉ keys := by
    rw [hkeys]
    exact closesOf_eq_nil
  obtain ⟨inbox, hinbox⟩ : ∃ inbox : DraftControlInbox, inbox =
    ⟨s.inbox.syncMessages.filter (·.draftKey ∉ keys) ++
        batch.syncMessages.filter (·.draftKey ∉ s.inbox.closeKeys ∪ keys.toFinset),
      s.inbox.verifierCommitSegments.filter (·.draftKey ∉ keys),
      s.inbox.closeKeys ∪ keys.toFinset⟩ := ⟨_, rfl⟩
  have hloops : s.inbox.addControlBatchLocked batch =
      batch.verifyCommitMessages.foldlM DraftControlInbox.addVerifyCommitLocked inbox := by
    rw [DraftControlInbox.addControlBatchLocked, addCloseKeys_spec, ← hkeys,
      DraftControlInbox.addSyncMessages, hinbox]
  have hclose (k : DraftReqKey) : k ∈ inbox.closeKeys ↔ k ∈ s.inbox.closeKeys ∨
      batch.closesOf k ≠ [] := by
    rw [ne_eq, hnil, not_not, hinbox, Finset.mem_union, mem_toFinset]
  have hsegs (k : DraftReqKey) : inbox.verifierCommitSegments.filter (·.draftKey = k) =
      if batch.closesOf k = [] then s.inbox.verifierCommitSegments.filter (·.draftKey = k)
        else [] := by
    simp only [hnil, hinbox]
    exact filter_and (p := fun k => k ∉ keys) _ k
  have hsyncs (k : DraftReqKey) : inbox.syncMessages.filter (·.draftKey = k) =
      (if batch.closesOf k = [] then s.inbox.syncMessages.filter (·.draftKey = k) else []) ++
        if k ∉ inbox.closeKeys then batch.syncsOf k else [] := by
    simp only [hnil, hinbox, filter_append]
    congr 1
    · exact filter_and (p := fun k => k ∉ keys) _ k
    · exact filter_and (p := fun k => k ∉ s.inbox.closeKeys ∪ keys.toFinset) _ k
  -- a request that is opened is not closing
  have hfresh (k : DraftReqKey) : ∀ message ∈ batch.syncsOf k, k ∉ s.inbox.closeKeys := by
    intro message hmem
    obtain ⟨hmem, hkey⟩ := mem_filter.mp hmem
    have hout := hreopen message hmem
    rwa [of_decide_eq_true hkey] at hout
  have hopen (k : DraftReqKey) (hk : k ∉ inbox.closeKeys) : batch.closesOf k = [] := by
    by_contra hne
    exact hk ((hclose k).mpr (.inr hne))
  obtain ⟨segments, hrun, hgrown, hkept⟩ := @addVerifyCommits_spec rank batch.verifyCommitMessages
    inbox fun k hk => by
      obtain ⟨start, tokens, hsegments, hcontig, _, _⟩ := keyInv_contiguous (hinv k) (hsent k)
      rw [hsegs, if_pos (hopen k hk)]
      exact ⟨start, tokens, hsegments, hcontig⟩
  refine ⟨⟨{ inbox with verifierCommitSegments := segments },
    fun k => (batch.itemsOf k).reverse ++ s.log k⟩, ?_, fun k => ?_⟩
  · rw [State.step, hloops, hrun]
    rfl
  · refine keyInv_batch (hinv k) (hsent k) (hfresh k) (hclose k) (hsyncs k) (fun hk => ?_)
      fun hk start tokens hsegments hcontig => ?_
    · rw [hkept k hk, hsegs]
    · apply hgrown k hk start tokens _ hcontig
      rw [hsegs, if_pos (hopen k hk)]
      exact hsegments

theorem keyInv_extract {inbox : DraftControlInbox} {log : KeyLog} (hinv : KeyInv rank inbox log k)
    (hf : ∀ segment ∈ inbox.verifierCommitSegments, 0 ≤ f segment ∧
      f segment ≤ segment.committedTokens.length) :
    KeyInv rank ⟨[], inbox.verifierCommitSegments.flatMap (left f), ∅⟩
      ((ReadyDraftControls.itemsOf ⟨inbox.syncMessages, inbox.closeKeys,
        inbox.verifierCommitSegments.flatMap (taken f)⟩ k).reverse ++ log) k := by
  obtain ⟨tokens, hsegments, hopen, hclosed⟩ := hinv.segments
  obtain ⟨front, back, hsplit, htaken, hleft⟩ :=
    split_pendingSegments (f := f) fun segment hsegment => by
    rw [← hsegments] at hsegment
    exact hf segment (mem_filter.mp hsegment).1
  have hback : (inbox.verifierCommitSegments.flatMap (left f)).filter (·.draftKey = k) =
      pendingSegments rank k (log.base + log.extracted.length + front.length) back := by
    rw [filter_flatMap (left_key f), hsegments, hleft]
  have hitems : ReadyDraftControls.itemsOf ⟨inbox.syncMessages, inbox.closeKeys,
      inbox.verifierCommitSegments.flatMap (taken f)⟩ k =
      (if k ∈ inbox.closeKeys then [.gotClose] else []) ++
        (inbox.syncMessages.filter (·.draftKey = k)).map .gotSync ++
        (pendingSegments rank k (log.base + log.extracted.length) front).map .gotSegment := by
    rw [ReadyDraftControls.itemsOf, filter_flatMap (taken_key f), hsegments, htaken]
  rw [hitems]
  cases ho : log.isOpen with
  | false =>
    -- at most the close is left to extract
    have hempty := hclosed ho
    rw [hempty, append_eq_nil_iff] at hsplit
    obtain ⟨rfl, rfl⟩ := hsplit
    have hnosync : inbox.syncMessages.filter (·.draftKey = k) = [] := by
      obtain h | ⟨_, _, htrue, _⟩ := hinv.syncs
      · exact h
      · rw [ho] at htrue
        exact Bool.noConfusion htrue
    rw [hnosync, pendingSegments_nil, map_nil, map_nil, append_nil, append_nil]
    by_cases hk : k ∈ inbox.closeKeys
    · rw [if_pos hk, reverse_singleton, singleton_append]
      have hcloses := hinv.closes
      rw [if_pos hk] at hcloses
      refine ⟨⟨?_, hinv.orderly⟩, ?_, fun _ => Finset.notMem_empty k,
        ⟨[], hback, fun h => ?_, fun _ => rfl⟩, .inl rfl⟩
      · omega
      · exact hcloses
      · have htrue : log.isOpen = true := h
        rw [ho] at htrue
        exact Bool.noConfusion htrue
    · rw [if_neg hk, reverse_nil, nil_append]
      have hcloses := hinv.closes
      rw [if_neg hk] at hcloses
      refine ⟨hinv.orderly, hcloses, fun _ => Finset.notMem_empty k,
        ⟨[], hback, fun h => ?_, fun _ => rfl⟩, .inl rfl⟩
      rw [ho] at h
      exact Bool.noConfusion h
  | true =>
    have hk := hinv.not_closing ho
    have hcloses := hinv.closes
    rw [if_neg hk, Nat.add_zero] at hcloses
    rw [if_neg hk, nil_append]
    -- first the sync, if it is there
    obtain ⟨log₁, hlog₁, horderly, hopen₁, hsync₁, hcommitted₁, hextracted₁, hsent₁, hgot₁⟩ :
        ∃ log₁, (((inbox.syncMessages.filter (·.draftKey = k)).map Item.gotSync).reverse ++ log) =
        log₁ ∧ KeyLog.Orderly log₁ ∧ KeyLog.isOpen log₁ = true ∧
        KeyLog.lastSync log₁ = log.lastSync ∧ KeyLog.committed log₁ = log.committed ∧
        KeyLog.extracted log₁ = log.extracted ∧ KeyLog.closesSent log₁ = log.closesSent ∧
        KeyLog.closesGot log₁ = log.closesGot := by
      refine ⟨_, rfl, ?_⟩
      obtain hnosync | ⟨message, hmessage, _, hlast, hgot⟩ := hinv.syncs
      · rw [hnosync]
        exact ⟨hinv.orderly, ho, rfl, rfl, rfl, rfl, rfl⟩
      · rw [hmessage]
        exact ⟨⟨⟨ho, hlast, hgot, hcloses.symm⟩, hinv.orderly⟩, ho, rfl, rfl, rfl, rfl, rfl⟩
    rw [reverse_append, append_assoc, hlog₁]
    rw [← hextracted₁, ← base_congr hsync₁] at hback ⊢
    have htokens : (KeyLog.extracted log₁) ++ (front ++ back) = (KeyLog.committed log₁) := by
      rw [hsplit, hextracted₁, hcommitted₁, hopen ho]
    by_cases hfront : front = []
    · subst hfront
      rw [pendingSegments_nil, map_nil, reverse_nil, nil_append]
      exact ⟨horderly, by rw [hsent₁, hgot₁]; exact hcloses, fun _ => Finset.notMem_empty k,
        ⟨back, hback, fun _ => htokens, fun h => by rw [hopen₁] at h; exact Bool.noConfusion h⟩,
        .inl rfl⟩
    · rw [pendingSegments_of_ne hfront, map_singleton, reverse_singleton, singleton_append]
      refine ⟨⟨⟨hopen₁, hfront, rfl⟩, horderly⟩, ?_, fun _ => Finset.notMem_empty k,
        ⟨back, ?_, fun _ => ?_, fun h => ?_⟩, .inl rfl⟩
      · show (KeyLog.closesSent log₁) = (KeyLog.closesGot log₁)
        rw [hsent₁, hgot₁]
        exact hcloses
      · rw [hback]
        show _ = pendingSegments rank k
          ((KeyLog.base log₁) + ((KeyLog.extracted log₁) ++ front).length) back
        rw [length_append, ← Nat.add_assoc]
      · show (KeyLog.extracted log₁) ++ front ++ back = (KeyLog.committed log₁)
        rw [append_assoc, htokens]
      · have htrue : (KeyLog.isOpen log₁) = false := h
        rw [hopen₁] at htrue
        exact Bool.noConfusion htrue

theorem step_extract (hinv : ∀ k, KeyInv rank s.inbox (s.log k) k)
    (hf : Produced rank s (.extract f)) :
    ∃ s', s.step (.extract f) = .ok s' ∧ s'.inbox.closeKeys = ∅ ∧ ∀ k, KeyInv rank s'.inbox
    (s'.log k) k := by
  have hrun := extractSegments_spec s.inbox.verifierCommitSegments fun segment hsegment =>
    (hf segment hsegment).2
  refine ⟨⟨⟨[], s.inbox.verifierCommitSegments.flatMap (left f), ∅⟩, fun k =>
    (ReadyDraftControls.itemsOf ⟨s.inbox.syncMessages, s.inbox.closeKeys,
      s.inbox.verifierCommitSegments.flatMap (taken f)⟩ k).reverse ++ s.log k⟩, ?_, rfl,
    fun k => keyInv_extract (hinv k) hf⟩
  rw [State.step, DraftControlInbox.extractReadyControlsLocked, hrun]
  rfl

/-! ## Section 5: Runs -/

theorem step?_inv (s : State) (event : Event) (hinv : ∀ k, KeyInv rank s.inbox (s.log k) k)
    (hevent : Produced rank s event ∧ ReopensExtracted s event) :
    ∃ s', s.step? event = some s' ∧ ∀ k, KeyInv rank s'.inbox (s'.log k) k := by
  cases event with
  | batch batch =>
    obtain ⟨s', hstep, hinv'⟩ := step_batch hinv hevent.1 hevent.2
    exact ⟨s', by rw [State.step?, hstep]; rfl, hinv'⟩
  | extract f =>
    obtain ⟨s', hstep, _, hinv'⟩ := step_extract hinv hevent.1
    exact ⟨s', by rw [State.step?, hstep]; rfl, hinv'⟩

/-- The inbox loses, repeats and reorders nothing and raises nothing, and an extraction takes every
close, as long as no request is opened again before its close was extracted. -/
theorem inbox_keeps (rank : Int) (events : List Event)
    (h : Along State.step? (fun s event => Produced rank s event ∧
      ReopensExtracted s event) .init events) :
    ∃ s, run State.step? .init events = some s ∧ (∀ k, Kept s k) ∧
      ∀ f, Produced rank s (.extract f) →
        ∃ s', s.step? (.extract f) = some s' ∧ ∀ k, Kept s' k ∧
        (s'.log k).closesGot = (s'.log k).closesSent := by
  obtain ⟨s, hrun, hinv⟩ :=
    Lib.run_of_invariant (fun s : State => ∀ k, KeyInv rank s.inbox (s.log k) k)
    (fun s event hs hevent => step?_inv s event hs hevent) (fun k => KeyInv.init k) h
  refine ⟨s, hrun, fun k => (hinv k).kept, fun f hf => ?_⟩
  obtain ⟨s', hstep, hclose, hinv'⟩ := step_extract hinv hf
  refine ⟨s', by rw [State.step?, hstep]; rfl, fun k => ⟨(hinv' k).kept, ?_⟩⟩
  rw [(hinv' k).closes, hclose, if_neg (Finset.notMem_empty k), Nat.add_zero]

/-! ## Section 6: A request that is opened again too early -/

theorem SentInOrder.of_nil {log : KeyLog} (hsync : batch.syncsOf k = [])
    (hcommit : batch.commitsOf k = []) (hclose : batch.closesOf k = []) :
    SentInOrder rank log batch k := by
  refine ⟨.inl hsync, fun _ _ => ⟨hcommit, hclose⟩, ?_, ?_⟩
  · rw [hcommit]
    trivial
  · rw [hclose]
    exact Nat.zero_le 1

def sampleKey : DraftReqKey := ⟨0, "r"⟩

/-- The request is opened, with one commit. -/
def openBatch : DraftControlBatch := ⟨0, [⟨"r", 0, 0, [1], []⟩], [⟨"r", 0, 0, 0, [7]⟩], []⟩

/-- The request is opened and closed at once. -/
def closeBatch : DraftControlBatch := ⟨0, [⟨"r", 0, 0, [1], []⟩], [], [⟨"r", 0, 0, "finished"⟩]⟩

theorem produced_sample (hbatch : batch = openBatch ∨ batch = closeBatch)
    (hlog : KeyLog.isOpen (s.log sampleKey) = false) : Produced 0 s (.batch batch) := by
  intro k
  by_cases hk : k = sampleKey
  · subst hk
    obtain rfl | rfl := hbatch
    · exact ⟨.inr ⟨hlog, _, rfl⟩, fun _ h => absurd h (cons_ne_nil _ _),
        ⟨⟨rfl, by decide, rfl⟩, trivial⟩, Nat.zero_le 1⟩
    · exact ⟨.inr ⟨hlog, _, rfl⟩, fun _ h => absurd h (cons_ne_nil _ _), trivial, le_rfl⟩
  · have hne : ¬ sampleKey = k := fun h => hk h.symm
    have hfalse : decide (sampleKey = k) = false := decide_eq_false hne
    obtain rfl | rfl := hbatch
    · exact .of_nil (filter_cons_of_neg (Bool.not_eq_true _ ▸ hfalse))
        (filter_cons_of_neg (Bool.not_eq_true _ ▸ hfalse)) rfl
    · exact .of_nil (filter_cons_of_neg (Bool.not_eq_true _ ▸ hfalse)) rfl
        (filter_cons_of_neg (Bool.not_eq_true _ ▸ hfalse))

/-- The open request gets another commit and is closed. -/
def finishBatch : DraftControlBatch := ⟨0, [], [⟨"r", 0, 0, 1, [8]⟩], [⟨"r", 0, 0, "finished"⟩]⟩

def allTokens (segment : VerifierCommitSegment) : Int := segment.committedTokens.length

theorem produced_finish (hopen : KeyLog.isOpen (s.log sampleKey) = true)
    (hlen : KeyLog.base (s.log sampleKey) + (KeyLog.committed (s.log sampleKey)).length = 1) :
    Produced 0 s (.batch finishBatch) := by
  intro k
  by_cases hk : k = sampleKey
  · subst hk
    refine ⟨.inl rfl, fun hclosed _ => ?_, ⟨⟨?_, by decide, rfl⟩, trivial⟩, le_rfl⟩
    · rw [hopen] at hclosed
      cases hclosed
    · exact congrArg Nat.cast hlen.symm
  · have hfalse : decide (sampleKey = k) = false := decide_eq_false fun h => hk h.symm
    exact .of_nil rfl (filter_cons_of_neg (Bool.not_eq_true _ ▸ hfalse))
      (filter_cons_of_neg (Bool.not_eq_true _ ▸ hfalse))

/-- The request is opened, extracted, closed, extracted and opened again. -/
def reopenedRun : List Event :=
  [.batch openBatch, .extract allTokens, .batch finishBatch, .extract allTokens, .batch openBatch]

theorem inbox_keeps_sample : ∃ s, run State.step? .init reopenedRun = some s ∧ (∀ k, Kept s k) ∧
    ∀ f, Produced 0 s (.extract f) →
      ∃ s', s.step? (.extract f) = some s' ∧ ∀ k, Kept s' k ∧
      (s'.log k).closesGot = (s'.log k).closesSent := by
  have hall : ∀ s, Produced 0 s (.extract allTokens) ∧ ReopensExtracted s (.extract allTokens) :=
    fun s => ⟨fun segment _ => ⟨Int.natCast_nonneg _, le_rfl⟩, trivial⟩
  have hnone : ∀ {s : State}, s.inbox.closeKeys = ∅ → ReopensExtracted s (.batch openBatch) := by
    intro s hs message _
    rw [hs]
    exact Finset.notMem_empty _
  refine inbox_keeps 0 reopenedRun (Along.cons ⟨produced_sample (.inl rfl) rfl, hnone rfl⟩ rfl ?_)
  refine Along.cons (hall _) rfl ?_
  refine Along.cons ⟨produced_finish rfl rfl, fun _ h => absurd h not_mem_nil⟩ rfl ?_
  refine Along.cons (hall _) rfl ?_
  exact Along.cons ⟨produced_sample (.inl rfl) rfl, hnone rfl⟩ rfl trivial

/-- The request is opened again while its close waits for the scheduler, and the commit is
dropped. -/
theorem not_inbox_keeps : ¬ ∀ (rank : Int) (events : List Event), Along State.step?
    (Produced rank) .init events → ∃ s, run State.step? .init events = some s ∧ ∀ k, Kept s k := by
  intro h
  obtain ⟨s, hrun, hkept⟩ := h 0 [.batch closeBatch, .batch openBatch]
    ⟨produced_sample (.inr rfl) rfl, produced_sample (.inl rfl) rfl, trivial⟩
  have hstate : run State.step? .init [.batch closeBatch, .batch openBatch] = some
      ⟨⟨[], [], {sampleKey}⟩,
        fun k => (openBatch.itemsOf k).reverse ++ ((closeBatch.itemsOf k).reverse ++ [])⟩ := rfl
  obtain rfl := Option.some.inj (hrun.symm.trans hstate)
  have htokens := (hkept sampleKey).tokens rfl
  exact absurd htokens (by decide)

end Sglang.Speculative
