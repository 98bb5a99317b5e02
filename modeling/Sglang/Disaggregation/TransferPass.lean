import Mathlib.Tactic
import Sglang.Disaggregation.TransferWorker
import Sglang.Disaggregation.RoomStatusRuns

/-!
# One Turn of the Transfer Worker

- `sendExtra_fine`: the state transfers of a destination, where none of them fails,
- `sendTo_spec`: one destination stops the loop or is served,
- `destLoop_spec`: how the loop over the destinations ends.
-/

namespace Sglang.Disaggregation.TransferWorker

open List
open RoomStatus (KVPoll updateStatus)

variable {cfg : Config} {dsts : List Destination} {chunks : List Chunk} {results : String → Results}

/-! ## Section 1: The transfers of one destination -/

theorem cutChunk_eq {d : Destination} {chunk : Chunk}
    (hsized : chunk.prefillKvIndices.length = chunk.indexSlice.2 - chunk.indexSlice.1)
    (hdst : chunk.indexSlice.2 ≤ d.dstKvIndices.length) : cutChunk d chunk = chunk := by
  have hlength : (chunkedDst d chunk).length = chunk.indexSlice.2 - chunk.indexSlice.1 := by
    simp only [chunkedDst, length_take, length_drop]
    omega
  unfold cutChunk
  rw [hlength, ← hsized, take_length]

theorem sendRows_fine {src dst : List Nat} (h : src.length ≤ dst.length) :
    sendRows src dst 0 = .returned 0 true := by
  unfold sendRows
  split <;> simp [h]

theorem sendState_fine (cfg : Config) {d : Destination} {i : Nat} {st : StateType}
    {indices : List Nat} (hlength : indices.length ≤ (d.dstStateIndices.getD i []).length)
    (hmamba : st = .mamba → d.dstStateDataPtrs.getD i 0 ≠ 0) :
    sendState cfg d i st indices 0 = .raised ∨
      (indices = [] ∧ sendState cfg d i st indices 0 = .skipped) ∨
        sendState cfg d i st indices 0 = .returned 0 true := by
  have hrows := sendRows_fine hlength
  cases st with
  | mamba =>
    have hptrs := hmamba rfl
    simp only [sendState, hptrs, if_false]
    split
    · exact Or.inl rfl
    · split
      · exact Or.inl rfl
      · exact Or.inr (Or.inr rfl)
  | swa =>
    simp only [sendState, hrows]
    split <;> simp
  | dsa =>
    simp only [sendState, hrows]
    split <;> simp
  | swaRing =>
    simp only [sendState, hrows]
    split
    · exact Or.inl rfl
    · split <;> simp
  | c128State =>
    simp only [sendState, hrows]
    split
    · exact Or.inl rfl
    · split
      · next hempty => exact Or.inr (Or.inl ⟨length_eq_zero_iff.mp hempty.1, rfl⟩)
      · split <;> simp
  | minimaxIndexK =>
    simp only [sendState, hrows]
    split
    · exact Or.inl rfl
    · split <;> simp

theorem maybeSendExtra_fine (cfg : Config) (d : Destination)
    (stateIndices : List (Option (List Nat))) (state : Nat → Int) (sts : List StateType) :
    ∀ (i : Nat) (acc : ExtraSend), acc.nonzero = false →
    (∀ j st indices, sts[j]? = some st → stateIndices.getD (i + j) none = some indices →
      state (i + j) = 0 ∧ indices.length ≤ (d.dstStateIndices.getD (i + j) []).length ∧
        (st = .mamba → d.dstStateDataPtrs.getD (i + j) 0 ≠ 0)) →
    let extra := maybeSendExtra cfg d stateIndices state sts i acc
    extra.nonzero = false ∧ (∀ j ∈ acc.arrived, j ∈ extra.arrived) ∧
      (extra.raised = false → ∀ j < sts.length, ∀ indices,
        stateIndices.getD (i + j) none = some indices →
        indices ≠ [] → i + j ∈ extra.arrived) := by
  induction sts with
  | nil =>
    intro i acc hacc _
    exact ⟨hacc, fun j hj => hj, fun _ j hj => absurd hj (Nat.not_lt_zero j)⟩
  | cons st sts ih =>
    intro i acc hacc hfine
    have hrest : ∀ j st' indices, sts[j]? = some st' →
      stateIndices.getD (i + 1 + j) none = some indices → state (i + 1 + j) = 0 ∧
      indices.length ≤ (d.dstStateIndices.getD (i + 1 + j) []).length ∧
      (st' = .mamba → d.dstStateDataPtrs.getD (i + 1 + j) 0 ≠ 0) := by
      intro j st' indices hst hindices
      have := hfine (j + 1) st' indices (by simpa using hst)
      rw [show i + (j + 1) = i + 1 + j by omega] at this
      exact this hindices
    -- the components that follow, and this one where it has arrived or has no index
    have hgo : ∀ acc' : ExtraSend, acc'.nonzero = false → (∀ j ∈ acc.arrived, j ∈ acc'.arrived) →
        (∀ indices, stateIndices.getD i none = some indices → indices ≠ [] → i ∈ acc'.arrived) →
        let extra := maybeSendExtra cfg d stateIndices state sts (i + 1) acc'
        extra.nonzero = false ∧ (∀ j ∈ acc.arrived, j ∈ extra.arrived) ∧
          (extra.raised = false → ∀ j < (st :: sts).length, ∀ indices,
            stateIndices.getD (i + j) none = some indices → indices ≠ [] →
            i + j ∈ extra.arrived) := by
      intro acc' hacc' harrived hthis
      obtain ⟨hzero, hkept, hall⟩ := ih (i + 1) acc' hacc' hrest
      refine ⟨hzero, fun j hj => hkept j (harrived j hj), ?_⟩
      intro hraised j hj indices hindices hne
      cases j with
      | zero => exact hkept i (hthis indices hindices hne)
      | succ j =>
        rw [show i + (j + 1) = i + 1 + j by omega] at hindices ⊢
        exact hall hraised j (by simpa using hj) indices hindices hne
    simp only [maybeSendExtra]
    split
    · next hnone =>
      apply hgo acc hacc (fun _ hj => hj)
      intro indices hindices
      rw [hnone] at hindices
      cases hindices
    · next indices hindices =>
      obtain ⟨hzero, hlength, hmamba⟩ := hfine 0 st indices rfl hindices
      rw [Nat.add_zero] at hzero hlength hmamba
      rw [hzero]
      rcases sendState_fine cfg hlength hmamba with hsend | ⟨hempty, hsend⟩ | hsend
      · rw [hsend]
        exact ⟨hacc, fun _ hj => hj, fun hraised => absurd hraised (by simp)⟩
      · rw [hsend]
        apply hgo acc hacc (fun _ hj => hj)
        intro indices' hindices' hne
        rw [hindices] at hindices'
        cases hindices'
        exact absurd hempty hne
      · rw [hsend]
        apply hgo
        · simp [hacc]
        · intro j hj
          simp [hj]
        · intro _ _ _
          simp

/-- The state transfers of the last chunk, where none of them fails. -/
theorem sendExtra_fine {d : Destination} {res : Results} {chunk : Chunk}
    (h : StateFine cfg d chunk res.state) :
    (sendExtra cfg d res chunk).nonzero = false ∧ ((sendExtra cfg d res chunk).raised = false →
      ∀ i < cfg.stateTypes.length, chunk.HasState i → i ∈ (sendExtra cfg d res chunk).arrived) := by
  unfold sendExtra
  split
  · next hnil =>
    refine ⟨rfl, fun _ i _ hstate => ?_⟩
    obtain ⟨indices, hindices, -⟩ := hstate
    rw [hnil] at hindices
    cases hindices
  · obtain ⟨hzero, -, hall⟩ :=
      maybeSendExtra_fine cfg d chunk.stateIndices res.state cfg.stateTypes 0
      ⟨0, [], false, false⟩ rfl
      (by
        intro j st indices hst hindices
        rw [Nat.zero_add] at hindices ⊢
        exact h j st indices hst hindices)
    refine ⟨hzero, fun hraised i hi hstate => ?_⟩
    obtain ⟨indices, hindices, hne⟩ := hstate
    have := hall hraised i hi indices (by rw [Nat.zero_add]; exact hindices) hne
    rwa [Nat.zero_add] at this

theorem sendRows_ne_raised (src dst : List Nat) (ret : Int) : sendRows src dst ret ≠ .raised := by
  unfold sendRows
  split
  · exact StateSend.noConfusion
  · exact StateSend.noConfusion

theorem sendState_raised_iff (cfg : Config) (d : Destination) (i : Nat) (st : StateType)
    (indices : List Nat) (ret : Int) : sendState cfg d i st indices ret = .raised ↔
    Misfits cfg d i st indices := by
  have hrows := sendRows_ne_raised indices (d.dstStateIndices.getD i []) ret
  cases st with
  | mamba =>
    simp only [sendState, Misfits, length_eq_zero_iff]
    split_ifs <;> simp_all
  | swa =>
    simp only [sendState, Misfits]
    split_ifs <;> simp_all
  | dsa =>
    simp only [sendState, Misfits]
    split_ifs <;> simp_all
  | swaRing =>
    simp only [sendState, Misfits]
    split_ifs <;> simp_all
  | c128State =>
    simp only [sendState, Misfits]
    split_ifs <;> simp_all
  | minimaxIndexK =>
    simp only [sendState, Misfits]
    split_ifs <;> simp_all

theorem maybeSendExtra_raised_iff (cfg : Config) (d : Destination)
    (stateIndices : List (Option (List Nat))) (state : Nat → Int) (sts : List StateType) :
    ∀ (i : Nat) (acc : ExtraSend), acc.raised = false →
    ((maybeSendExtra cfg d stateIndices state sts i acc).raised = false ↔
      ∀ j st indices, sts[j]? = some st → stateIndices.getD (i + j) none = some indices →
        ¬ Misfits cfg d (i + j) st indices) := by
  induction sts with
  | nil => exact fun i acc hacc => iff_of_true hacc fun j st indices hst => by simp at hst
  | cons st sts ih =>
    intro i acc hacc
    -- the first component, and those that follow
    have hsplit : (∀ j st' indices, (st :: sts)[j]? = some st' →
        stateIndices.getD (i + j) none = some indices → ¬ Misfits cfg d (i + j) st' indices) ↔
        (∀ indices, stateIndices.getD i none = some indices → ¬ Misfits cfg d i st indices) ∧
          ∀ j st' indices, sts[j]? = some st' → stateIndices.getD (i + 1 + j) none = some indices →
            ¬ Misfits cfg d (i + 1 + j) st' indices := by
      constructor
      · refine fun h => ⟨fun indices => h 0 st indices rfl, fun j st' indices hst => ?_⟩
        have hnext := h (j + 1) st' indices hst
        rwa [show i + (j + 1) = i + 1 + j by omega] at hnext
      · rintro ⟨hfirst, hrest⟩ j st' indices hst
        cases j with
        | zero =>
          obtain rfl := Option.some.inj hst
          exact hfirst indices
        | succ j =>
          have hnext := hrest j st' indices hst
          rwa [show i + 1 + j = i + (j + 1) by omega] at hnext
    rw [hsplit]
    simp only [maybeSendExtra]
    split
    · next hnone =>
      rw [ih (i + 1) acc hacc, hnone]
      simp
    · next indices hindices =>
      rw [hindices]
      simp only [Option.some.injEq, forall_eq']
      have hiff := sendState_raised_iff cfg d i st indices (state i)
      split
      · next hraised =>
        rw [hraised, eq_self_iff_true, true_iff] at hiff
        exact iff_of_false Bool.noConfusion fun h => h.1 hiff
      · next hskipped =>
        rw [hskipped] at hiff
        rw [ih (i + 1) acc hacc, ← hiff]
        simp
      · next ret complete hreturned =>
        rw [hreturned] at hiff
        rw [ih (i + 1) _ (by exact hacc), ← hiff]
        simp

theorem sendExtra_raised_iff (cfg : Config) (d : Destination) (res : Results) (chunk : Chunk) :
    (sendExtra cfg d res chunk).raised = false ↔ Fits cfg d chunk := by
  unfold sendExtra Fits
  split
  · next hnil => simp [hnil]
  · rw [maybeSendExtra_raised_iff cfg d chunk.stateIndices res.state cfg.stateTypes 0 _ rfl]
    simp only [Nat.zero_add]

/-! ## Section 2: The loop over the destinations -/

/-- The loop has served the destinations `done`, and nothing has stopped it. -/
structure Passing (cfg : Config) (results : String → Results) (w₀ : Worker) (chunk : Chunk)
    (done : List Destination) (p : Pass) : Prop where
  same : p.chunk = chunk
  notDeferred : p.stagingDeferred = false
  alive : p.worker.dead = false
  requestStatus : p.worker.requestStatus = w₀.requestStatus
  transferInfos : p.worker.transferInfos = w₀.transferInfos
  toSend : p.worker.toSend = w₀.toSend
  queue : p.worker.queue = w₀.queue
  reports : p.worker.reports = w₀.reports
  kept : ∀ x ∈ w₀.delivered, x ∈ p.worker.delivered
  pages : ∀ d ∈ done, ∀ k ∈ positions chunk, (d.endpoint, .page k) ∈ p.worker.delivered
  state : chunk.isLastChunk = true → ∀ d ∈ done, ∀ i < cfg.stateTypes.length, chunk.HasState i →
    (d.endpoint, .state i) ∈ p.worker.delivered
  aux : chunk.isLastChunk = true → ∀ d ∈ done, (results d.endpoint).aux = 0 →
    (d.endpoint, .aux) ∈ p.worker.delivered
  polls : chunk.isLastChunk = true → p.polls = done.map fun d =>
    decide ((results d.endpoint).aux = 0)
  ranks : chunk.isLastChunk = true → p.dstRanksInfos = done.map (·.endpoint)
  nonzero : p.worker.nonzero = true →
    chunk.isLastChunk = true ∧ ∃ d ∈ done, (results d.endpoint).aux ≠ 0

/-- How the loop over all destinations ends. -/
inductive Ended (cfg : Config) (results : String → Results) (dsts : List Destination) (w₀ : Worker)
    (chunk : Chunk) (p : Pass) : Prop
  | failed : p.worker.requestStatus cfg.room = some .failed →
      (∀ e, (e, .success) ∈ p.worker.reports → (e, .success) ∈ w₀.reports) →
      Ended cfg results dsts w₀ chunk p
  | dead : p.worker.dead = true → p.worker.nonzero = false → p.worker.reports = w₀.reports →
      Ended cfg results dsts w₀ chunk p
  | deferred : p.stagingDeferred = true → p.worker.dead = false → p.worker.nonzero = false →
      p.worker.requestStatus = w₀.requestStatus → p.worker.transferInfos = w₀.transferInfos →
      p.worker.toSend = w₀.toSend → p.worker.queue = w₀.queue ++ [chunk] →
      p.worker.reports = w₀.reports → (∀ x ∈ w₀.delivered, x ∈ p.worker.delivered) →
      Ended cfg results dsts w₀ chunk p
  | passed : Passing cfg results w₀ chunk dsts p → p.worker.nonzero = false →
      (chunk.isLastChunk = true → dsts = []) → Ended cfg results dsts w₀ chunk p
  | succeeded (p' : Pass) : Passing cfg results w₀ chunk dsts p' → p'.worker.nonzero = false →
      chunk.isLastChunk = true → (∀ d ∈ dsts, (results d.endpoint).aux = 0) →
      p = { p' with worker := { p'.worker with
        requestStatus := updateStatus w₀.requestStatus cfg.room .success
        reports := w₀.reports ++ dsts.map fun d => (d.endpoint, .success) } } →
      Ended cfg results dsts w₀ chunk p

section Loop

variable {w₀ : Worker} {chunk : Chunk} {done : List Destination} {p : Pass} {d : Destination}

theorem ended_fail (hpresent : w₀.requestStatus cfg.room ≠ none)
    (hstatus : p.worker.requestStatus = w₀.requestStatus) (hreports : p.worker.reports = w₀.reports)
    (endpoint : String) : Ended cfg results dsts w₀ chunk (p.fail cfg.room endpoint) := by
  apply Ended.failed
  · simp only [Pass.fail, hstatus, RoomStatus.updateStatus_failed]
    obtain ⟨status, hsome⟩ := Option.ne_none_iff_exists'.mp hpresent
    rw [hsome]
    rfl
  · intro e he
    simp only [Pass.fail, hreports, mem_append, mem_singleton, Prod.mk.injEq, reduceCtorEq,
      and_false, or_false] at he
    exact he

theorem collectLast_spec (h : Passing cfg results w₀ chunk done p)
    (hlast : chunk.isLastChunk = true)
    (hpages : ∀ k ∈ positions chunk, (d.endpoint, .page k) ∈ p.worker.delivered)
    (hstate : StateFine cfg d chunk (results d.endpoint).state)
    (hraised : (sendExtra cfg d (results d.endpoint) chunk).raised = false) :
    Passing cfg results w₀ chunk (done ++ [d])
      (collectLast d (results d.endpoint) (sendExtra cfg d (results d.endpoint) chunk) p) := by
  obtain ⟨hzero, harrived⟩ := sendExtra_fine hstate
  have hmem : ∀ x ∈ p.worker.delivered,
      x ∈ (collectLast d (results d.endpoint) (sendExtra cfg d (results d.endpoint) chunk)
        p).worker.delivered := by
    intro x hx
    simp only [collectLast, mem_append]
    exact Or.inl (Or.inl hx)
  refine ⟨h.same, h.notDeferred, h.alive, h.requestStatus, h.transferInfos, h.toSend, h.queue,
    h.reports, fun x hx => hmem x (h.kept x hx), ?_, ?_, ?_, ?_, ?_, ?_⟩
  · intro d' hd' k hk
    rcases mem_append.mp hd' with hd' | hd'
    · exact hmem _ (h.pages d' hd' k hk)
    · obtain rfl := mem_singleton.mp hd'
      exact hmem _ (hpages k hk)
  · intro _ d' hd' i hi hindices
    rcases mem_append.mp hd' with hd' | hd'
    · exact hmem _ (h.state hlast d' hd' i hi hindices)
    · obtain rfl := mem_singleton.mp hd'
      simp only [collectLast, mem_append, mem_map]
      exact Or.inl (Or.inr ⟨i, harrived hraised i hi hindices, rfl⟩)
  · intro _ d' hd' haux
    rcases mem_append.mp hd' with hd' | hd'
    · exact hmem _ (h.aux hlast d' hd' haux)
    · obtain rfl := mem_singleton.mp hd'
      simp only [collectLast, mem_append]
      right
      rw [if_pos haux]
      exact mem_singleton.mpr rfl
  · intro _
    simp only [collectLast, h.polls hlast, map_append, map_singleton]
  · intro _
    simp only [collectLast, h.ranks hlast, map_append, map_singleton]
  · intro hnonzero
    refine ⟨hlast, ?_⟩
    simp only [collectLast, hzero, Bool.or_false, Bool.or_eq_true, decide_eq_true_eq] at hnonzero
    rcases hnonzero with hnonzero | haux
    · obtain ⟨-, d', hd', haux⟩ := h.nonzero hnonzero
      exact ⟨d', mem_append_left _ hd', haux⟩
    · exact ⟨d, mem_append_right _ (mem_singleton.mpr rfl), haux⟩

theorem settleLast_spec (h : Passing cfg results w₀ chunk dsts p) (hlast : chunk.isLastChunk = true)
    (hpresent : w₀.requestStatus cfg.room ≠ none) (hrequired : d.requiredDstInfoNum = dsts.length) :
    Ended cfg results dsts w₀ chunk (settleLast cfg d p) := by
  have hcount : p.polls.length = d.requiredDstInfoNum := by
    rw [h.polls hlast, hrequired, length_map]
  unfold settleLast
  rw [if_pos hcount]
  cases hall : p.polls.all id with
  | true =>
    have haux : ∀ d ∈ dsts, (results d.endpoint).aux = 0 := by
      intro d hd
      rw [h.polls hlast, all_map, all_eq_true] at hall
      simpa using hall d hd
    apply Ended.succeeded p h _ hlast haux
    · simp only [if_true, h.requestStatus, h.reports, h.ranks hlast, map_map]
      rfl
    · cases hnonzero : p.worker.nonzero with
      | false => rfl
      | true =>
        obtain ⟨-, d', hd', hne⟩ := h.nonzero hnonzero
        exact absurd (haux d' hd') hne
  | false =>
    apply Ended.failed
    · simp only [Bool.false_eq_true, if_false, h.requestStatus, RoomStatus.updateStatus_failed]
      obtain ⟨status, hsome⟩ := Option.ne_none_iff_exists'.mp hpresent
      rw [hsome]
      rfl
    · intro e he
      simp only [Bool.false_eq_true, if_false, h.reports, mem_append, mem_map, Prod.mk.injEq,
        reduceCtorEq, and_false, exists_false, or_false] at he
      exact he

theorem settleLast_of_more (h : Passing cfg results w₀ chunk done p)
    (hlast : chunk.isLastChunk = true) (hmore : done.length ≠ d.requiredDstInfoNum) :
    settleLast cfg d p = p := by
  unfold settleLast
  rw [if_neg]
  rw [h.polls hlast, length_map]
  exact hmore

theorem sendKv_raised {pages : List Nat} {res : Results} (h : sendKv cfg d pages res = .raised) :
    cfg.enableStaging = true ∧ d.staging = true ∧
      (res.ready = .oversized ∨ res.ready = .ready ∧ ∃ ret, res.staged = some ret ∧ ret ≠ 0) := by
  unfold sendKv at h
  split at h
  · cases h
  · split at h
    · cases h
    · split at h
      · next hstaging =>
        refine ⟨hstaging.1, hstaging.2, ?_⟩
        split at h
        · next hready => exact Or.inl hready
        · cases h
        · next hready =>
          split at h
          · cases h
          · next ret hstaged =>
            split at h
            · next hne => exact Or.inr ⟨hready, ret, hstaged, hne⟩
            · cases h
      · cases h

theorem sendKv_deferred {pages : List Nat} {res : Results}
    (h : sendKv cfg d pages res = .deferred) :
    cfg.enableStaging = true ∧ d.staging = true ∧ res.ready = .pending := by
  unfold sendKv at h
  split at h
  · cases h
  · split at h
    · cases h
    · split at h
      · next hstaging =>
        split at h
        · cases h
        · next hready => exact ⟨hstaging.1, hstaging.2, hready⟩
        · split at h
          · cases h
          · split at h <;> cases h
      · cases h

/-- What the worker relies on in one turn. -/
structure TurnFine (cfg : Config) (results : String → Results) (dsts : List Destination)
    (chunk : Chunk) :
    Prop where
  sized : chunk.prefillKvIndices.length = chunk.indexSlice.2 - chunk.indexSlice.1
  places : ∀ d ∈ dsts, chunk.indexSlice.2 ≤ d.dstKvIndices.length
  staged : ∀ d ∈ dsts, cfg.enableStaging = true → d.staging = true →
    (results d.endpoint).ready = .ready → ∀ ret ∈ (results d.endpoint).staged, ret = 0
  state : chunk.isLastChunk = true → ∀ d ∈ dsts, StateFine cfg d chunk (results d.endpoint).state
  uncut : chunk.isLastChunk = true → (∃ d ∈ dsts, (results d.endpoint).aux ≠ 0) →
    ∀ d ∈ dsts, Uncut cfg d chunk (results d.endpoint)
  admitted : ∀ d ∈ dsts, d.requiredDstInfoNum = dsts.length

theorem Passing.nonzero_eq_false (h : Passing cfg results w₀ chunk done p)
    (hturn : TurnFine cfg results dsts chunk) (hdone : ∀ d' ∈ done, d' ∈ dsts) (hd : d ∈ dsts)
    (hcut : ¬ Uncut cfg d chunk (results d.endpoint)) : p.worker.nonzero = false := by
  cases hnonzero : p.worker.nonzero with
  | false => rfl
  | true =>
    obtain ⟨hlast, d', hd', haux⟩ := h.nonzero hnonzero
    exact absurd (hturn.uncut hlast ⟨d', hdone d' hd', haux⟩ d hd) hcut

theorem Passing.arrive (h : Passing cfg results w₀ chunk done p) (endpoint : String) :
    Passing cfg results w₀ chunk done { p with worker := { p.worker with
      delivered := p.worker.delivered ++ (positions p.chunk).map fun k =>
        (endpoint, Piece.page k) } } :=
  have hmem : ∀ x ∈ p.worker.delivered,
      x ∈ p.worker.delivered ++ (positions p.chunk).map fun k => (endpoint, Piece.page k) :=
    fun _ hx => mem_append_left _ hx
  { same := h.same
    notDeferred := h.notDeferred
    alive := h.alive
    requestStatus := h.requestStatus
    transferInfos := h.transferInfos
    toSend := h.toSend
    queue := h.queue
    reports := h.reports
    kept := fun x hx => hmem x (h.kept x hx)
    pages := fun d' hd' k hk => hmem _ (h.pages d' hd' k hk)
    state := fun hlast d' hd' i hi hindices => hmem _ (h.state hlast d' hd' i hi hindices)
    aux := fun hlast d' hd' haux => hmem _ (h.aux hlast d' hd' haux)
    polls := h.polls
    ranks := h.ranks
    nonzero := h.nonzero }

theorem Passing.serve (h : Passing cfg results w₀ chunk done p) (hlast : chunk.isLastChunk = false)
    (hpages : ∀ k ∈ positions chunk, (d.endpoint, .page k) ∈ p.worker.delivered) :
    Passing cfg results w₀ chunk (done ++ [d]) p := by
  have hnot : ¬ chunk.isLastChunk = true := by
    rw [hlast]
    exact Bool.false_ne_true
  refine ⟨h.same, h.notDeferred, h.alive, h.requestStatus, h.transferInfos, h.toSend, h.queue,
    h.reports, h.kept, ?_, fun hl => absurd hl hnot, fun hl => absurd hl hnot,
    fun hl => absurd hl hnot,
    fun hl => absurd hl hnot, fun hnonzero => absurd (h.nonzero hnonzero).1 hnot⟩
  intro d' hd' k hk
  rcases mem_append.mp hd' with hd' | hd'
  · exact h.pages d' hd' k hk
  · obtain rfl := mem_singleton.mp hd'
    exact hpages k hk

/-- How one destination ends: the loop is left, goes on with the destination served, or was at its
end. -/
def Outcome (cfg : Config) (results : String → Results) (dsts : List Destination) (w₀ : Worker)
    (chunk : Chunk) (done : List Destination) (d : Destination) (rest : List Destination)
    (sent : Pass × Bool) : Prop :=
  (sent.2 = true ∧ Ended cfg results dsts w₀ chunk sent.1) ∨
  (sent.2 = false ∧ (chunk.isLastChunk = true → rest ≠ []) ∧
    Passing cfg results w₀ chunk (done ++ [d]) sent.1) ∨
  (sent.2 = false ∧ rest = [] ∧ Ended cfg results dsts w₀ chunk sent.1)

section

variable {rest : List Destination} (h : Passing cfg results w₀ chunk done p)
  (hturn : TurnFine cfg results dsts chunk) (hpresent : w₀.requestStatus cfg.room ≠ none)
  (hdsts : done ++ d :: rest = dsts)
include h hturn hpresent hdsts

/-- The state and aux transfers of the last chunk, where the pages have arrived. -/
theorem finishLast_spec
    (hlast : chunk.isLastChunk = true)
    (hpages : ∀ k ∈ positions chunk, (d.endpoint, .page k) ∈ p.worker.delivered) :
    Outcome cfg results dsts w₀ chunk done d rest (finishLast cfg d (results d.endpoint) p) := by
  have hd : d ∈ dsts := hdsts ▸ mem_append_right _ mem_cons_self
  have hstate := hturn.state hlast d hd
  unfold finishLast
  rw [h.same]
  dsimp only
  cases hraised : (sendExtra cfg d (results d.endpoint) chunk).raised with
  | true =>
    have hcut : ¬ Uncut cfg d chunk (results d.endpoint) := by
      intro huncut
      rw [(sendExtra_raised_iff ..).mpr huncut.2] at hraised
      cases hraised
    refine Or.inl ⟨rfl, Ended.dead rfl ?_ h.reports⟩
    have hdone : ∀ d' ∈ done, d' ∈ dsts := fun d' hd' => hdsts ▸ mem_append_left _ hd'
    simp [h.nonzero_eq_false hturn hdone hd hcut, (sendExtra_fine hstate).1]
  | false =>
    have hcollect := collectLast_spec h hlast hpages hstate hraised
    right
    cases rest with
    | nil =>
      right
      rw [hdsts] at hcollect
      exact ⟨rfl, rfl, settleLast_spec hcollect hlast hpresent (hturn.admitted d hd)⟩
    | cons d' rest =>
      left
      have hmore : (done ++ [d]).length ≠ d.requiredDstInfoNum := by
        rw [hturn.admitted d hd, ← hdsts]
        simp
      refine ⟨rfl, fun _ => cons_ne_nil _ _, ?_⟩
      simp only [Bool.false_eq_true, if_false]
      rw [settleLast_of_more hcollect hlast hmore]
      exact hcollect

theorem afterKv_spec
    (hpages : ∀ k ∈ positions chunk, (d.endpoint, .page k) ∈ p.worker.delivered) :
    Outcome cfg results dsts w₀ chunk done d rest (afterKv cfg d (results d.endpoint) p) := by
  unfold afterKv
  rw [h.same]
  cases hlast : chunk.isLastChunk with
  | false =>
    refine Or.inr (Or.inl ⟨rfl, fun hl => absurd (hlast.symm.trans hl) Bool.false_ne_true, ?_⟩)
    exact h.serve hlast hpages
  | true => exact finishLast_spec h hturn hpresent hdsts hlast hpages

/-- One destination: the loop is left, or goes on with the destination served. -/
theorem sendTo_spec :
    Outcome cfg results dsts w₀ chunk done d rest (sendTo cfg d (results d.endpoint) p) := by
  have hd : d ∈ dsts := hdsts ▸ mem_append_right _ mem_cons_self
  have hdone : ∀ d' ∈ done, d' ∈ dsts := fun d' hd' => hdsts ▸ mem_append_left _ hd'
  have hsame : { p with chunk := cutChunk d p.chunk } = p := by
    have hcut : cutChunk d p.chunk = p.chunk := by
      rw [h.same]
      exact cutChunk_eq hturn.sized (hturn.places d hd)
    rw [hcut]
  -- a chunk that staging gives up or puts back is cut, and then nothing but zero was met before
  have hnonzero : (results d.endpoint).ready ≠ .ready → cfg.enableStaging = true →
    d.staging = true → p.worker.nonzero = false := by
    intro hnot hstaging hd'
    exact h.nonzero_eq_false hturn hdone hd fun huncut => hnot (huncut.1 hstaging hd')
  unfold sendTo
  split
  · exact Or.inl ⟨rfl, ended_fail hpresent h.requestStatus h.reports _⟩
  rw [hsame]
  dsimp only
  split
  · next hraised =>
    left
    obtain ⟨hstaging, hd', hready⟩ := sendKv_raised hraised
    have hoversized : (results d.endpoint).ready = .oversized := by
      rcases hready with hready | ⟨hready, ret, hstaged, hne⟩
      · exact hready
      · exact absurd (hturn.staged d hd hstaging hd' hready ret hstaged) hne
    refine ⟨rfl, Ended.dead rfl ?_ h.reports⟩
    simp [hnonzero (by rw [hoversized]; decide) hstaging hd', hoversized]
  · next hdeferred =>
    left
    obtain ⟨hstaging, hd', hpending⟩ := sendKv_deferred hdeferred
    refine ⟨rfl, Ended.deferred rfl h.alive (hnonzero (by rw [hpending]; decide) hstaging hd')
      h.requestStatus h.transferInfos h.toSend ?_ h.reports h.kept⟩
    rw [h.queue, h.same]
  · next ret hret =>
    split
    · left
      refine ⟨rfl, ?_⟩
      exact ended_fail (p := { p with worker := { p.worker with nonzero := true } }) hpresent
        h.requestStatus h.reports d.endpoint
    · refine afterKv_spec (h.arrive d.endpoint) hturn hpresent hdsts fun k hk => ?_
      rw [← h.same] at hk
      exact mem_append_right _ (mem_map.mpr ⟨k, hk, rfl⟩)

end

theorem destLoop_spec (hturn : TurnFine cfg results dsts chunk)
    (hpresent : w₀.requestStatus cfg.room ≠ none) (ds : List Destination) :
    ∀ {done : List Destination} {p : Pass},
    Passing cfg results w₀ chunk done p → done ++ ds = dsts → (∀ d ∈ ds, d.isDummy = false) →
      (chunk.isLastChunk = true → ds = [] → done = []) →
        Ended cfg results dsts w₀ chunk (destLoop cfg results ds p) := by
  induction ds with
  | nil =>
    intro done p h hdsts _ hempty
    rw [append_nil] at hdsts
    subst hdsts
    have hzero : p.worker.nonzero = false := by
      cases hnonzero : p.worker.nonzero with
      | false => rfl
      | true =>
        obtain ⟨hlast, d', hd', -⟩ := h.nonzero hnonzero
        rw [hempty hlast rfl] at hd'
        cases hd'
    exact Ended.passed h hzero fun hlast => hempty hlast rfl
  | cons d rest ih =>
    intro done p h hdsts hused _
    have hreal : d.isDummy = false := hused d (by simp)
    simp only [destLoop, hreal, Bool.false_eq_true, if_false]
    have hspec := sendTo_spec h hturn hpresent hdsts
    obtain ⟨⟨p', stop⟩, hp'⟩ : ∃ result, sendTo cfg d (results d.endpoint) p = result := ⟨_, rfl⟩
    rw [hp'] at hspec ⊢
    rcases hspec with ⟨hstop, hend⟩ | ⟨hstop, hmore, hpass⟩ | ⟨hstop, hrest, hend⟩
    · simp only at hstop
      subst hstop
      exact hend
    · simp only at hstop
      subst hstop
      exact ih hpass (by rw [← hdsts]; simp) (fun d' hd' => hused d' (mem_cons_of_mem _ hd'))
        (fun hlast hnil => absurd hnil (hmore hlast))
    · simp only at hstop
      subst hstop
      subst hrest
      exact hend

end Loop

theorem destLoop_dummy (cfg : Config) (results : String → Results) (ds : List Destination) :
    ∀ {p : Pass}, (∀ d ∈ ds, d.isDummy = true) → ∃ requestStatus, destLoop cfg results ds p =
        { p with worker := { p.worker with requestStatus := requestStatus } } ∧
      (requestStatus = p.worker.requestStatus ∨
        p.chunk.isLastChunk = true ∧ requestStatus cfg.room = some .success) := by
  induction ds with
  | nil =>
    intro p _
    exact ⟨p.worker.requestStatus, rfl, Or.inl rfl⟩
  | cons d ds ih =>
    intro p hdummy
    have hrest : ∀ d' ∈ ds, d'.isDummy = true := fun d' hd' => hdummy d' (mem_cons_of_mem _ hd')
    simp only [destLoop, hdummy d (by simp), if_true]
    split
    · next hlast =>
      obtain ⟨requestStatus, heq, hstatus⟩ := ih (p := { p with worker := { p.worker with
        requestStatus := updateStatus p.worker.requestStatus cfg.room .success } }) hrest
      refine ⟨requestStatus, heq, Or.inr ⟨hlast.1, ?_⟩⟩
      rcases hstatus with rfl | ⟨-, hsuccess⟩
      · exact RoomStatus.updateStatus_success hlast.2
      · exact hsuccess
    · exact ih hrest

end Sglang.Disaggregation.TransferWorker
