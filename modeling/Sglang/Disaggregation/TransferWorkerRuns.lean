import Mathlib.Tactic
import Sglang.Disaggregation.TransferPass

/-!
# When a Success Report Is Honest

- `Stage`: where the request is,
- `stage_send`, `stage_work`: a chunk is put into the queue, or the worker takes one,
- `decode_success_counted`: the decode side waits for all prefill ranks,
- `success_means_delivered`: a report of success means that everything arrived, as long as the
  worker meets none of the results that it drops,
- `dropped_result`: the failed transfer of a state is dropped.
-/

namespace Sglang.Disaggregation.TransferWorker

open List Function
open RoomStatus (KVPoll updateStatus)

variable {cfg : Config} {dsts : List Destination} {chunks : List Chunk} {results : String → Results}

/-! ## Section 1: Where the request is -/

/-- The chunks are on their way. -/
structure OnTheWay (cfg : Config) (dsts : List Destination) (chunks : List Chunk) (w : Worker) :
    Prop where
  status : w.requestStatus cfg.room = some .waitingForInput
  alive : w.dead = false
  zero : w.nonzero = false
  silent : ∀ e, (e, .success) ∉ w.reports
  infos : w.transferInfos = some dsts
  order : (∃ front last, w.toSend = front ++ [last] ∧ (∀ c ∈ front, c.isLastChunk = false) ∧
    ∀ c ∈ w.queue, c.isLastChunk = false) ∨ w.toSend = []
  known : (∀ c ∈ w.toSend, c ∈ chunks) ∧ ∀ c ∈ w.queue, c ∈ chunks
  pages : ∀ c ∈ chunks, c ∈ w.toSend ∨ c ∈ w.queue ∨ ∀ d ∈ dsts, d.isDummy = false →
    ∀ k ∈ positions c, (d.endpoint, .page k) ∈ w.delivered

inductive Stage (cfg : Config) (dsts : List Destination) (chunks : List Chunk) (w : Worker) : Prop
  | onTheWay : OnTheWay cfg dsts chunks w → Stage cfg dsts chunks w
  | failed : w.requestStatus cfg.room = some .failed → (∀ e, (e, .success) ∉ w.reports) →
      Stage cfg dsts chunks w
  | dead : w.dead = true → w.nonzero = false →
      (∀ e, (e, .success) ∉ w.reports) → Stage cfg dsts chunks w
  | settled : w.toSend = [] → w.queue = [] → w.nonzero = false →
      (∀ e, (e, .success) ∈ w.reports → Complete cfg chunks w e) → Stage cfg dsts chunks w

theorem Stage.honest {w : Worker} (h : Stage cfg dsts chunks w) : Honest cfg chunks w := by
  cases h with
  | onTheWay h =>
    refine ⟨fun e he => absurd he (h.silent e), fun hnonzero => ?_⟩
    rw [h.zero] at hnonzero
    cases hnonzero
  | failed hstatus hsilent => exact ⟨fun e he => absurd he (hsilent e), fun _ => hstatus⟩
  | dead _ hzero hsilent =>
    refine ⟨fun e he => absurd he (hsilent e), fun hnonzero => ?_⟩
    rw [hzero] at hnonzero
    cases hnonzero
  | settled _ _ hzero hcomplete =>
    refine ⟨hcomplete, fun hnonzero => ?_⟩
    rw [hzero] at hnonzero
    cases hnonzero

theorem stage_init (h : WellFormed dsts chunks) : Stage cfg dsts chunks
    (Worker.init cfg dsts chunks) := by
  obtain ⟨front, last, hchunks, -, hfront⟩ := h.last
  apply Stage.onTheWay
  refine ⟨by simp [Worker.init], rfl, rfl, by simp [Worker.init], rfl, ?_, ⟨fun c hc => hc, ?_⟩,
    fun c hc => Or.inl hc⟩
  · exact Or.inl ⟨front, last, hchunks, hfront, by simp [Worker.init]⟩
  · simp [Worker.init]

theorem stage_send {w w' : Worker} (h : Stage cfg dsts chunks w) (hstep : w.send cfg = some w') :
    Stage cfg dsts chunks w' := by
  unfold Worker.send at hstep
  split at hstep
  · cases hstep
  · next chunk toSend htoSend =>
    dsimp only at hstep
    cases h with
    | onTheWay h =>
      rw [if_neg (by rw [h.status]; simp), if_neg (by rw [h.infos]; simp)] at hstep
      cases hstep
      apply Stage.onTheWay
      have hknown : chunk ∈ chunks := h.known.1 chunk (by rw [htoSend]; simp)
      refine ⟨h.status, h.alive, h.zero, h.silent, h.infos, ?_, ⟨?_, ?_⟩, ?_⟩
      · -- once the last chunk is in the queue there is nothing left to send
        rcases h.order with ⟨front, last, hsplit, hfront, hqueue⟩ | hnil
        · rw [htoSend] at hsplit
          cases front with
          | nil =>
            right
            exact (List.cons.inj hsplit).2
          | cons c front =>
            obtain ⟨rfl, hrest⟩ := List.cons.inj hsplit
            left
            refine ⟨front, last, hrest, fun c' hc' => hfront c' (mem_cons_of_mem _ hc'), ?_⟩
            intro c' hc'
            rcases mem_append.mp hc' with hc' | hc'
            · exact hqueue c' hc'
            · obtain rfl := mem_singleton.mp hc'
              exact hfront _ (by simp)
        · rw [hnil] at htoSend
          cases htoSend
      · intro c hc
        exact h.known.1 c (by rw [htoSend]; exact mem_cons_of_mem _ hc)
      · intro c hc
        rcases mem_append.mp hc with hc | hc
        · exact h.known.2 c hc
        · obtain rfl := mem_singleton.mp hc
          exact hknown
      · intro c hc
        rcases h.pages c hc with hsend | hqueue | hpages
        · rw [htoSend] at hsend
          rcases mem_cons.mp hsend with rfl | hsend
          · exact Or.inr (Or.inl (mem_append_right _ (mem_singleton.mpr rfl)))
          · exact Or.inl hsend
        · exact Or.inr (Or.inl (mem_append_left _ hqueue))
        · exact Or.inr (Or.inr hpages)
    -- a failed room sends nothing
    | failed hstatus hsilent =>
      rw [if_pos (Or.inr hstatus)] at hstep
      cases hstep
      exact Stage.failed hstatus hsilent
    | dead hdead hzero hsilent =>
      split at hstep
      · cases hstep
        exact Stage.dead hdead hzero hsilent
      · split at hstep
        · cases hstep
          exact Stage.dead hdead hzero hsilent
        · cases hstep
          exact Stage.dead hdead hzero hsilent
    | settled hnil _ _ _ =>
      rw [hnil] at htoSend
      cases htoSend

section Work

variable {w : Worker} {chunk : Chunk} {queue : List Chunk}

section

variable (h : OnTheWay cfg dsts chunks w)
include h

theorem OnTheWay.nothing_left (hqueue : w.queue = chunk :: queue)
    (hlast : chunk.isLastChunk = true) : w.toSend = [] := by
  rcases h.order with ⟨front, last, -, -, hnot⟩ | hnil
  · have := hnot chunk (by rw [hqueue]; simp)
    rw [hlast] at this
    cases this
  · exact hnil

/-- A transfer stays on its way while each chunk that leaves the queue has its pages delivered. -/
theorem OnTheWay.turned
    {w' : Worker} (hstatus : w'.requestStatus = w.requestStatus) (halive : w'.dead = false)
    (hzero : w'.nonzero = false) (hreports : w'.reports = w.reports)
    (hinfos : w'.transferInfos = w.transferInfos) (htoSend : w'.toSend = w.toSend)
    (hqueue : ∀ c ∈ w'.queue, c ∈ w.queue) (hkept : ∀ x ∈ w.delivered, x ∈ w'.delivered)
    (hpages : ∀ c ∈ w.queue, c ∈ w'.queue ∨ ∀ d ∈ dsts, d.isDummy = false →
      ∀ k ∈ positions c, (d.endpoint, .page k) ∈ w'.delivered) : OnTheWay cfg dsts chunks w' := by
  refine ⟨by rw [hstatus]; exact h.status, halive, hzero, by rw [hreports]; exact h.silent,
    hinfos.trans h.infos, ?_,
    ⟨by rw [htoSend]; exact h.known.1, fun c hc => h.known.2 c (hqueue c hc)⟩,
    ?_⟩
  · rw [htoSend]
    rcases h.order with ⟨front, last, hsplit, hfront, hnot⟩ | hnil
    · exact Or.inl ⟨front, last, hsplit, hfront, fun c hc => hnot c (hqueue c hc)⟩
    · exact Or.inr hnil
  · intro c hc
    rw [htoSend]
    rcases h.pages c hc with hsend | hin | hold
    · exact Or.inl hsend
    · exact Or.inr (hpages c hin)
    · exact Or.inr (Or.inr fun d hd hreal k hk => hkept _ (hold d hd hreal k hk))

theorem OnTheWay.complete (hwell : WellFormed dsts chunks)
    (hqueue : w.queue = [chunk]) (hlast : chunk.isLastChunk = true) {p : Pass} {d : Destination}
    (hd : d ∈ dsts) (hreal : d.isDummy = false)
    (hpass : Passing cfg results { w with queue := [] } chunk dsts p)
    (haux : (results d.endpoint).aux = 0) {w' : Worker} (hw' : w'.delivered = p.worker.delivered) :
    Complete cfg chunks w' d.endpoint := by
  have hnil := h.nothing_left hqueue hlast
  refine ⟨?_, ?_, ?_⟩
  · intro c hc k hk
    rw [hw']
    rcases h.pages c hc with hsend | hin | hpages
    · rw [hnil] at hsend
      cases hsend
    · rw [hqueue] at hin
      obtain rfl := mem_singleton.mp hin
      exact hpass.pages d hd k hk
    · exact hpass.kept _ (hpages d hd hreal k hk)
  · intro c hc hclast i hi hindices
    rw [hw']
    -- there is one last chunk
    obtain ⟨front, last, hsplit, -, hfront⟩ := hwell.last
    have honly : ∀ c' ∈ chunks, c'.isLastChunk = true → c' = last := by
      intro c' hc' hl
      rw [hsplit] at hc'
      rcases mem_append.mp hc' with hc' | hc'
      · rw [hfront c' hc'] at hl
        cases hl
      · exact mem_singleton.mp hc'
    have hchunk := honly chunk (h.known.2 chunk (by rw [hqueue]; simp)) hlast
    obtain rfl := (honly c hc hclast).trans hchunk.symm
    exact hpass.state hlast d hd i hi hindices
  · rw [hw']
    exact hpass.aux hlast d hd haux

theorem OnTheWay.turnFine (hwell : WellFormed dsts chunks)
    (hqueue : w.queue = chunk :: queue) (hfine : Fine cfg dsts w (.work results)) :
    TurnFine cfg results dsts chunk ∧ (chunk.isLastChunk = true → queue = []) := by
  have hknown : chunk ∈ chunks := h.known.2 chunk (by rw [hqueue]; simp)
  simp only [Fine, hqueue] at hfine
  obtain ⟨hplaces, hstaged, hlast⟩ := hfine
  exact ⟨⟨hwell.sized chunk hknown, hplaces, hstaged, fun hl => (hlast hl).2.1,
    fun hl => (hlast hl).2.2,
    hwell.admitted⟩, fun hl => (hlast hl).1⟩

theorem OnTheWay.ended {w' : Worker} {p : Pass}
    (hwell : WellFormed dsts chunks) (hqueue : w.queue = chunk :: queue)
    (hlastQueue : chunk.isLastChunk = true → queue = []) (hreal : ∀ d ∈ dsts, d.isDummy = false)
    (hend : Ended cfg results dsts { w with queue := queue } chunk p)
    (hstep : (if p.worker.dead ∨ p.stagingDeferred then some p.worker
      else if p.worker.requestStatus cfg.room = none ∨
        p.worker.requestStatus cfg.room = some .success then
        some { p.worker with transferInfos := none }
      else some p.worker) = some w') : Stage cfg dsts chunks w' := by
  cases hend with
  | failed hfailed hreports =>
    have hsilent : ∀ e, (e, KVPoll.success) ∉ p.worker.reports := fun e he =>
      h.silent e (hreports e he)
    rw [hfailed] at hstep
    simp only [reduceCtorEq, Option.some.injEq, or_self, if_false] at hstep
    split at hstep
    · cases hstep
      exact Stage.failed hfailed hsilent
    · cases hstep
      exact Stage.failed hfailed hsilent
  | dead hpdead hzero hreports =>
    rw [if_pos (Or.inl hpdead)] at hstep
    cases hstep
    refine Stage.dead hpdead hzero ?_
    rw [hreports]
    exact h.silent
  | deferred hdeferred halive hzero hstatus hinfos htoSend hpqueue hreports hkept =>
    -- the staging buffer was not ready: the chunk goes to the end of the queue
    rw [if_pos (Or.inr hdeferred)] at hstep
    cases hstep
    have hmem : ∀ c, c ∈ p.worker.queue ↔ c ∈ w.queue := by
      intro c
      rw [hpqueue, hqueue, mem_append, mem_singleton, mem_cons]
      exact or_comm
    exact Stage.onTheWay
      (h.turned hstatus halive hzero hreports hinfos htoSend (fun c => (hmem c).mp) hkept
      fun c hc => Or.inl ((hmem c).mpr hc))
  | passed hpass hzero _ =>
    rw [if_neg (by rw [hpass.alive, hpass.notDeferred]; simp),
      if_neg (by rw [hpass.requestStatus]; simp [h.status])] at hstep
    cases hstep
    refine Stage.onTheWay
      (h.turned hpass.requestStatus hpass.alive hzero hpass.reports hpass.transferInfos
      hpass.toSend ?_ hpass.kept ?_) <;> rw [hqueue, hpass.queue]
    · exact fun c => mem_cons_of_mem chunk
    · intro c hc
      rcases mem_cons.mp hc with rfl | hc
      · exact Or.inr fun d hd _ => hpass.pages d hd
      · exact Or.inl hc
  | succeeded p' hpass hzero hlast haux heq =>
    -- the last chunk went to every destination: the room is settled, and each success is reported
    have hnil := hlastQueue hlast
    subst hnil
    have hsuccess : p.worker.requestStatus cfg.room = some .success := by
      rw [heq]
      exact RoomStatus.updateStatus_success (by simp [h.status])
    rw [if_neg (by rw [heq]; simp [hpass.alive, hpass.notDeferred]),
      if_pos (Or.inr hsuccess)] at hstep
    cases hstep
    apply Stage.settled
    · rw [heq]
      exact hpass.toSend.trans (h.nothing_left hqueue hlast)
    · rw [heq]
      exact hpass.queue
    · rw [heq]
      exact hzero
    · intro e he
      rw [heq] at he
      simp only [mem_append, mem_map, Prod.mk.injEq, and_true] at he
      rcases he with he | ⟨d, hd, rfl⟩
      · exact absurd he (h.silent e)
      · exact h.complete hwell hqueue hlast hd (hreal d hd) hpass (haux d hd) (by rw [heq])

end

theorem stage_work {w' : Worker} (hwell : WellFormed dsts chunks) (h : Stage cfg dsts chunks w)
    (hfine : Fine cfg dsts w (.work results)) (hstep : w.work cfg results = some w') :
    Stage cfg dsts chunks w' := by
  unfold Worker.work at hstep
  split at hstep
  · cases hstep
  · next hdead =>
    split at hstep
    · cases hstep
    · next chunk queue hqueue =>
      dsimp only at hstep
      cases h with
      | failed hstatus hsilent =>
        -- a chunk of a failed room is dropped
        rw [if_pos (Or.inr hstatus)] at hstep
        cases hstep
        exact Stage.failed hstatus hsilent
      | dead h => exact absurd h hdead
      | settled _ hnil => rw [hnil] at hqueue; cases hqueue
      | onTheWay h =>
        obtain ⟨hturn, hlastQueue⟩ := h.turnFine hwell hqueue hfine
        have hinfos : w.transferInfos.getD [] = dsts := by
          rw [h.infos]
          rfl
        rw [if_neg (by rw [h.status]; simp), hinfos] at hstep
        obtain ⟨p, hp⟩ : ∃ p,
            destLoop cfg results dsts ⟨{ w with queue := queue }, chunk, [], [], false⟩ = p :=
          ⟨_, rfl⟩
        rw [hp] at hstep
        -- the destinations are all real, or all the dummies of ranks that the decode side does not
        -- need
        rcases hwell.used with hreal | hdummy
        · suffices hend : Ended cfg results dsts { w with queue := queue } chunk p from
            h.ended hwell hqueue hlastQueue hreal hend hstep
          rw [← hp]
          apply destLoop_spec hturn (by simp [h.status]) dsts _ rfl hreal (fun _ _ => rfl)
          refine ⟨rfl, rfl, h.alive, rfl, rfl, rfl, rfl, rfl, fun x hx => hx, ?_, ?_, ?_,
            fun _ => rfl, fun _ => rfl, ?_⟩
          · simp
          · simp
          · simp
          · intro hnonzero
            exact absurd (h.zero.symm.trans hnonzero) (by decide)
        · obtain ⟨requestStatus, heq, hstatus⟩ := destLoop_dummy cfg results dsts
            (p := ⟨{ w with queue := queue }, chunk, [], [], false⟩) hdummy
          rw [hp] at heq
          rw [if_neg (by rw [heq]; simp [h.alive])] at hstep
          rcases hstatus with hsame | ⟨hlast, hsuccess⟩
          · rw [if_neg (by rw [heq, hsame, h.status]; simp)] at hstep
            cases hstep
            refine Stage.onTheWay (h.turned ?_ ?_ ?_ ?_ ?_ ?_ ?_ ?_ ?_) <;> rw [heq]
            · exact hsame
            · exact h.alive
            · exact h.zero
            · exact fun c hc => by rw [hqueue]; exact mem_cons_of_mem chunk hc
            · exact fun x hx => hx
            · -- nothing is owed to a dummy
              intro c _
              exact Or.inr fun d hd hreal => absurd (hreal.symm.trans (hdummy d hd)) (by decide)
          · rw [if_pos (by rw [heq]; exact Or.inr hsuccess)] at hstep
            cases hstep
            have hnil := hlastQueue hlast
            subst hnil
            apply Stage.settled
            · rw [heq]
              exact h.nothing_left hqueue hlast
            · rw [heq]
            · rw [heq]
              exact h.zero
            · intro e he
              rw [heq] at he
              exact absurd he (h.silent e)

end Work

/-! ## Section 2: The decode side -/

section Decode

open RoomStatus (DecodeManager DecodeEvent of_updateStatus_eq_success)

variable {m m' : DecodeManager} {e : DecodeEvent} {room : Nat}

theorem reportedBy_cons (room : Nat) (e : DecodeEvent) (events : List DecodeEvent)
    (ranks : List Nat) :
    reportedBy room (e :: events) ranks = reportedBy room events (reportedBy room [e] ranks) := by
  cases e with
  | statusMessage r status rank => cases status <;> rfl
  | _ => rfl

theorem reportedBy_append (room : Nat) (events later : List DecodeEvent) : ∀ ranks : List Nat,
    reportedBy room (events ++ later) ranks = reportedBy room later
    (reportedBy room events ranks) := by
  induction events with
  | nil => exact fun _ => rfl
  | cons e events ih =>
    intro ranks
    rw [cons_append, reportedBy_cons, ih, ← reportedBy_cons]

/-- The tracker of a room has prefill ranks that have reported, each once. -/
def Tracked (m : DecodeManager) (reported : Nat → List Nat) : Prop :=
  ∀ room, (m.prefillResponseTracker room).Nodup ∧
    ∀ k ∈ m.prefillResponseTracker room, k ∈ reported room

theorem loseNodes_tracker (rooms : List Nat) : ∀ m : DecodeManager,
    (rooms.foldl DecodeManager.loseNode m).prefillResponseTracker = m.prefillResponseTracker := by
  induction rooms with
  | nil => exact fun m => rfl
  | cons r rooms ih =>
    intro m
    rw [foldl_cons, ih]
    unfold DecodeManager.loseNode
    split
    · rfl
    · split <;> rfl

theorem tracked_step {reported : Nat → List Nat} (h : Tracked m reported)
    (hstep : m.step e = some m') :
    Tracked m' fun room => reportedBy room [e] (reported room) := by
  -- only a Success message and the clearing of a room touch the tracker
  cases e with
  | construct r =>
    cases hstep
    exact h
  | init r outcome =>
    cases hstep
    cases outcome <;> exact h
  | metadataFailed r =>
    cases hstep
    exact h
  | timeout r =>
    simp only [DecodeManager.step] at hstep
    split at hstep
    · cases hstep
      exact h
    · cases hstep
  | nodeFailure rooms =>
    cases hstep
    intro room
    rw [loseNodes_tracker]
    exact h room
  | abort r =>
    cases hstep
    exact h
  | clear r =>
    cases hstep
    intro room
    simp only [DecodeManager.clear, reportedBy]
    by_cases heq : room = r
    · subst heq
      simp
    · rw [update_of_ne heq, if_neg (Ne.symm heq)]
      exact h room
  | statusMessage r status rank =>
    cases status with
    | success =>
      simp only [DecodeManager.step, DecodeManager.statusMessage] at hstep
      split at hstep
      · cases hstep
        intro room
        refine ⟨(h room).1, fun k hk => ?_⟩
        simp only [reportedBy]
        split
        · exact mem_cons_of_mem _ ((h room).2 k hk)
        · exact (h room).2 k hk
      · simp only [Option.bind_eq_bind, Option.bind_eq_some_iff, Option.some.injEq] at hstep
        obtain ⟨expected, -, hm'⟩ := hstep
        have htracker : m'.prefillResponseTracker = update m.prefillResponseTracker r
            ((m.prefillResponseTracker r).insert rank) := by
          rw [← hm']
          split <;> rfl
        intro room
        rw [htracker]
        simp only [reportedBy]
        by_cases heq : room = r
        · subst heq
          rw [update_self, if_pos rfl]
          refine ⟨(h room).1.insert, fun k hk => ?_⟩
          rcases mem_insert_iff.mp hk with rfl | hk
          · exact mem_cons_self
          · exact mem_cons_of_mem _ ((h room).2 k hk)
        · rw [update_of_ne heq, if_neg (Ne.symm heq)]
          exact h room
    | _ =>
      cases hstep
      exact h

theorem tracked_run (events : List DecodeEvent) : ∀ {m m' : DecodeManager}
    {reported : Nat → List Nat}, Tracked m reported →
    Lib.run DecodeManager.step m events = some m' → Tracked m' fun room => reportedBy room events
    (reported room) := by
  induction events with
  | nil =>
    intro m m' reported h hrun
    cases hrun
    exact h
  | cons e events ih =>
    intro m m' reported h hrun
    rw [Lib.run, Option.bind_eq_some_iff] at hrun
    obtain ⟨m₁, hstep, hrun⟩ := hrun
    have := ih (tracked_step h hstep) hrun
    intro room
    simp only [reportedBy_cons room e events]
    exact this room

/-- A room becomes `Success` by the message that completes its ranks. -/
theorem success_step (hstep : m.step e = some m') (hold : m.requestStatus room ≠ some .success)
    (hnew : m'.requestStatus room = some .success) :
    m'.requiredPrefillResponseNumTable room = some (m'.prefillResponseTracker room).length := by
  have hupdate : ∀ (r : Nat) (status : KVPoll), status ≠ .success →
      updateStatus m.requestStatus r status room ≠ some .success := by
    intro r status hstatus heq
    rcases of_updateStatus_eq_success heq with heq | ⟨-, heq⟩
    · exact hold heq
    · exact hstatus heq
  -- no step but the last message of a room makes it Success
  cases e with
  | construct r =>
    cases hstep
    exact absurd hnew (hupdate r _ (by decide))
  | init r outcome =>
    cases hstep
    cases outcome <;> exact absurd hnew (hupdate r _ (by decide))
  | metadataFailed r =>
    cases hstep
    exact absurd hnew (hupdate r _ (by decide))
  | timeout r =>
    simp only [DecodeManager.step] at hstep
    split at hstep
    · cases hstep
      exact absurd hnew (hupdate r _ (by decide))
    · cases hstep
  | nodeFailure rooms =>
    cases hstep
    rcases DecodeManager.foldl_loseNode_status rooms m room with heq | ⟨-, heq⟩
    · rw [heq] at hnew
      exact absurd hnew hold
    · rw [heq] at hnew
      cases hnew
  | abort r =>
    cases hstep
    exact absurd hnew (hupdate r _ (by decide))
  | clear r =>
    cases hstep
    simp only [DecodeManager.clear] at hnew
    by_cases heq : room = r
    · subst heq
      rw [update_self] at hnew
      cases hnew
    · rw [update_of_ne heq] at hnew
      exact absurd hnew hold
  | statusMessage r status rank =>
    cases status with
    | success =>
      simp only [DecodeManager.step, DecodeManager.statusMessage] at hstep
      split at hstep
      · cases hstep
        exact absurd hnew hold
      · simp only [Option.bind_eq_bind, Option.bind_eq_some_iff, Option.some.injEq] at hstep
        obtain ⟨expected, hexpected, hm'⟩ := hstep
        split at hm'
        · next hcount =>
          rw [← hm'] at hnew ⊢
          rcases of_updateStatus_eq_success hnew with heq | ⟨rfl, -⟩
          · exact absurd heq hold
          · simp only [DecodeManager.update, update_self, hcount]
            exact hexpected
        · rw [← hm'] at hnew
          exact absurd hnew hold
    | failed =>
      cases hstep
      exact absurd hnew (hupdate r _ (by decide))
    | _ =>
      cases hstep
      exact absurd hnew hold

/-- The decode side waits for as many prefill ranks as are required. -/
theorem decode_success_counted {events : List DecodeEvent}
    (hrun : Lib.run DecodeManager.step DecodeManager.init events = some m)
    (hstep : m.step e = some m')
    (hold : m.requestStatus room ≠ some .success) (hnew : m'.requestStatus room = some .success) :
    ∃ ranks : List Nat, ranks.Nodup ∧ m'.requiredPrefillResponseNumTable room = some ranks.length ∧
      ∀ k ∈ ranks, k ∈ reportedBy room (events ++ [e]) [] := by
  have hstart : Tracked DecodeManager.init fun _ => [] := fun _ => ⟨nodup_nil, fun k hk => hk⟩
  have htracked := tracked_step (tracked_run events hstart hrun) hstep room
  refine ⟨m'.prefillResponseTracker room, htracked.1, success_step hstep hold hnew, ?_⟩
  rw [reportedBy_append]
  exact htracked.2

end Decode

/-! ## Section 3: Every run -/

/-- In every run whose turns meet the condition, a `Success` report means that everything was
delivered, and a result other than zero makes the room `Failed`; the decode side becomes `Success`
only when all prefill ranks have reported. -/
theorem success_means_delivered (cfg : Config) (dsts : List Destination) (chunks : List Chunk) :
    (WellFormed dsts chunks → ∀ events w,
      Lib.Along (Worker.step cfg) (Fine cfg dsts) (Worker.init cfg dsts chunks) events →
        Lib.run (Worker.step cfg) (Worker.init cfg dsts chunks) events = some w →
        Honest cfg chunks w) ∧
    ∀ (events : List RoomStatus.DecodeEvent) (m m' : RoomStatus.DecodeManager)
    (e : RoomStatus.DecodeEvent)
      (room : Nat),
      Lib.run RoomStatus.DecodeManager.step .init events = some m → m.step e = some m' →
        m.requestStatus room ≠ some .success → m'.requestStatus room = some .success →
          ∃ ranks : List Nat, ranks.Nodup ∧
          m'.requiredPrefillResponseNumTable room = some ranks.length ∧ ∀ k ∈ ranks,
          k ∈ reportedBy room (events ++ [e]) [] := by
  constructor
  · intro hwell events w hfine hrun
    apply Stage.honest
    apply Lib.invariant_of_run (Stage cfg dsts chunks) _ (stage_init hwell) hfine hrun
    intro w e w' h hP hstep
    cases e with
    | send => exact stage_send h hstep
    | work results => exact stage_work hwell h hP hstep
  · intro events m m' e room hrun hstep hold hnew
    exact decode_success_counted hrun hstep hold hnew

/-- A rank with a Mamba state, its only destination, and a request of two pages. -/
def mambaConfig : Config := ⟨7, false, 1, 1, false, [.mamba]⟩

def mambaDestination : Destination := ⟨"decode", [10, 11], [[4]], 1, false, 1, [1], false⟩

def mambaChunks : List Chunk := [⟨[3], (0, 1), false, []⟩, ⟨[5], (1, 2), true, [some [2]]⟩]

/-- Every transfer returns zero, except for the state. -/
def stateReturns (ret : Int) : String → Results := fun _ =>
    ⟨true, .ready, none, [0], fun _ => ret, 0⟩

theorem mambaChunks_wellFormed : WellFormed [mambaDestination] mambaChunks where
  last := ⟨[⟨[3], (0, 1), false, []⟩], ⟨[5], (1, 2), true, [some [2]]⟩, rfl, rfl, by simp⟩
  sized := by decide
  admitted := by decide
  used := Or.inl (by decide)

/-- Both pages, the state and the aux data arrive; on the decode side two ranks have to report. -/
theorem mamba_delivered :
    (∃ w, Lib.run (Worker.step mambaConfig) (Worker.init mambaConfig [mambaDestination] mambaChunks)
        [.send, .work (stateReturns 0), .send, .work (stateReturns 0)] = some w ∧
      w.reports = [("decode", .success)] ∧ Honest mambaConfig mambaChunks w) ∧
    ∃ ranks : List Nat, ranks.Nodup ∧ ranks.length = 2 ∧ ∀ k ∈ ranks, k ∈ reportedBy 7
      [.construct 7, .init 7 (.ready 2), .statusMessage 7 .success 0, .statusMessage 7 .success 1]
      [] := by
  constructor
  · refine ⟨_, rfl, rfl, (success_means_delivered mambaConfig [mambaDestination] mambaChunks).1
      mambaChunks_wellFormed [.send, .work (stateReturns 0), .send,
        .work (stateReturns 0)] _ ?_ rfl⟩
    have hplaces : ∀ d ∈ [mambaDestination], 2 ≤ d.dstKvIndices.length := by decide
    have hstate : ∀ d ∈ [mambaDestination], StateFine mambaConfig d ⟨[5], (1, 2), true, [some [2]]⟩
        fun _ => 0 := by
      intro d hd i st indices hst hindices
      obtain rfl := mem_singleton.mp hd
      cases i with
      | zero =>
        cases hindices
        exact ⟨rfl, by decide, fun _ => by decide⟩
      | succ i => cases hst
    refine ⟨trivial, ⟨fun d hd => le_trans (by decide) (hplaces d hd), ?_, ?_⟩, trivial,
      ⟨hplaces, ?_, fun _ => ⟨rfl, hstate, ?_⟩⟩, trivial⟩
    · intro d _ hstaging
      cases hstaging
    · intro hlast
      cases hlast
    · intro d _ hstaging
      cases hstaging
    · rintro ⟨d, -, haux⟩
      exact absurd rfl haux
  · obtain ⟨ranks, hnodup, hlength, hranks⟩ :=
      (success_means_delivered mambaConfig [mambaDestination] mambaChunks).2
      [.construct 7, .init 7 (.ready 2), .statusMessage 7 .success 0] _ _
      (.statusMessage 7 .success 1) 7
      rfl rfl (by decide) rfl
    exact ⟨ranks, hnodup, (Option.some.inj hlength).symm, hranks⟩

/-- A rank that sends through a staging buffer. -/
def stagingConfig : Config := ⟨7, false, 2, 1, true, []⟩

def stagingDestination : Destination := ⟨"decode", [10, 11], [], 1, false, 1, [], true⟩

def stagingChunks : List Chunk := [⟨[3], (0, 1), false, []⟩, ⟨[5], (1, 2), true, []⟩]

def readiness (state : Readiness) : String → Results := fun _ =>
    ⟨true, state, some 0, [], fun _ => 0, 0⟩

/-- The failed transfer of a state is dropped, and a chunk that was put back is overtaken by the
last one. -/
theorem dropped_result :
    (¬ ∀ cfg dsts chunks, WellFormed dsts chunks → ∀ events w,
      Lib.run (Worker.step cfg) (Worker.init cfg dsts chunks) events = some w →
      Honest cfg chunks w) ∧
    (∃ w, Lib.run (Worker.step mambaConfig) (Worker.init mambaConfig [mambaDestination] mambaChunks)
        [.send, .work (stateReturns 0), .send, .work (stateReturns (-1))] = some w ∧
      w.reports = [("decode", .success)] ∧ ("decode", .state 0) ∉ w.delivered ∧ w.nonzero = true ∧
        w.requestStatus 7 = some .success) ∧
    ∃ w, Lib.run (Worker.step stagingConfig)
        (Worker.init stagingConfig [stagingDestination] stagingChunks)
        [.send, .send, .work (readiness .pending), .work (readiness .ready)] = some w ∧
      w.reports = [("decode", .success)] ∧ ("decode", .page 0) ∉ w.delivered := by
  have hstate : ∃ w, Lib.run (Worker.step mambaConfig)
      (Worker.init mambaConfig [mambaDestination] mambaChunks)
      [.send, .work (stateReturns 0), .send, .work (stateReturns (-1))] = some w ∧
      w.reports = [("decode", .success)] ∧ ("decode", .state 0) ∉ w.delivered ∧ w.nonzero = true ∧
        w.requestStatus 7 = some .success := ⟨_, rfl, rfl, by decide, rfl, rfl⟩
  refine ⟨?_, hstate, ⟨_, rfl, rfl, by decide⟩⟩
  intro hall
  obtain ⟨w, hrun, -, -, hnonzero, hsuccess⟩ := hstate
  have hfailed := (hall _ _ _ mambaChunks_wellFormed _ w hrun).failed hnonzero
  rw [show mambaConfig.room = 7 from rfl, hsuccess] at hfailed
  cases hfailed

end Sglang.Disaggregation.TransferWorker
