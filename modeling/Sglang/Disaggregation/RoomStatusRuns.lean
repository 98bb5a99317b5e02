import Mathlib.Tactic
import Sglang.Disaggregation.RoomStatus

/-!
# When the Status of a Room Is Final

- `Allowed`: how the status of one room may move,
- `prefill_inv_step`: what the prefill side keeps, as long as nothing fails or clears a room while a
  worker is inside one of its chunks,
- `status_final`: then, and as long as no failed room is opened again, the status is final,
- `status_not_final`: an abort or a clear inside a running transfer, and a late message on the
  decode side, make a failed or cleared room `Success`.
-/

namespace Sglang.Disaggregation.RoomStatus

open Option Function

/-! ## Section 1: Moves of one room -/

/-- A room keeps its status, is raised where it has not failed, fails or is cleared; it gets an
entry only where it is opened. -/
inductive Allowed (opens : Prop) : Option KVPoll → Option KVPoll → Prop
  | same (a : Option KVPoll) : Allowed opens a a
  | raised {a : Option KVPoll} {status : KVPoll} : status ≠ .failed → a ≠ some .failed →
      (a ≠ none ∨ opens) → Allowed opens a (some status)
  | failed {a : Option KVPoll} : (a ≠ none ∨ opens) → Allowed opens a (some .failed)
  | cleared {a : Option KVPoll} : Allowed opens a none

/-- What is remembered of a room tells its status. -/
structure TraceInv {σ : Type} (status : σ → Nat → Option KVPoll) (t : Traced σ) : Prop where
  failed : ∀ r, t.hasFailed r = true → status t.manager r = some .failed
  cleared : ∀ r, t.opened r = false → status t.manager r = none

section Trace

variable {σ ε : Type} {next : σ → ε → Option σ} {status : σ → Nat → Option KVPoll}
  {opens : ε → Option Nat}

theorem TraceInv.statusFinal {t : Traced σ} (h : TraceInv status t) : StatusFinal status t where
  final := by
    intro r hr heq
    rw [h.failed r hr] at heq
    cases heq
  cleared := h.cleared
  fresh := by
    intro r hr
    simp [updateStatus, h.cleared r hr]

theorem traceInv_start {m : σ} (h : ∀ r, status m r = none) : TraceInv status (Traced.start m) :=
  ⟨fun _ hr => absurd hr Bool.false_ne_true, fun r _ => h r⟩

theorem TraceInv.move {t t' : Traced σ} {e : ε} (h : TraceInv status t)
    (hstep : tracedStep next status opens t e = some t')
    (hmoves : ∀ r, Allowed (opens e = some r) (status t.manager r) (status t'.manager r)) :
    TraceInv status t' := by
  simp only [tracedStep, bind_eq_bind, bind_eq_some_iff] at hstep
  obtain ⟨m, -, heq⟩ := hstep
  cases heq
  constructor
  · intro r hr
    have hmove := hmoves r
    simp only at hr hmove ⊢
    cases hnew : status m r with
    | none => simp [hnew] at hr
    | some st =>
      by_cases hst : st = .failed
      · rw [hst]
      · have hold : status t.manager r = some .failed := by
          apply h.failed
          cases st <;> simp_all
        rw [hold, hnew] at hmove
        cases hmove with
        | same => rfl
        | raised _ hne _ => exact absurd rfl hne
        | failed _ => rfl
  · intro r hr
    have hmove := hmoves r
    simp only [decide_eq_false_iff_not, not_or, not_and, Bool.not_eq_true] at hr hmove ⊢
    by_contra hnew
    have hold := h.cleared r (hr.2 hnew)
    rw [hold] at hmove
    cases hb : status m r with
    | none => exact hnew hb
    | some st =>
      rw [hb] at hmove
      cases hmove with
      | raised _ _ hopen => exact hr.1 (hopen.resolve_left (fun hne => hne rfl))
      | failed hopen => exact hr.1 (hopen.resolve_left (fun hne => hne rfl))

end Trace

theorem max_ne_failed {a b : KVPoll} (h : a ≠ .failed) : a.max b ≠ .failed := by
  unfold KVPoll.max
  split
  · next hlt =>
    rintro rfl
    cases hlt
  · exact h

theorem eq_or_eq_of_max {a b c : KVPoll} (h : a.max b = c) : a = c ∨ b = c := by
  unfold KVPoll.max at h
  split at h
  · exact Or.inr h
  · exact Or.inl h

section Update

variable {requestStatus : Nat → Option KVPoll} {room : Nat} {status : KVPoll}

/-- A room that is present and has not failed. -/
def Running (requestStatus : Nat → Option KVPoll) (room : Nat) : Prop :=
  ∃ status, requestStatus room = some status ∧ status ≠ .failed

theorem updateStatus_of_ne {r : Nat} (h : r ≠ room) :
    updateStatus requestStatus room status r = requestStatus r := by
  cases hold : requestStatus room with
  | none =>
    simp only [updateStatus, hold]
    split
    · rfl
    · exact update_of_ne h _ _
  | some old =>
    simp only [updateStatus, hold]
    split
    · exact update_of_ne h _ _
    · exact update_of_ne h _ _

theorem updateStatus_failed (requestStatus : Nat → Option KVPoll) (room : Nat) :
    updateStatus requestStatus room .failed room = (requestStatus room).map fun _ => .failed := by
  unfold updateStatus
  cases h : requestStatus room with
  | none => simp [h]
  | some old => simp

theorem updateStatus_success (h : requestStatus room ≠ none) :
    updateStatus requestStatus room .success room = some .success := by
  obtain ⟨old, hold⟩ := ne_none_iff_exists'.mp h
  simp only [updateStatus, hold, reduceCtorEq, if_false, update_self]
  cases old <;> rfl

theorem of_updateStatus_eq_success {r : Nat}
    (h : updateStatus requestStatus room status r = some .success) :
    requestStatus r = some .success ∨ (r = room ∧ status = .success) := by
  by_cases heq : r = room
  · subst heq
    cases hold : requestStatus r with
    | none =>
      simp only [updateStatus, hold] at h
      split at h
      · rw [hold] at h
        cases h
      · rw [update_self] at h
        exact Or.inr ⟨rfl, Option.some.inj h⟩
    | some old =>
      simp only [updateStatus, hold] at h
      split at h
      · rw [update_self] at h
        cases h
      · rw [update_self] at h
        rcases eq_or_eq_of_max (Option.some.inj h) with heq | heq
        · exact Or.inl (congrArg some heq)
        · exact Or.inr ⟨rfl, heq⟩
  · rw [updateStatus_of_ne heq] at h
    exact Or.inl h

theorem allowed_failed (opens : Nat → Prop) (requestStatus : Nat → Option KVPoll) (room r : Nat) :
    Allowed (opens r) (requestStatus r) (updateStatus requestStatus room .failed r) := by
  by_cases heq : r = room
  · subst heq
    rw [updateStatus_failed]
    cases requestStatus r with
    | none => exact .same _
    | some old => exact .failed (Or.inl (by simp))
  · rw [updateStatus_of_ne heq]
    exact .same _

theorem allowed_raise (opens : Nat → Prop) (hstatus : status ≠ .failed)
    (hold : requestStatus room ≠ some .failed) (hopen : requestStatus room ≠ none ∨ opens room)
    (r : Nat) :
    Allowed (opens r) (requestStatus r) (updateStatus requestStatus room status r) := by
  by_cases heq : r = room
  · subst heq
    cases hsome : requestStatus r with
    | none =>
      rw [hsome] at hold hopen
      simp only [updateStatus, hsome, if_neg hstatus, update_self]
      exact .raised hstatus hold hopen
    | some old =>
      rw [hsome] at hold hopen
      simp only [updateStatus, hsome, if_neg hstatus, update_self]
      have hne : old ≠ .failed := by
        rintro rfl
        exact hold rfl
      exact .raised (max_ne_failed hne) hold hopen
  · rw [updateStatus_of_ne heq]
    exact .same _

theorem Running.raise {r : Nat} (h : Running requestStatus r) (hstatus : status ≠ .failed) :
    Running (updateStatus requestStatus room status) r := by
  by_cases heq : r = room
  · subst heq
    obtain ⟨old, hold, hne⟩ := h
    refine ⟨old.max status, ?_, max_ne_failed hne⟩
    simp [updateStatus, hold, hstatus]
  · obtain ⟨old, hold, hne⟩ := h
    exact ⟨old, by rw [updateStatus_of_ne heq, hold], hne⟩

theorem Running.of_ne {r : Nat} (h : Running requestStatus r) (hne : r ≠ room) :
    Running (updateStatus requestStatus room status) r := by
  obtain ⟨old, hold, hfailed⟩ := h
  exact ⟨old, by rw [updateStatus_of_ne hne, hold], hfailed⟩

theorem Running.ne_failed (h : Running requestStatus room) : requestStatus room ≠ some .failed := by
  obtain ⟨old, hold, hne⟩ := h
  rw [hold]
  exact fun heq => hne (Option.some.inj heq)

theorem Running.ne_none (h : Running requestStatus room) : requestStatus room ≠ none := by
  obtain ⟨old, hold, -⟩ := h
  rw [hold]
  simp

end Update

/-! ## Section 2: The prefill side -/

/-- Where a turn of the worker marks the room as failed: the destinations it has left after it. -/
def Worker.marksFailed (worker : Worker) (outcome : Outcome) : Option (List TransferInfo) :=
  match worker.rest with
  | [] => none
  | info :: rest =>
    if info.isDummy then none
    else match outcome with
      | .deadSession | .failed => some []
      | .deferred => none
      | .sent aux =>
        if worker.chunk.isLastChunk ∧ (worker.polls ++ [aux]).length = info.requiredDstInfoNum ∧
            (worker.polls ++ [aux]).all id = false then some rest
        else none

namespace PrefillManager

/-- A worker has destinations of the room left. -/
def Busy (m : PrefillManager) (w room : Nat) : Prop :=
  ∃ worker, m.workers w = some worker ∧ worker.chunk.room = room ∧ worker.rest ≠ []

/-- The event does not fail or clear a room while a worker has destinations of the room left, and
does not open a room that has failed. -/
def Undisturbed (m : PrefillManager) : PrefillEvent → Prop
  | .construct room kind =>
    m.requestStatus room ≠ some .failed ∧ (kind = .conflict → ∀ w, ¬ m.Busy w room)
  | .metadata room _ => m.requestStatus room ≠ some .failed
  | .abortMessage room | .timeout room | .abort room | .clear room => ∀ w, ¬ m.Busy w room
  | .next w outcome => ∀ worker ∈ m.workers w, ∀ left ∈ worker.marksFailed outcome,
      left = [] ∧ ∀ w', w' ≠ w → ¬ m.Busy w' worker.chunk.room
  | .send _ _ _ | .get _ | .finish _ => True

/-- A room that a worker has destinations of is running. -/
def Guarded (m : PrefillManager) : Prop := ∀ w room, m.Busy w room → Running m.requestStatus room

variable {m : PrefillManager} {room w : Nat}

theorem Guarded.fail (h : m.Guarded) (hfree : ∀ w, ¬ m.Busy w room) :
    (m.update room .failed).Guarded := by
  intro w r hbusy
  have hne : r ≠ room := by
    rintro rfl
    exact hfree w hbusy
  exact (h w r hbusy).of_ne hne

theorem Guarded.raise (h : m.Guarded) {status : KVPoll} (hstatus : status ≠ .failed) :
    (m.update room status).Guarded :=
  fun w r hbusy => (h w r hbusy).raise hstatus

theorem busy_setWorker {worker : Worker} {w' r : Nat}
    (h : (m.setWorker w (some worker)).Busy w' r) :
    (w' ≠ w ∧ m.Busy w' r) ∨ (w' = w ∧ worker.chunk.room = r ∧ worker.rest ≠ []) := by
  obtain ⟨other, hother, hroom, hrest⟩ := h
  by_cases heq : w' = w
  · subst heq
    simp only [setWorker, update_self, Option.some.injEq] at hother
    subst hother
    exact Or.inr ⟨rfl, hroom, hrest⟩
  · simp only [setWorker, update_of_ne heq] at hother
    exact Or.inl ⟨heq, other, hother, hroom, hrest⟩

theorem not_busy_setWorker_none {w' r : Nat} (h : (m.setWorker w none).Busy w' r) :
    m.Busy w' r := by
  obtain ⟨other, hother, hroom, hrest⟩ := h
  by_cases heq : w' = w
  · subst heq
    simp [setWorker] at hother
  · simp only [setWorker, update_of_ne heq] at hother
    exact ⟨other, hother, hroom, hrest⟩

/-- A step keeps the rooms of the workers running, and moves each room as allowed. -/
def Keeps (m m' : PrefillManager) (e : PrefillEvent) : Prop :=
  m'.Guarded ∧ ∀ r, Allowed (e.opens = some r) (m.requestStatus r) (m'.requestStatus r)

section

variable (h : m.Guarded)
include h

theorem keeps_construct {kind : SenderKind}
    (hsafe : m.Undisturbed (.construct room kind)) :
    Keeps m (m.construct room kind) (.construct room kind) := by
  obtain ⟨hold, hfree⟩ := hsafe
  cases kind with
  | plain =>
    exact ⟨h.raise (by decide),
      allowed_raise (fun r => some room = some r) (by decide) hold (Or.inr rfl)⟩
  | dummyCpRank =>
    exact ⟨h.raise (by decide),
      allowed_raise (fun r => some room = some r) (by decide) hold (Or.inr rfl)⟩
  | conflict =>
    refine ⟨(h.raise (by decide)).fail (hfree rfl), ?_⟩
    intro r
    simp only [construct, update]
    by_cases heq : r = room
    · subst heq
      rw [updateStatus_failed]
      cases updateStatus m.requestStatus r .bootstrapping r with
      | none => exact .cleared
      | some _ => exact .failed (Or.inr rfl)
    · rw [updateStatus_of_ne heq, updateStatus_of_ne heq]
      exact .same _

theorem keeps_metadata {info : TransferInfo}
    (hsafe : m.Undisturbed (.metadata room info)) :
    Keeps m (m.metadata room info) (.metadata room info) := by
  simp only [metadata]
  split
  · exact ⟨h.raise (by decide),
      allowed_raise (fun r => some room = some r) (by decide) hsafe (Or.inr rfl)⟩
  · exact ⟨h, fun r => .same _⟩

theorem keeps_fail (hfree : ∀ w, ¬ m.Busy w room) (e : PrefillEvent) :
    Keeps m (m.update room .failed) e :=
  ⟨h.fail hfree, allowed_failed (fun r => e.opens = some r) _ _⟩

theorem keeps_abortMessage (hsafe : m.Undisturbed (.abortMessage room)) :
    Keeps m (m.abortMessage room) (.abortMessage room) := by
  unfold abortMessage
  split
  · exact ⟨h, fun r => .same _⟩
  · split
    · exact ⟨h, fun r => .same _⟩
    · exact keeps_fail h hsafe _

theorem keeps_clear (hsafe : m.Undisturbed (.clear room)) :
    Keeps m (m.clear room) (.clear room) := by
  have hother : ∀ r, r ≠ room → (m.clear room).requestStatus r = m.requestStatus r := fun r hne =>
    update_of_ne hne _ _
  constructor
  · intro w r hbusy
    have hne : r ≠ room := by
      rintro rfl
      exact hsafe w hbusy
    obtain ⟨status, hstatus, hfailed⟩ := h w r hbusy
    exact ⟨status, by rw [hother r hne, hstatus], hfailed⟩
  · intro r
    by_cases heq : r = room
    · subst heq
      simp only [clear, update_self]
      exact .cleared
    · rw [hother r heq]
      exact .same _

theorem keeps_send (isLastChunk : Bool) :
    Keeps m (m.send room isLastChunk w) (.send room isLastChunk w) := by
  unfold send
  split <;> exact ⟨h, fun r => .same _⟩

theorem keeps_get {m' : PrefillManager} (hstep : m.get w = some m') :
    Keeps m m' (.get w) := by
  unfold get at hstep
  split at hstep
  · next chunk queue _ _ =>
    dsimp only at hstep
    split at hstep
    · cases hstep
      exact ⟨h, fun r => .same _⟩
    · cases hstep
      exact ⟨h, fun r => .same _⟩
    · next status hnotFailed hstatus =>
      cases hstep
      refine ⟨?_, fun r => .same _⟩
      intro w' r hbusy
      rcases busy_setWorker hbusy with ⟨-, hbusy⟩ | ⟨-, hroom, -⟩
      · exact h w' r hbusy
      · subst hroom
        refine ⟨status, hstatus, ?_⟩
        rintro rfl
        exact hnotFailed rfl
  · cases hstep

theorem keeps_finish {m' : PrefillManager} (hstep : m.finish w = some m') :
    Keeps m m' (.finish w) := by
  have hguarded : (m.setWorker w none).Guarded :=
    fun w' r hbusy => h w' r (not_busy_setWorker_none hbusy)
  unfold finish at hstep
  split at hstep
  · dsimp only at hstep
    split at hstep
    · cases hstep
      exact ⟨hguarded, fun r => .same _⟩
    · split at hstep
      · cases hstep
        exact ⟨hguarded, fun r => .same _⟩
      · cases hstep
        exact ⟨hguarded, fun r => .same _⟩
  · cases hstep

theorem keeps_next {m' : PrefillManager} {outcome : Outcome}
    (hsafe : m.Undisturbed (.next w outcome)) (hstep : m.next w outcome = some m') :
    Keeps m m' (.next w outcome) := by
  unfold next at hstep
  split at hstep
  case h_2 => cases hstep
  next chunk info rest polls deferred hworker =>
  have hrunning : Running m.requestStatus chunk.room := h w _ ⟨_, hworker, rfl, by simp⟩
  have hmarks := hsafe _ hworker
  -- the worker goes on with fewer destinations, and the room keeps running
  have hgo : ∀ m₁ : PrefillManager, m₁.workers = m.workers → m₁.Guarded → ∀ polls' deferred',
      (m₁.setWorker w (some ⟨chunk, rest, polls', deferred'⟩)).Guarded := by
    intro m₁ hsame hguarded polls' deferred' w' r hbusy
    rcases busy_setWorker hbusy with ⟨-, hbusy⟩ | ⟨-, rfl, -⟩
    · exact hguarded w' r hbusy
    · apply hguarded w
      exact ⟨⟨chunk, info :: rest, polls, deferred⟩, by rw [hsame, hworker], rfl, by simp⟩
  -- the worker has no destination left, and no other worker has the room
  have hstop : (∀ w', w' ≠ w → ¬ m.Busy w' chunk.room) → ∀ polls' deferred',
      ((m.update chunk.room .failed).setWorker w
        (some ⟨chunk, [], polls', deferred'⟩)).Guarded := by
    intro hothers polls' deferred' w' r hbusy
    rcases busy_setWorker hbusy with ⟨hne, hbusy⟩ | ⟨-, -, hrest⟩
    · have hroom : r ≠ chunk.room := by
        rintro rfl
        exact hothers w' hne hbusy
      exact (h w' r hbusy).of_ne hroom
    · exact absurd rfl hrest
  have hraise : ∀ status, status ≠ KVPoll.failed → ∀ r,
      Allowed ((PrefillEvent.next w outcome).opens = some r) (m.requestStatus r)
        (updateStatus m.requestStatus chunk.room status r) := fun status hstatus =>
    allowed_raise (fun r => (PrefillEvent.next w outcome).opens = some r) hstatus hrunning.ne_failed
      (Or.inl hrunning.ne_none)
  have hfail :=
    allowed_failed (fun r => (PrefillEvent.next w outcome).opens = some r) m.requestStatus
    chunk.room
  split at hstep
  · -- a destination that does not use this rank
    dsimp only at hstep
    split at hstep
    · cases hstep
      exact ⟨hgo (m.update chunk.room .success) rfl (h.raise (by decide)) _ _, hraise _ (by decide)⟩
    · cases hstep
      exact ⟨hgo m rfl h _ _, fun r => .same _⟩
  · next hreal =>
    simp only [Worker.marksFailed, hreal, Bool.false_eq_true, if_false] at hmarks
    cases outcome with
    | deadSession =>
      cases hstep
      exact ⟨hstop (hmarks _ rfl).2 _ _, hfail⟩
    | failed =>
      cases hstep
      exact ⟨hstop (hmarks _ rfl).2 _ _, hfail⟩
    | deferred =>
      cases hstep
      refine ⟨?_, fun r => .same _⟩
      intro w' r hbusy
      rcases busy_setWorker hbusy with ⟨-, hbusy⟩ | ⟨-, -, hrest⟩
      · exact h w' r hbusy
      · exact absurd rfl hrest
    | sent aux =>
      dsimp only at hstep
      split at hstep
      · next hlast =>
        split at hstep
        · next hcount =>
          cases hall : (polls ++ [aux]).all id with
          | true =>
            rw [hall] at hstep
            cases hstep
            exact ⟨hgo (m.update chunk.room .success) rfl (h.raise (by decide)) _ _,
              hraise _ (by decide)⟩
          | false =>
            rw [hall] at hstep
            obtain ⟨hrest, hothers⟩ := hmarks rest (by simp only [hlast, hcount, hall]; simp)
            subst hrest
            cases hstep
            exact ⟨hstop hothers _ _, hfail⟩
        · cases hstep
          exact ⟨hgo _ rfl h _ _, fun r => .same _⟩
      · cases hstep
        exact ⟨hgo _ rfl h _ _, fun r => .same _⟩

theorem keeps_step {m' : PrefillManager} {e : PrefillEvent} (hsafe : m.Undisturbed e)
    (hstep : m.step e = some m') : Keeps m m' e := by
  cases e with
  | construct room kind =>
    cases hstep
    exact keeps_construct h hsafe
  | metadata room info =>
    cases hstep
    exact keeps_metadata h hsafe
  | abortMessage room =>
    cases hstep
    exact keeps_abortMessage h hsafe
  | timeout room =>
    simp only [step] at hstep
    split at hstep
    · cases hstep
      exact keeps_fail h hsafe _
    · cases hstep
  | abort room =>
    cases hstep
    exact keeps_fail h hsafe _
  | clear room =>
    cases hstep
    exact keeps_clear h hsafe
  | send room isLastChunk w =>
    cases hstep
    exact keeps_send h isLastChunk
  | get w => exact keeps_get h hstep
  | next w outcome => exact keeps_next h hsafe hstep
  | finish w => exact keeps_finish h hstep

end

end PrefillManager

def PrefillInv (t : Traced PrefillManager) : Prop :=
  TraceInv PrefillManager.requestStatus t ∧ t.manager.Guarded

theorem prefill_inv_step {t t' : Traced PrefillManager} {e : PrefillEvent} (h : PrefillInv t)
    (hsafe : t.manager.Undisturbed e) (hstep : prefillStep t e = some t') : PrefillInv t' := by
  have hmanager : t.manager.step e = some t'.manager := by
    simp only [prefillStep, tracedStep, bind_eq_bind, bind_eq_some_iff] at hstep
    obtain ⟨m, hm, heq⟩ := hstep
    cases heq
    exact hm
  obtain ⟨hguarded, hmoves⟩ := PrefillManager.keeps_step h.2 hsafe hmanager
  exact ⟨h.1.move hstep hmoves, hguarded⟩

/-! ## Section 3: The decode side -/

namespace DecodeManager

variable {m : DecodeManager} {room : Nat}

/-- The event does not open a room that has failed, and is no `Success` message for one. -/
def Timely (m : DecodeManager) : DecodeEvent → Prop
  | .construct room => m.requestStatus room ≠ some .failed
  | .init room _ => m.requestStatus room ≠ some .failed
  | .statusMessage room status _ => status = .success → m.requestStatus room ≠ some .failed
  | _ => True

theorem loseNode_status (m : DecodeManager) (room r : Nat) :
    (m.loseNode room).requestStatus r = m.requestStatus r ∨
      m.requestStatus r ≠ none ∧ (m.loseNode room).requestStatus r = some .failed := by
  unfold loseNode
  split
  · exact Or.inl rfl
  · next status hstatus =>
    split
    · exact Or.inl rfl
    · by_cases heq : r = room
      · subst heq
        right
        simp only [update, updateStatus_failed, hstatus]
        simp
      · left
        exact updateStatus_of_ne heq

theorem foldl_loseNode_status (rooms : List Nat) : ∀ (m : DecodeManager) (r : Nat),
    (rooms.foldl loseNode m).requestStatus r = m.requestStatus r ∨
      m.requestStatus r ≠ none ∧ (rooms.foldl loseNode m).requestStatus r = some .failed := by
  induction rooms with
  | nil => exact fun m r => Or.inl rfl
  | cons room rooms ih =>
    intro m r
    have hfirst := loseNode_status m room r
    have hrest := ih (m.loseNode room) r
    simp only [List.foldl_cons]
    rcases hfirst with hfirst | ⟨hpresent, hfirst⟩
    · rw [hfirst] at hrest
      exact hrest
    · rcases hrest with hrest | ⟨-, hrest⟩
      · exact Or.inr ⟨hpresent, hrest.trans hfirst⟩
      · exact Or.inr ⟨hpresent, hrest⟩

theorem moves {m' : DecodeManager} {e : DecodeEvent} (hsafe : m.Timely e)
    (hstep : m.step e = some m') (r : Nat) : Allowed (e.opens = some r) (m.requestStatus r)
    (m'.requestStatus r) := by
  -- most steps can only fail a room
  have hfail : ∀ room, Allowed (e.opens = some r) (m.requestStatus r)
      (updateStatus m.requestStatus room .failed r) := fun room =>
    allowed_failed (fun r => e.opens = some r) m.requestStatus room r
  cases e with
  | construct room =>
    cases hstep
    exact allowed_raise (fun r => some room = some r) (by decide) hsafe (Or.inr rfl) r
  | init room outcome =>
    cases hstep
    cases outcome with
    | down => exact hfail room
    | noBootstrapInfo n => exact hfail room
    | ready n => exact allowed_raise (fun r => some room = some r) (by decide) hsafe (Or.inr rfl) r
  | metadataFailed room =>
    cases hstep
    exact hfail room
  | statusMessage room status prefillRank =>
    simp only [step, statusMessage] at hstep
    split at hstep
    · split at hstep
      · cases hstep
        exact .same _
      · next hpresent =>
        simp only [bind_eq_bind, bind_eq_some_iff] at hstep
        obtain ⟨expected, -, heq⟩ := hstep
        cases heq
        split
        · exact allowed_raise (fun r => none = some r) (by decide) (hsafe rfl) (Or.inl hpresent) r
        · exact .same _
    · cases hstep
      exact hfail room
    · cases hstep
      exact .same _
  | timeout room =>
    simp only [step] at hstep
    split at hstep
    · cases hstep
      exact hfail room
    · cases hstep
  | nodeFailure rooms =>
    cases hstep
    rcases foldl_loseNode_status rooms m r with heq | ⟨hpresent, heq⟩
    · rw [heq]
      exact .same _
    · rw [heq]
      exact .failed (Or.inl hpresent)
  | abort room =>
    cases hstep
    exact hfail room
  | clear room =>
    cases hstep
    simp only [clear]
    by_cases heq : r = room
    · subst heq
      rw [update_self]
      exact .cleared
    · rw [update_of_ne heq]
      exact .same _

end DecodeManager

theorem decode_inv_step {t t' : Traced DecodeManager} {e : DecodeEvent}
    (h : TraceInv DecodeManager.requestStatus t) (hsafe : t.manager.Timely e)
    (hstep : decodeStep t e = some t') : TraceInv DecodeManager.requestStatus t' := by
  have hmanager : t.manager.step e = some t'.manager := by
    simp only [decodeStep, tracedStep, bind_eq_bind, bind_eq_some_iff] at hstep
    obtain ⟨m, hm, heq⟩ := hstep
    cases heq
    exact hm
  exact h.move hstep (DecodeManager.moves hsafe hmanager)

/-! ## Section 4: Every run -/

/-- On both sides, in every run that meets the conditions, the status of a room is final. -/
theorem status_final (sends : List PrefillEvent) (receives : List DecodeEvent) :
    (∀ t, Lib.Along prefillStep (fun t e => t.manager.Undisturbed e) (.start .init) sends →
      Lib.run prefillStep (.start .init) sends = some t →
      StatusFinal PrefillManager.requestStatus t) ∧
    (∀ t, Lib.Along decodeStep (fun t e => t.manager.Timely e) (.start .init) receives →
      Lib.run decodeStep (.start .init) receives = some t →
      StatusFinal DecodeManager.requestStatus t) := by
  constructor
  · intro t hsafe hrun
    have hstart : PrefillInv (.start .init) :=
      ⟨traceInv_start fun _ => rfl, fun w r ⟨worker, hworker, _⟩ => by cases hworker⟩
    exact (Lib.invariant_of_run PrefillInv (fun _ _ _ h hP hstep =>
      prefill_inv_step h hP hstep) hstart
      hsafe hrun).1.statusFinal
  · intro t hsafe hrun
    exact (Lib.invariant_of_run _ (fun _ _ _ h hP hstep => decode_inv_step h hP hstep)
      (traceInv_start fun _ => rfl) hsafe hrun).statusFinal

/-- A decode rank that is the only destination. -/
def onlyInfo : TransferInfo := ⟨"session", 1, false⟩

/-- The last chunk of room 7 is being transferred. -/
def transferring : List PrefillEvent :=
  [.construct 7 .plain, .metadata 7 onlyInfo, .send 7 true 0, .get 0]

/-- The worker reports, and the sender is cleared afterwards; on the decode side a room fails and is
cleared. -/
theorem undisturbed_final :
    (∃ t, Lib.run prefillStep (.start .init)
      (transferring ++ [.next 0 (.sent true), .finish 0, .clear 7]) =
      some t ∧ StatusFinal PrefillManager.requestStatus t) ∧
    ∃ t, Lib.run decodeStep (.start .init)
    [.construct 7, .init 7 (.ready 1), .timeout 7, .clear 7] = some t ∧
    StatusFinal DecodeManager.requestStatus t := by
  constructor
  · refine ⟨_, rfl,
      (status_final (transferring ++ [.next 0 (.sent true), .finish 0, .clear 7]) []).1 _ ?_ rfl⟩
    refine ⟨⟨by decide, fun h => by cases h⟩,
      (by decide : some KVPoll.bootstrapping ≠ some .failed), trivial, trivial, ?_, trivial, ?_,
      trivial⟩
    · intro worker hworker left hleft
      cases hworker
      cases hleft
    · rintro w ⟨worker, hworker, -⟩
      by_cases hw : w = 0
      · subst hw
        cases hworker
      · -- no other worker has ever run
        obtain ⟨a, b, heq⟩ : ∃ a b : Option Worker,
          Function.update (Function.update (Function.update
            (fun _ : Nat => (none : Option Worker)) 0 a) 0 b) 0 none w = some worker :=
              ⟨_, _, hworker⟩
        rw [update_of_ne hw, update_of_ne hw, update_of_ne hw] at heq
        cases heq
  · refine ⟨_, rfl,
      (status_final [] [.construct 7, .init 7 (.ready 1), .timeout 7, .clear 7]).2 _ ?_ rfl⟩
    exact ⟨(by decide : (none : Option KVPoll) ≠ some .failed),
      (by decide : some KVPoll.bootstrapping ≠ some .failed), trivial, trivial, trivial⟩

/-- `ABORT` arrives, or the sender is cleared, before the worker reports. -/
theorem status_not_final :
    (¬ ∀ events t, Lib.run prefillStep (.start .init) events = some t →
      StatusFinal PrefillManager.requestStatus t) ∧
    (∃ t, Lib.run prefillStep (.start .init)
      (transferring ++ [.abortMessage 7, .next 0 (.sent true)]) =
      some t ∧ t.hasFailed 7 = true ∧ t.manager.requestStatus 7 = some .success) ∧
    (∃ t, Lib.run prefillStep (.start .init)
        (transferring ++ [.abort 7, .clear 7, .next 0 (.sent true)]) = some t ∧
      t.opened 7 = false ∧ t.manager.requestStatus 7 = some .success) ∧
    ∃ t, Lib.run decodeStep (.start .init) [.construct 7, .init 7 (.ready 1), .timeout 7,
        .statusMessage 7 .success 0] = some t ∧
      t.hasFailed 7 = true ∧ t.manager.requestStatus 7 = some .success := by
  have habort : ∃ t, Lib.run prefillStep (.start .init)
      (transferring ++ [.abortMessage 7, .next 0 (.sent true)]) = some t ∧ t.hasFailed 7 = true ∧
        t.manager.requestStatus 7 = some .success := ⟨_, rfl, rfl, rfl⟩
  refine ⟨?_, habort, ⟨_, rfl, rfl, rfl⟩, ⟨_, rfl, rfl, rfl⟩⟩
  intro hall
  obtain ⟨t, hrun, hfailed, hsuccess⟩ := habort
  exact (hall _ t hrun).final 7 hfailed hsuccess

end Sglang.Disaggregation.RoomStatus
