import Mathlib.Data.List.Count
import Mathlib.Tactic
import Sglang.Session.StreamingSession

/-!
# One Request in Flight

What `_inflight` says about the requests of a streaming session, over every order of the steps.

- `Exclusive`: the flag is set exactly while an accepted request is unfinished, and there is one at
  most,
- `Spared`: what the handling of a rejected request leaves to the session and to the other requests,
- `Undisturbed`: the steps at which the code keeps both,
- `exclusive_of_undisturbed`: over every run of such steps,
- `rejected_clears_flag`: the match of a rejected request clears the flag of the accepted one.
-/

namespace Sglang.Session

open List Option

/-! ## Section 1: What is to be shown -/

/-- `_inflight` is set exactly while an accepted request is unfinished, and no two are. -/
structure State.Exclusive (s : State) : Prop where
  flag : s.inflight = true ↔ ∃ r ∈ s.reqs, r.unfinished = true
  single : ∀ (i j : Nat) (ri rj : Req), s.reqs[i]? = some ri → s.reqs[j]? = some rj →
    ri.unfinished = true → rj.unfinished = true → i = j

def Req.refs (r : Req) : List Nat :=
    [r.originInputIds, r.originInputIdsUnpadded, r.fullUntruncatedFillIds]

/-- The flag, the slot and the history of the session stay, and so do the other requests with their
token arrays. -/
structure Spared (i : Nat) (s s' : State) : Prop where
  inflight : s'.inflight = s.inflight
  slot : s'.slot = s.slot
  reqNodes : s'.reqNodes = s.reqNodes
  committed : s'.committed = s.committed
  others : ∀ j r, j ≠ i → s.reqs[j]? = some r →
    s'.reqs[j]? = some r ∧ ∀ ref ∈ r.refs, s'.array ref = s.array ref

/-- The step creates, or is about, request `i`, which `create_req` rejects or has rejected. -/
def HandlesRejected (s : State) (e : Event) (i : Nat) : Prop :=
  match e with
  | .create _ recv => (s.abortMessage recv.sessionParams).isSome = true ∧ i = s.reqs.length
  | e => e.request = some i ∧ ∃ r, s.reqs[i]? = some r ∧ r.accepted = false

/-- What a step of a request may meet in the session. -/
def State.tolerates (s : State) (r : Req) : Event → Bool
  -- a rejected request that meets a slot clears the flag
  | .matchPrefix _ _ =>
    r.accepted || !r.session || !s.inflight || !(s.slot.any SessionSlot.isHoldingKv)
  -- an aborted one that is attached releases the slot and clears the flag
  | .finish _ | .abortChunked _ => r.accepted || !r.session || (!s.inflight && s.slot.isNone)
  -- a request that is dropped from the queue never clears the flag
  | .abortQueued _ => !r.unfinished
  -- the release of a running request counts as its finish
  | .retract _ abort => !r.session || (r.accepted && abort)
  | _ => true

def Undisturbed (s : State) (e : Event) : Prop :=
  ∀ r ∈ e.request.bind s.scheduled, s.tolerates r e = true

instance (s : State) : DecidablePred (Undisturbed s) :=
  fun e => inferInstanceAs (Decidable (∀ r ∈ e.request.bind s.scheduled, s.tolerates r e = true))

/-! ## Section 2: The invariant -/

/-- A rejected request that is still attached can only end as aborted. -/
def Req.Doomed (r : Req) : Prop :=
  r.finishedReason = none ∧ r.toFinish.isSome = true ∨ r.finishedReason.any FinishReason.isAbort =
    true

structure Accounted (s : State) : Prop where
  count : s.reqs.countP Req.unfinished = s.inflight.toNat
  doomed : ∀ r ∈ s.reqs, r.accepted = false → r.session = true → r.done = false → r.Doomed
  last : ∀ k, s.reqNodes = some k → ∃ r, s.reqs[k]? = some r ∧ r.accepted = true ∧ r.done = true
  bounded : ∀ r ∈ s.reqs, ∀ ref ∈ r.refs, ref < s.arrays.length
  apart : ∀ (i j : Nat) (ri rj : Req), i ≠ j → s.reqs[i]? = some ri → s.reqs[j]? = some rj →
    ri.accepted = false → ri.fullUntruncatedFillIds ∉ rj.refs

theorem accounted_init : Accounted State.init := by
  refine ⟨rfl, ?_, ?_, ?_, ?_⟩
  · intro r hr
    cases hr
  · intro k hk
    cases hk
  · intro r hr
    cases hr
  · intro i j ri rj _ hi
    simp [State.init] at hi

variable {s s' : State} {i : Nat} {r v : Req}

theorem countP_set_add (p : Req → Bool) (v : Req) {l : List Req} (hi : l[i]? = some r) :
    (l.set i v).countP p + (p r).toNat = l.countP p + (p v).toNat := by
  obtain ⟨hlt, hget⟩ := List.getElem?_eq_some_iff.mp hi
  rw [countP_set hlt, hget]
  by_cases hp : p r = true
  · have hpos : 0 < l.countP p := countP_pos_iff.mpr ⟨r, mem_of_getElem? hi, hp⟩
    rw [if_pos hp, hp]
    cases p v <;> simp <;> omega
  · rw [if_neg hp, Bool.eq_false_iff.mpr hp]
    cases p v <;> simp

theorem Accounted.exclusive (h : Accounted s) : s.Exclusive where
  flag := by
    rw [← countP_pos_iff, h.count]
    cases s.inflight
    · simp
    · simp
  single := by
    intro i j ri rj hi hj hri hrj
    by_contra hne
    -- without the one at `i` the one at `j` still counts
    have hset := countP_set_add Req.unfinished { ri with done := true } hi
    have hj' : (s.reqs.set i { ri with done := true })[j]? = some rj := by
      rw [getElem?_set_ne hne]
      exact hj
    have hpos : 0 < (s.reqs.set i { ri with done := true }).countP Req.unfinished :=
      countP_pos_iff.mpr ⟨rj, mem_of_getElem? hj', hrj⟩
    have hle : s.inflight.toNat ≤ 1 := Bool.toNat_le _
    have hgone : Req.unfinished { ri with done := true } = false := by simp [Req.unfinished]
    rw [h.count, hri, hgone] at hset
    simp only [Bool.toNat_true, Bool.toNat_false] at hset
    omega

/-- The step changes request `i` only, and the flag as the request changes. -/
structure Change (i : Nat) (r v : Req) (s s' : State) : Prop where
  reqs : s'.reqs = s.reqs.set i v
  flag : s'.inflight.toNat + r.unfinished.toNat = s.inflight.toNat + v.unfinished.toNat
  accepted : v.accepted = r.accepted
  doomed : v.accepted = false → v.session = true → v.done = false → v.Doomed
  last : ∀ k, s'.reqNodes = some k → s.reqNodes = some k ∧ k ≠ i ∨ k = i ∧ v.accepted = true ∧
    v.done = true
  arrays : s.arrays.length ≤ s'.arrays.length
  refs : ∀ ref ∈ v.refs, ref ∈ r.refs ∨ s.arrays.length ≤ ref ∧ ref < s'.arrays.length
  fill : v.fullUntruncatedFillIds = r.fullUntruncatedFillIds ∨
    s.arrays.length ≤ v.fullUntruncatedFillIds

theorem fill_of_refs (hrefs : v.refs = r.refs) : v.fullUntruncatedFillIds =
    r.fullUntruncatedFillIds := by
  simp only [Req.refs, List.cons.injEq] at hrefs
  exact hrefs.2.2.1

theorem Accounted.change (h : Accounted s) (hi : s.reqs[i]? = some r) (hc : Change i r v s s') :
    Accounted s' := by
  have hmem := mem_of_getElem? hi
  have hlt := (List.getElem?_eq_some_iff.mp hi).1
  have hself : s'.reqs[i]? = some v := by
    rw [hc.reqs, getElem?_set_self hlt]
  have hother : ∀ j, j ≠ i → s'.reqs[j]? = s.reqs[j]? := by
    intro j hne
    rw [hc.reqs, getElem?_set_ne (Ne.symm hne)]
  refine ⟨?_, ?_, ?_, ?_, ?_⟩
  · have hcount := countP_set_add Req.unfinished v hi
    have := hc.flag
    rw [h.count] at hcount
    rw [hc.reqs]
    omega
  · intro q hq
    rw [hc.reqs] at hq
    rcases mem_or_eq_of_mem_set hq with hq | rfl
    · exact h.doomed q hq
    · exact hc.doomed
  · intro k hk
    rcases hc.last k hk with ⟨hk, hne⟩ | ⟨rfl, haccepted, hdone⟩
    · obtain ⟨q, hq, haccepted, hdone⟩ := h.last k hk
      refine ⟨q, ?_, haccepted, hdone⟩
      rw [hother k hne]
      exact hq
    · exact ⟨v, hself, haccepted, hdone⟩
  · intro q hq ref href
    rw [hc.reqs] at hq
    have harrays := hc.arrays
    rcases mem_or_eq_of_mem_set hq with hq | rfl
    · have := h.bounded q hq ref href
      omega
    · rcases hc.refs ref href with hold | ⟨-, hnew⟩
      · have := h.bounded r hmem ref hold
        omega
      · exact hnew
  · intro j k rj rk hne hj hk hrejected hfill
    by_cases hji : j = i
    · subst hji
      rw [hself] at hj
      cases hj
      rw [hother k (Ne.symm hne)] at hk
      rcases hc.fill with hold | hnew
      · rw [hold] at hfill
        rw [hc.accepted] at hrejected
        exact h.apart j k r rk hne hi hk hrejected hfill
      · have := h.bounded rk (mem_of_getElem? hk) _ hfill
        omega
    · rw [hother j hji] at hj
      by_cases hki : k = i
      · subst hki
        rw [hself] at hk
        cases hk
        rcases hc.refs _ hfill with hold | ⟨hnew, -⟩
        · exact h.apart j k rj r hne hj hi hrejected hold
        · have := h.bounded rj (mem_of_getElem? hj) rj.fullUntruncatedFillIds (by simp [Req.refs])
          omega
      · rw [hother k hki] at hk
        exact h.apart j k rj rk hne hj hk hrejected hfill

/-! ## Section 3: What the cache steps change -/

namespace State

theorem freeKvAligned_eq (s : State) (pageSize : Nat) (row : Option Nat) (target stop : Nat) :
    ∃ freed, s.freeKvAligned pageSize row target stop = { s with freed := freed } := by
  unfold freeKvAligned
  split
  · exact ⟨s.freed, rfl⟩
  · dsimp only
    generalize (if pageSize > 1 then ceilAlign target pageSize else target) = start
    split
    · exact ⟨_, rfl⟩
    · exact ⟨s.freed, rfl⟩

theorem releaseSession_eq (s : State) : ∃ freed freeSlots unlocked, s.releaseSession =
    { s with slot := none, freed := freed, freeSlots := freeSlots, unlocked := unlocked } := by
  unfold releaseSession
  split
  · next hslot => exact ⟨s.freed, s.freeSlots, s.unlocked, by rw [← hslot]⟩
  · next slot _ =>
    cases slot.lastNode with
    | none =>
      dsimp only
      split
      · split
        · exact ⟨_, _, _, rfl⟩
        · exact ⟨_, _, _, rfl⟩
      · exact ⟨_, _, _, rfl⟩
    | some node =>
      dsimp only
      split
      · split
        · exact ⟨_, _, _, rfl⟩
        · exact ⟨_, _, _, rfl⟩
      · exact ⟨_, _, _, rfl⟩

theorem tryCacheFinishedReq_abort (pageSize : Nat) (s : State) (i : Nat) (r : Req)
    (hreason : r.finishedReason.any FinishReason.isAbort = true) :
    ∃ freed freeSlots unlocked, s.tryCacheFinishedReq pageSize i r =
      { s with
        inflight := false, slot := none, freed := freed, freeSlots := freeSlots
        unlocked := unlocked
        reqs := s.reqs.set i { r with reqPoolIdx := none } } := by
  unfold tryCacheFinishedReq
  rw [if_pos hreason]
  dsimp only
  obtain ⟨freed, freeSlots, unlocked, heq⟩ := releaseSession_eq { s with slot := _ }
  refine ⟨freed, freeSlots, unlocked, ?_⟩
  rw [heq]
  rfl

end State

/-- The fields that say what becomes of a request. -/
structure Alike (r v : Req) : Prop where
  accepted : v.accepted = r.accepted
  session : v.session = r.session
  done : v.done = r.done
  toFinish : v.toFinish = r.toFinish
  finishedReason : v.finishedReason = r.finishedReason
  originInputIds : v.originInputIds = r.originInputIds
  originInputIdsUnpadded : v.originInputIdsUnpadded = r.originInputIdsUnpadded
  fullUntruncatedFillIds : v.fullUntruncatedFillIds = r.fullUntruncatedFillIds

theorem Alike.refs (h : Alike r v) : v.refs = r.refs := by
  rw [Req.refs, Req.refs, h.originInputIds, h.originInputIdsUnpadded, h.fullUntruncatedFillIds]

theorem Alike.trans {q : Req} (h : Alike r q) (h' : Alike q v) : Alike r v where
  accepted := h'.accepted.trans h.accepted
  session := h'.session.trans h.session
  done := h'.done.trans h.done
  toFinish := h'.toFinish.trans h.toFinish
  finishedReason := h'.finishedReason.trans h.finishedReason
  originInputIds := h'.originInputIds.trans h.originInputIds
  originInputIdsUnpadded := h'.originInputIdsUnpadded.trans h.originInputIdsUnpadded
  fullUntruncatedFillIds := h'.fullUntruncatedFillIds.trans h.fullUntruncatedFillIds

namespace State

/-- The last request lets go of the session. -/
def detached (s : State) : List Req :=
  match s.reqNodes with
  | none => s.reqs
  | some prev => s.reqs.modify prev fun p => { p with session := false }

theorem finishReq_eq {i : Nat} (s : State) (r q : Req) (hlast : s.reqNodes ≠ some i) :
    ∃ committed, (s.setReq i r).finishReq i q =
      { s with
        inflight := false, reqNodes := some i, committed := committed, reqs :=
          s.detached.set i r } := by
  unfold finishReq detached setReq
  cases hnodes : s.reqNodes with
  | none => exact ⟨_, rfl⟩
  | some prev =>
    have hne : prev ≠ i := fun heq => hlast (heq ▸ hnodes)
    have hcomm : (s.reqs.set i r).modify prev (fun p => { p with session := false }) =
        (s.reqs.modify prev fun p => { p with session := false }).set i r := by
      apply ext_getElem?
      intro j
      simp only [getElem?_modify, getElem?_set, length_modify]
      by_cases hj : i = j
      · subst hj
        simp [hne]
      · simp [hj]
    dsimp only
    rw [hcomm]
    exact ⟨_, rfl⟩

theorem trimOvershoot_spec {pageSize finishedLen : Nat} {s t : State} {r q : Req}
    (htrim : s.trimOvershoot pageSize r finishedLen = (t, q)) :
    (∃ freed, t = { s with freed := freed }) ∧ Alike r q := by
  obtain ⟨rfl, rfl⟩ := Prod.mk.inj htrim
  exact ⟨freeKvAligned_eq .., ⟨rfl, rfl, rfl, rfl, rfl, rfl, rfl, rfl⟩⟩

theorem saveFromReq_spec {slot slot' : SessionSlot} {isFirst : Bool} {r q : Req}
    (hsave : slot.saveFromReq r isFirst = (slot', q)) : Alike r q := by
  obtain ⟨-, rfl⟩ := Prod.mk.inj hsave
  exact ⟨rfl, rfl, rfl, rfl, rfl, rfl, rfl, rfl⟩

theorem tryCacheFinishedReq_save (pageSize : Nat) (s : State) (i : Nat) (r : Req)
    (hlast : s.reqNodes ≠ some i) (hreason : r.finishedReason.any FinishReason.isAbort = false) :
    ∃ v slot freed committed, Alike r v ∧ s.tryCacheFinishedReq pageSize i r =
      { s with
        inflight := false, slot := slot, freed := freed, reqNodes := some i, committed := committed
        reqs := s.detached.set i v } := by
  unfold tryCacheFinishedReq
  rw [if_neg (by rw [hreason]; simp)]
  dsimp only
  rcases htrim : s.trimOvershoot pageSize r (r.finishedLen.getD r.outputIds.length) with ⟨t, q⟩
  obtain ⟨⟨freed, rfl⟩, hq⟩ := trimOvershoot_spec htrim
  dsimp only
  rcases hsave : (s.slot.getD {}).saveFromReq q s.slot.isNone with ⟨slot, v⟩
  have hv := saveFromReq_spec hsave
  dsimp only
  obtain ⟨committed, heq⟩ :=
    finishReq_eq (i := i) { s with freed := freed, slot := some _ } v v hlast
  exact ⟨v, _, freed, committed, hq.trans hv, heq⟩

/-- A match leaves the request to the inner cache, detaches it, or restores the slot to it. -/
theorem tryMatchPrefix_cases {pageSize keyLen i : Nat} {s s' : State} {r : Req}
    (hmatch : s.tryMatchPrefix pageSize i r keyLen = some s') :
    s' = s ∨
      r.session = true ∧ s.slot.any SessionSlot.isHoldingKv = true ∧ r.toFinish.isSome = true ∧
        s' = s.abortReq.setReq i { r with session := false } ∨
      r.session = true ∧ s.slot.any SessionSlot.isHoldingKv = true ∧ r.toFinish = none ∧
        ∃ slot v freed, Alike r v ∧ s' = { s with slot := slot, freed := freed }.setReq i v := by
  unfold tryMatchPrefix findActiveSlot at hmatch
  by_cases hattached : r.session = false
  · rw [if_pos hattached] at hmatch
    cases hmatch
    exact Or.inl rfl
  rw [if_neg hattached] at hmatch
  rw [Bool.not_eq_false] at hattached
  cases hslot : s.slot with
  | none =>
    rw [hslot] at hmatch
    cases hmatch
    exact Or.inl rfl
  | some slot =>
    rw [hslot] at hmatch
    dsimp only at hmatch
    by_cases hholding : slot.isHoldingKv = false
    · rw [if_pos hholding] at hmatch
      cases hmatch
      exact Or.inl rfl
    rw [if_neg hholding] at hmatch
    rw [Bool.not_eq_false] at hholding
    right
    by_cases hfinish : r.toFinish.isSome = true
    · rw [if_pos hfinish] at hmatch
      cases hmatch
      exact Or.inl ⟨hattached, hholding, hfinish, rfl⟩
    · rw [if_neg hfinish] at hmatch
      dsimp only at hmatch
      split at hmatch
      · cases hmatch
      · cases hmatch
        refine Or.inr ⟨hattached, hholding, by simpa using hfinish, ?_⟩
        unfold freeTail
        obtain ⟨freed, heq⟩ := freeKvAligned_eq s pageSize slot.reqPoolIdx
          (min (slot.restoreToReq r).kvCommittedLen keyLen) slot.kvAllocatedLen
        rw [heq]
        refine ⟨_, _, freed, ?_, rfl⟩
        exact ⟨rfl, rfl, rfl, rfl, rfl, rfl, rfl, rfl⟩

/-! ## Section 4: Token arrays -/

/-- Only the arrays differ, and none is lost. -/
def Grown (s t : State) : Prop := ∃ arrays, t =
    { s with arrays := arrays } ∧ s.arrays.length ≤ arrays.length

def Extended (s t : State) : Prop := ∃ more, t = { s with arrays := s.arrays ++ more }

variable {s t u : State}

theorem Grown.refl (s : State) : Grown s s := ⟨s.arrays, rfl, le_refl _⟩

theorem Grown.trans (h : Grown s t) (h' : Grown t u) : Grown s u := by
  obtain ⟨_, rfl, hle⟩ := h
  obtain ⟨arrays, rfl, hle'⟩ := h'
  exact ⟨arrays, rfl, le_trans hle hle'⟩

theorem Grown.length_le (h : Grown s t) : s.arrays.length ≤ t.arrays.length := by
  obtain ⟨_, rfl, hle⟩ := h
  exact hle

theorem Extended.refl (s : State) : Extended s s := ⟨[], by rw [append_nil]⟩

theorem Extended.trans (h : Extended s t) (h' : Extended t u) : Extended s u := by
  obtain ⟨more, rfl⟩ := h
  obtain ⟨more', rfl⟩ := h'
  exact ⟨more ++ more', by rw [← append_assoc]⟩

theorem Extended.grown (h : Extended s t) : Grown s t := by
  obtain ⟨more, rfl⟩ := h
  exact ⟨_, rfl, by simp⟩

theorem Extended.array (h : Extended s t) {ref : Nat} (hlt : ref < s.arrays.length) :
    t.array ref = s.array ref := by
  obtain ⟨more, rfl⟩ := h
  simp only [State.array, getD_eq_getElem?_getD, getElem?_append_left hlt]

theorem newArray_spec {tokens : List Nat} {ref : Nat} (h : s.newArray tokens = (t, ref)) :
    Extended s t ∧ ref = s.arrays.length ∧ ref < t.arrays.length := by
  obtain ⟨rfl, rfl⟩ := Prod.mk.inj h
  exact ⟨⟨_, rfl⟩, rfl, by simp⟩

theorem grown_truncateArray (s : State) (ref len : Nat) : Grown s (s.truncateArray ref len) :=
  ⟨_, rfl, by simp⟩

theorem grown_extendArray (s : State) (ref : Nat) (tokens : List Nat) : Grown s
    (s.extendArray ref tokens) :=
  ⟨_, rfl, by simp⟩

theorem carryFill_spec (s : State) (lens : CommittedLens) (last : Req) (outTail new : List Nat) :
    Grown s (s.carryFill lens last outTail new).1 ∧
      ∀ ref ∈ (s.carryFill lens last outTail new).2, ref ∈ last.refs := by
  simp only [carryFill]
  split
  · exact ⟨Grown.refl _, by simp⟩
  · split
    · exact ⟨(grown_truncateArray ..).trans (grown_extendArray ..), by simp [Req.refs]⟩
    · exact ⟨grown_truncateArray .., by simp⟩

/-- `q` is new, and its arrays are those given or new ones. -/
structure Fresh (s t : State) (known : List Nat) (q : Req) : Prop where
  session : q.session = true
  done : q.done = false
  refs : ∀ ref ∈ q.refs, ref ∈ known ∨ s.arrays.length ≤ ref ∧ ref < t.arrays.length

theorem newReq_spec {inputIds unpadded maxNewTokens : Nat} {fill : Option Nat} {accepted : Bool}
    {q : Req} (h : s.newReq inputIds unpadded fill maxNewTokens accepted = (t, q)) :
    Extended s t ∧ Fresh s t ([inputIds, unpadded] ++ fill.toList) q ∧ q.accepted = accepted ∧
      q.finishedReason = none ∧ (fill = none → s.arrays.length ≤ q.fullUntruncatedFillIds) := by
  unfold newReq at h
  cases fill with
  | none =>
    obtain ⟨rfl, rfl⟩ := Prod.mk.inj h
    refine ⟨⟨_, rfl⟩, ⟨rfl, rfl, ?_⟩, rfl, rfl, fun _ => ?_⟩
    · intro ref href
      simp only [Req.refs, mem_cons, not_mem_nil, or_false] at href
      rcases href with rfl | rfl | rfl
      · left
        simp
      · left
        split <;> simp
      · right
        simp
    · simp
  | some fill =>
    obtain ⟨rfl, rfl⟩ := Prod.mk.inj h
    refine ⟨Extended.refl _, ⟨rfl, rfl, ?_⟩, rfl, rfl, fun hnone => ?_⟩
    · intro ref href
      simp only [Req.refs, mem_cons, not_mem_nil, or_false] at href
      left
      rcases href with rfl | rfl | rfl
      · simp
      · split <;> simp
      · simp
    · cases hnone

theorem shareTokenArrays_spec {lens : CommittedLens} {last : Req} {new : List Nat}
    {inputIds unpadded : Nat} {fill : Option Nat}
    (h : s.shareTokenArrays lens last new = (t, inputIds, unpadded, fill)) :
    Grown s t ∧ inputIds ∈ last.refs ∧ unpadded ∈ last.refs ∧ ∀ ref ∈ fill, ref ∈ last.refs := by
  simp only [shareTokenArrays, Prod.mk.injEq] at h
  obtain ⟨hstate, rfl, rfl, rfl⟩ := h
  refine ⟨?_, by simp [Req.refs], by simp [Req.refs], (carryFill_spec ..).2⟩
  rw [← hstate]
  by_cases heq : last.originInputIdsUnpadded = last.originInputIds
  · simp only [if_pos heq]
    exact ((grown_truncateArray ..).trans (carryFill_spec ..).1).trans (grown_extendArray ..)
  · simp only [if_neg heq]
    exact ((((grown_truncateArray ..).trans (grown_truncateArray ..)).trans
      (carryFill_spec ..).1).trans
      (grown_extendArray ..)).trans (grown_extendArray ..)

theorem concatTokenArrays_spec {last : Req} {new : List Nat} {inputIds unpadded : Nat}
    (h : s.concatTokenArrays last new = (t, inputIds, unpadded)) :
    Extended s t ∧ (s.arrays.length ≤ inputIds ∧ inputIds < t.arrays.length) ∧
      (s.arrays.length ≤ unpadded ∧ unpadded < t.arrays.length) := by
  simp only [concatTokenArrays, newArray, Prod.mk.injEq] at h
  obtain ⟨hstate, rfl, rfl⟩ := h
  rw [← hstate]
  refine ⟨⟨[_, _], by simp only [append_assoc]; rfl⟩, ?_, ?_⟩
  · simp
  · simp

theorem setFinishWithAbort_spec {message : String} (h : s.setFinishWithAbort r message = (t, v)) :
    Extended s t ∧ v = { r with originInputIds := s.arrays.length, toFinish := some message } ∧
      t.arrays.length = s.arrays.length + 1 := by
  simp only [setFinishWithAbort, newArray, Prod.mk.injEq] at h
  obtain ⟨hstate, rfl⟩ := h
  rw [← hstate]
  exact ⟨⟨_, rfl⟩, rfl, by simp⟩

end State

/-! ## Section 5: Every step keeps the invariant -/

open State

/-- A new request whose arrays are its own, or those of an accepted one. -/
theorem Accounted.append (h : Accounted s) (hgrown : Grown s s') {q : Req} {known : List Nat}
    (hfresh : Fresh s s' known q) (inflight : Bool)
    (hflag : inflight.toNat = s.inflight.toNat + q.accepted.toNat)
    (hknown : known = [] ∨ ∃ (k : Nat) (p : Req), s.reqs[k]? = some p ∧ p.accepted = true ∧
      known ⊆ p.refs)
    (hrejected : q.accepted = false → q.Doomed ∧ s.arrays.length ≤ q.fullUntruncatedFillIds) :
    Accounted { s' with reqs := s'.reqs ++ [q], inflight := inflight } := by
  obtain ⟨arrays, rfl, hle⟩ := hgrown
  have hunfinished : q.unfinished = q.accepted := by
    simp [Req.unfinished, hfresh.session, hfresh.done]
  -- a known array belongs to an accepted request, so no rejected one fills it
  have hapart : ∀ ref ∈ q.refs, ∀ (i : Nat) (p : Req), s.reqs[i]? = some p → p.accepted = false →
      p.fullUntruncatedFillIds ≠ ref := by
    rintro ref href i p hp haccepted rfl
    rcases hfresh.refs _ href with hmem | ⟨hnew, -⟩
    · rcases hknown with rfl | ⟨k, a, hk, hacc, hsub⟩
      · cases hmem
      · have hne : i ≠ k := by
          rintro rfl
          rw [hp] at hk
          cases hk
          rw [haccepted] at hacc
          cases hacc
        exact h.apart i k p a hne hp hk haccepted (hsub hmem)
    · have := h.bounded p (mem_of_getElem? hp) p.fullUntruncatedFillIds (by simp [Req.refs])
      omega
  have hget : ∀ (j : Nat) (p : Req), (s.reqs ++ [q])[j]? = some p →
      s.reqs[j]? = some p ∨ j = s.reqs.length ∧ p = q := by
    intro j p hj
    rw [getElem?_append] at hj
    split at hj
    · exact Or.inl hj
    · next hge =>
      obtain ⟨hlt, hp⟩ := List.getElem?_eq_some_iff.mp hj
      simp only [length_singleton] at hlt
      refine Or.inr ⟨by omega, ?_⟩
      rw [← hp]
      simp
  refine ⟨?_, ?_, ?_, ?_, ?_⟩
  · rw [countP_append, h.count, countP_singleton, hunfinished, hflag]
    cases q.accepted <;> simp
  · intro p hp
    rcases mem_append.mp hp with hp | hp
    · exact h.doomed p hp
    · obtain rfl := mem_singleton.mp hp
      exact fun haccepted _ _ => (hrejected haccepted).1
  · intro k hk
    obtain ⟨p, hp, hacc, hdone⟩ := h.last k hk
    refine ⟨p, ?_, hacc, hdone⟩
    rw [getElem?_append_left (List.getElem?_eq_some_iff.mp hp).1]
    exact hp
  · intro p hp ref href
    rcases mem_append.mp hp with hp | hp
    · exact lt_of_lt_of_le (h.bounded p hp ref href) hle
    · obtain rfl := mem_singleton.mp hp
      rcases hfresh.refs ref href with hmem | ⟨-, hlt⟩
      · rcases hknown with rfl | ⟨k, a, hk, -, hsub⟩
        · cases hmem
        · exact lt_of_lt_of_le (h.bounded a (mem_of_getElem? hk) ref (hsub hmem)) hle
      · exact hlt
  · intro i j ri rj hne hi hj haccepted hmem
    rcases hget i ri hi with hold | ⟨hlen, rfl⟩
    · rcases hget j rj hj with hold' | ⟨-, rfl⟩
      · exact h.apart i j ri rj hne hold hold' haccepted hmem
      · exact hapart _ hmem i ri hold haccepted rfl
    · rcases hget j rj hj with hold' | ⟨hlen', -⟩
      · have := h.bounded rj (mem_of_getElem? hold') _ hmem
        have := (hrejected haccepted).2
        omega
      · exact hne (hlen.trans hlen'.symm)

theorem createReq_rejected (bosTokenId : Option Nat) {recv : RecvReq}
    (hmessage : (s.abortMessage recv.sessionParams).isSome = true) :
    ∃ t q, Extended s t ∧ Fresh s t [] q ∧ q.accepted = false ∧ q.Doomed ∧
      s.arrays.length ≤ q.fullUntruncatedFillIds ∧
      s.createReq bosTokenId recv = { t with reqs := t.reqs ++ [q] } := by
  obtain ⟨message, hmessage⟩ := isSome_iff_exists.mp hmessage
  unfold createReq
  rw [hmessage]
  dsimp only
  rcases hnew : s.newArray recv.inputIds with ⟨t, inputIds⟩
  obtain ⟨hext, hinput, hlt⟩ := newArray_spec hnew
  dsimp only
  rcases hreq : t.newReq inputIds inputIds none recv.maxNewTokens false with ⟨t', q⟩
  obtain ⟨hext', hfresh, haccepted, hreason, hfill⟩ := newReq_spec hreq
  dsimp only
  rcases hfinish : t'.setFinishWithAbort q message with ⟨u, q'⟩
  obtain ⟨hext'', rfl, hlen⟩ := setFinishWithAbort_spec hfinish
  have hle := hext.grown.length_le
  have hle' := hext'.grown.length_le
  refine ⟨u, { q with originInputIds := t'.arrays.length, toFinish := some message },
    (hext.trans hext').trans hext'', ⟨hfresh.session, hfresh.done, ?_⟩, haccepted,
    Or.inl ⟨hreason, rfl⟩, le_trans hle (hfill rfl), rfl⟩
  intro ref href
  right
  simp only [Req.refs, mem_cons, not_mem_nil, or_false] at href
  rcases href with rfl | rfl | rfl
  · omega
  · rcases hfresh.refs q.originInputIdsUnpadded (by simp [Req.refs]) with hmem | ⟨hge, hlt'⟩
    · have : q.originInputIdsUnpadded = inputIds := by simpa using hmem
      omega
    · omega
  · rcases hfresh.refs q.fullUntruncatedFillIds (by simp [Req.refs]) with hmem | ⟨hge, hlt'⟩
    · have : q.fullUntruncatedFillIds = inputIds := by simpa using hmem
      omega
    · omega

theorem createReq_accepted (h : Accounted s) (bosTokenId : Option Nat) {recv : RecvReq}
    (hmessage : s.abortMessage recv.sessionParams = none) :
    ∃ t q known, Grown s t ∧ Fresh s t known q ∧ q.accepted = true ∧
      (known = [] ∨ ∃ (k : Nat) (p : Req), s.reqs[k]? = some p ∧ p.accepted = true ∧
        known ⊆ p.refs) ∧
      s.createReq bosTokenId recv = { t with reqs := t.reqs ++ [q], inflight := true } := by
  unfold createReq
  rw [hmessage]
  dsimp only
  split
  · -- no request to build on: the arrays are new
    rcases hnew : s.newArray recv.inputIds with ⟨t, inputIds⟩
    obtain ⟨hext, hinput, hlt⟩ := newArray_spec hnew
    dsimp only
    rcases hreq : t.newReq inputIds inputIds none recv.maxNewTokens true with ⟨u, q⟩
    obtain ⟨hext', hfresh, haccepted, -, -⟩ := newReq_spec hreq
    have hle := hext.grown.length_le
    have hle' := hext'.grown.length_le
    refine ⟨u, q, [], (hext.trans hext').grown, ⟨hfresh.session, hfresh.done, ?_⟩, haccepted,
      Or.inl rfl, rfl⟩
    intro ref href
    right
    rcases hfresh.refs ref href with hmem | ⟨hge, hlt'⟩
    · have : ref = inputIds := by simpa using hmem
      omega
    · omega
  · -- the arrays are shared with the last request, or concatenated
    next last hnodes =>
    obtain ⟨k, hk, hlast⟩ := bind_eq_some_iff.mp hnodes
    obtain ⟨p, hp, hacc, -⟩ := h.last k hk
    rw [hlast] at hp
    cases hp
    split
    · next lens _ =>
      rcases hshare : s.shareTokenArrays lens last
          (stripBosToken bosTokenId recv.inputIds) with ⟨t, inputIds, unpadded, fill⟩
      obtain ⟨hgrown, hinput, hunpadded, hfill⟩ := shareTokenArrays_spec hshare
      dsimp only
      rcases hreq : t.newReq inputIds unpadded fill recv.maxNewTokens true with ⟨u, q⟩
      obtain ⟨hext', hfresh, haccepted, -, -⟩ := newReq_spec hreq
      have hle := hgrown.length_le
      refine ⟨u, q, [inputIds, unpadded] ++ fill.toList, hgrown.trans hext'.grown,
        ⟨hfresh.session, hfresh.done, ?_⟩, haccepted, Or.inr ⟨k, last, hlast, hacc, ?_⟩, rfl⟩
      · intro ref href
        rcases hfresh.refs ref href with hmem | ⟨hge, hlt'⟩
        · exact Or.inl hmem
        · exact Or.inr ⟨by omega, hlt'⟩
      · intro ref href
        simp only [cons_append, nil_append, mem_cons, mem_toList] at href
        rcases href with rfl | rfl | href
        · exact hinput
        · exact hunpadded
        · exact hfill ref href
    · rcases hconcat : s.concatTokenArrays last
          (stripBosToken bosTokenId recv.inputIds) with ⟨t, inputIds, unpadded⟩
      obtain ⟨hext, hinput, hunpadded⟩ := concatTokenArrays_spec hconcat
      dsimp only
      rcases hreq : t.newReq inputIds unpadded none recv.maxNewTokens true with ⟨u, q⟩
      obtain ⟨hext', hfresh, haccepted, -, -⟩ := newReq_spec hreq
      have hle := hext.grown.length_le
      have hle' := hext'.grown.length_le
      refine ⟨u, q, [], (hext.trans hext').grown, ⟨hfresh.session, hfresh.done, ?_⟩, haccepted,
        Or.inl rfl, rfl⟩
      intro ref href
      right
      rcases hfresh.refs ref href with hmem | ⟨hge, hlt'⟩
      · simp only [toList_none, append_nil, mem_cons, not_mem_nil, or_false] at hmem
        rcases hmem with rfl | rfl <;> omega
      · omega

theorem Accounted.create (h : Accounted s) (bosTokenId : Option Nat) (recv : RecvReq) :
    Accounted (s.createReq bosTokenId recv) := by
  cases hmessage : s.abortMessage recv.sessionParams with
  | some message =>
    obtain ⟨t, q, hext, hfresh, haccepted, hdoomed, hfill, heq⟩ :=
      createReq_rejected bosTokenId (isSome_iff_exists.mpr ⟨message, hmessage⟩)
    rw [heq]
    have happend := h.append hext.grown hfresh s.inflight (by rw [haccepted]; rfl) (Or.inl rfl)
      fun _ => ⟨hdoomed, hfill⟩
    obtain ⟨more, rfl⟩ := hext
    exact happend
  | none =>
    obtain ⟨t, q, known, hgrown, hfresh, haccepted, hknown, heq⟩ :=
      createReq_accepted h bosTokenId hmessage
    rw [heq]
    apply h.append hgrown hfresh true
    · -- a call is accepted only while the flag is not set
      have hclear : s.inflight = false := by
        unfold abortMessage at hmessage
        split at hmessage
        · cases hmessage
        · next hnot => exact Bool.eq_false_iff.mpr hnot
      rw [hclear, haccepted]
      rfl
    · exact hknown
    · intro hrejected
      rw [haccepted] at hrejected
      cases hrejected

theorem Accounted.grown (h : Accounted s) (hgrown : Grown s s') : Accounted s' := by
  obtain ⟨arrays, rfl, hle⟩ := hgrown
  exact ⟨h.count, h.doomed, h.last, fun r hr ref href =>
    lt_of_lt_of_le (h.bounded r hr ref href) hle, h.apart⟩

theorem Accounted.inflight_of_unfinished (h : Accounted s) (hi : s.reqs[i]? = some r)
    (hr : r.unfinished = true) : s.inflight = true := by
  have hpos : 0 < s.reqs.countP Req.unfinished :=
    countP_pos_iff.mpr ⟨r, mem_of_getElem? hi, hr⟩
  rw [h.count] at hpos
  cases hflag : s.inflight
  · rw [hflag] at hpos
    simp at hpos
  · rfl

theorem Accounted.reqNodes_ne (h : Accounted s) (hi : s.reqs[i]? = some r)
    (hopen : r.done = false) :
    s.reqNodes ≠ some i := by
  intro hnodes
  obtain ⟨q, hq, -, hdone⟩ := h.last i hnodes
  rw [hi] at hq
  cases hq
  rw [hopen] at hdone
  cases hdone

theorem Accounted.detached (h : Accounted s) : Accounted { s with reqs := s.detached } := by
  unfold State.detached
  cases hnodes : s.reqNodes with
  | none =>
    dsimp only
    rw [← hnodes]
    exact h
  | some prev =>
    obtain ⟨p, hp, haccepted, hdone⟩ := h.last prev hnodes
    have hset : s.reqs.modify prev (fun p => { p with session := false }) =
        s.reqs.set prev { p with session := false } := by
      rw [modify_eq_set_getElem?, hp]
      rfl
    apply h.change hp (v := { p with session := false })
    refine ⟨hset, ?_, rfl, ?_, ?_, le_refl _, fun ref href => Or.inl href, Or.inl rfl⟩
    · simp [Req.unfinished, hdone]
    · intro _ hsession
      cases hsession
    · intro k hk
      cases hk
      exact Or.inr ⟨rfl, haccepted, hdone⟩

theorem modify_set_self {l : List Req} (i : Nat) (r : Req) (f : Req → Req) :
    (l.set i r).modify i f = l.set i (f r) := by
  apply ext_getElem?
  intro j
  simp only [getElem?_modify, getElem?_set]
  split
  · split <;> simp [*]
  · simp [*]

theorem updateFinishState_spec (r : Req) (finishedLen : Option Nat) :
    (r.updateFinishState finishedLen).accepted = r.accepted ∧
      (r.updateFinishState finishedLen).session = r.session ∧
      (r.updateFinishState finishedLen).done = r.done ∧
      (r.updateFinishState finishedLen).refs = r.refs ∧
      (r.Doomed → (r.updateFinishState finishedLen).Doomed) := by
  unfold Req.updateFinishState
  split
  · exact ⟨rfl, rfl, rfl, rfl, fun hdoomed => hdoomed⟩
  · next hreason =>
    split
    · exact ⟨rfl, rfl, rfl, rfl, fun _ => Or.inr rfl⟩
    · next hfinish =>
      refine ⟨rfl, rfl, rfl, rfl, fun hdoomed => ?_⟩
      rcases hdoomed with ⟨-, hsome⟩ | hany
      · rw [hfinish] at hsome
        cases hsome
      · rw [show r.finishedReason = none by simpa using hreason] at hany
        cases hany

theorem pickForRetract_spec (r : Req) (abort : Bool) :
    ((r.pickForRetract abort).accepted = r.accepted ∧ (r.pickForRetract abort).session = r.session ∧
      (r.pickForRetract abort).refs = r.refs) ∧
      (r.pickForRetract abort).finishedReason = r.finishedReason := by
  cases abort with
  | true => exact ⟨⟨rfl, rfl, rfl⟩, rfl⟩
  | false => exact ⟨⟨rfl, rfl, rfl⟩, rfl⟩

section Steps

variable (h : Accounted s) (hi : s.reqs[i]? = some r) (hopen : r.done = false)
include h hi hopen

theorem Accounted.last_kept {P : Nat → Prop} (hnodes : s'.reqNodes = s.reqNodes) (k : Nat)
    (hk : s'.reqNodes = some k) : s.reqNodes = some k ∧ k ≠ i ∨ P k := by
  rw [hnodes] at hk
  refine Or.inl ⟨hk, ?_⟩
  rintro rfl
  exact h.reqNodes_ne hi hopen hk

theorem Accounted.plain {t : State} (hgrown : Grown s t) (haccepted : v.accepted = r.accepted)
    (hsession : v.session = r.session) (hdone : v.done = r.done) (hdoomed : r.Doomed → v.Doomed)
    (hrefs : ∀ ref ∈ v.refs, ref ∈ r.refs ∨ s.arrays.length ≤ ref ∧ ref < t.arrays.length)
    (hfill : v.fullUntruncatedFillIds = r.fullUntruncatedFillIds ∨
      s.arrays.length ≤ v.fullUntruncatedFillIds) : Accounted (t.setReq i v) := by
  obtain ⟨arrays, rfl, hle⟩ := hgrown
  apply h.change hi (v := v)
  refine ⟨rfl, ?_, haccepted, ?_, h.last_kept hi hopen rfl, hle, hrefs, hfill⟩
  · have : v.unfinished = r.unfinished := by
      rw [Req.unfinished, Req.unfinished, haccepted, hsession, hdone]
    rw [this]
    rfl
  · intro hrejected hattached hopen'
    rw [haccepted] at hrejected
    rw [hsession] at hattached
    exact hdoomed (h.doomed r (mem_of_getElem? hi) hrejected hattached hopen)

/-- The flag is cleared, and the request is no longer unfinished. -/
theorem Accounted.clear (hattached : r.session = true)
    (hown : r.accepted = true ∨ s.inflight = false) (hreqs : s'.reqs = s.reqs.set i v)
    (hflag : s'.inflight = false) (hnodes : s'.reqNodes = s.reqNodes)
    (harrays : s'.arrays = s.arrays) (haccepted : v.accepted = r.accepted)
    (hleft : v.session = false ∨ v.done = true) (hrefs : v.refs = r.refs) : Accounted s' := by
  have hunfinished : v.unfinished = false := by
    rcases hleft with hleft | hleft <;> simp [Req.unfinished, hleft]
  apply h.change hi (v := v)
  refine ⟨hreqs, ?_, haccepted, ?_, h.last_kept hi hopen hnodes, by rw [harrays],
    fun ref href => Or.inl (hrefs ▸ href), Or.inl (fill_of_refs hrefs)⟩
  · rw [hflag, hunfinished]
    rcases hown with hacc | hclear
    · have hr : r.unfinished = true := by simp [Req.unfinished, hacc, hattached, hopen]
      rw [hr, h.inflight_of_unfinished hi hr]
      rfl
    · have hr : r.unfinished = false := by
        by_contra hne
        have := h.inflight_of_unfinished hi (Bool.eq_true_of_not_eq_false hne)
        rw [hclear] at this
        cases this
      rw [hr, hclear]
  · intro _ hsession hdone
    rcases hleft with hleft | hleft
    · rw [hleft] at hsession
      cases hsession
    · rw [hleft] at hdone
      cases hdone

/-- The flag is cleared, and an accepted request is the last one now. -/
theorem Accounted.save (hattached : r.session = true) (hacc : r.accepted = true)
    (hreqs : s'.reqs = s.detached.set i v) (hflag : s'.inflight = false)
    (hnodes : s'.reqNodes = some i)
    (harrays : s'.arrays = s.arrays) (haccepted : v.accepted = r.accepted) (hdone : v.done = true)
    (hrefs : v.refs = r.refs) : Accounted s' := by
  have hi' : s.detached[i]? = some r := by
    unfold State.detached
    cases hprev : s.reqNodes with
    | none => exact hi
    | some prev =>
      have hne : prev ≠ i := fun heq => h.reqNodes_ne hi hopen (heq ▸ hprev)
      dsimp only
      rw [getElem?_modify_ne _ _ hne]
      exact hi
  apply h.detached.change hi' (v := v)
  have hr : r.unfinished = true := by simp [Req.unfinished, hacc, hattached, hopen]
  refine ⟨hreqs, ?_, haccepted, ?_, ?_, by rw [harrays], fun ref href => Or.inl (hrefs ▸ href),
    Or.inl (fill_of_refs hrefs)⟩
  · have hv : v.unfinished = false := by simp [Req.unfinished, hdone]
    rw [hflag, hv, hr, h.inflight_of_unfinished hi hr]
    rfl
  · intro hrejected
    rw [haccepted, hacc] at hrejected
    cases hrejected
  · intro k hk
    rw [hnodes] at hk
    cases hk
    refine Or.inr ⟨rfl, ?_, hdone⟩
    rw [haccepted]
    exact hacc

theorem Accounted.leave (hr : r.unfinished = false) {t : State} (hreqs : t.reqs = s.reqs.set i v)
    (hsame : t.inflight = s.inflight ∧ t.reqNodes = s.reqNodes ∧ t.arrays = s.arrays)
    (haccepted : v.accepted = r.accepted) (hdone : v.done = true) (hrefs : v.refs = r.refs) :
    Accounted t := by
  apply h.change hi (v := v)
  refine ⟨hreqs, ?_, haccepted, ?_, h.last_kept hi hopen hsame.2.1, by rw [hsame.2.2],
    fun ref href => Or.inl (hrefs ▸ href), Or.inl (fill_of_refs hrefs)⟩
  · have hv : v.unfinished = false := by simp [Req.unfinished, hdone]
    rw [hr, hv, hsame.1]
  · intro _ _ hopen'
    rw [hdone] at hopen'
    cases hopen'

/-- The KV of an aborted request is released, and the request leaves. -/
theorem Accounted.finishAborted {pageSize : Nat} {q : Req}
    (hq : q.accepted = r.accepted ∧ q.session = r.session ∧ q.refs = r.refs)
    (hreason : q.finishedReason.any FinishReason.isAbort = true)
    (hown : r.accepted = true ∨ r.session = false ∨ s.inflight = false) :
    Accounted ((s.releaseKvCache pageSize i q).leave i) := by
  obtain ⟨haccepted, hsession, hrefs⟩ := hq
  unfold releaseKvCache
  cases hattached : r.session with
  | true =>
    rw [hsession, hattached, if_pos rfl]
    obtain ⟨freed, freeSlots, unlocked, heq⟩ := tryCacheFinishedReq_abort pageSize s i q hreason
    rw [heq]
    apply h.clear hi hopen hattached (v := { q with reqPoolIdx := none, done := true })
    · rw [hattached] at hown
      simpa using hown
    · exact modify_set_self ..
    · rfl
    · rfl
    · rfl
    · exact haccepted
    · exact Or.inr rfl
    · exact hrefs
  | false =>
    rw [if_neg (by rw [hsession, hattached]; simp)]
    apply h.leave hi hopen (v := { q with reqPoolIdx := none, done := true })
    · simp [Req.unfinished, hattached]
    · exact modify_set_self ..
    · exact ⟨rfl, rfl, rfl⟩
    · exact haccepted
    · rfl
    · exact hrefs

/-- The KV of a request is released without an abort, and the request leaves. -/
theorem Accounted.finishSaved {pageSize : Nat} {q : Req}
    (hq : q.accepted = r.accepted ∧ q.session = r.session ∧ q.refs = r.refs)
    (hown : r.session = true → r.accepted = true ∧
      q.finishedReason.any FinishReason.isAbort = false)
    {f : Req → Req}
    (hf : ∀ p, (f p).accepted = p.accepted ∧ (f p).refs = p.refs ∧ (f p).done = true) :
    Accounted { s.releaseKvCache pageSize i q with
      reqs := (s.releaseKvCache pageSize i q).reqs.modify i f } := by
  obtain ⟨haccepted, hsession, hrefs⟩ := hq
  unfold releaseKvCache
  cases hattached : r.session with
  | true =>
    -- the slot keeps the KV, and the session records the request as its last one
    obtain ⟨hacc, hreason⟩ := hown hattached
    rw [hsession, hattached, if_pos rfl]
    obtain ⟨v, slot, freed, committed, hv, heq⟩ :=
      tryCacheFinishedReq_save pageSize s i q (h.reqNodes_ne hi hopen) hreason
    obtain ⟨hfaccepted, hfrefs, hfdone⟩ := hf v
    rw [heq]
    apply h.save hi hopen hattached hacc (v := f v)
    · exact modify_set_self ..
    · rfl
    · rfl
    · rfl
    · rw [hfaccepted, hv.accepted, haccepted]
    · exact hfdone
    · rw [hfrefs, hv.refs, hrefs]
  | false =>
    obtain ⟨hfaccepted, hfrefs, hfdone⟩ := hf { q with reqPoolIdx := none }
    rw [if_neg (by rw [hsession, hattached]; simp)]
    apply h.leave hi hopen (v := f { q with reqPoolIdx := none })
    · simp [Req.unfinished, hattached]
    · exact modify_set_self ..
    · exact ⟨rfl, rfl, rfl⟩
    · rw [hfaccepted]
      exact haccepted
    · exact hfdone
    · rw [hfrefs]
      exact hrefs

theorem Accounted.matched {pageSize keyLen : Nat}
    (hown : r.accepted = true ∨ r.session = false ∨ s.inflight = false ∨
      s.slot.any SessionSlot.isHoldingKv = false)
    (hmatch : s.tryMatchPrefix pageSize i r keyLen = some s') : Accounted s' := by
  rcases tryMatchPrefix_cases hmatch with rfl | ⟨hattached, hholding, -, rfl⟩ |
    ⟨-, -, -, slot, v, freed, hv, rfl⟩
  · exact h
  · apply h.clear hi hopen hattached (v := { r with session := false })
    · simpa [hattached, hholding] using hown
    · rfl
    · rfl
    · rfl
    · rfl
    · rfl
    · exact Or.inl rfl
    · rfl
  · have h' : Accounted { s with slot := slot, freed := freed } :=
      ⟨h.count, h.doomed, h.last, h.bounded, h.apart⟩
    apply h'.plain hi hopen (Grown.refl _) hv.accepted hv.session hv.done
    · intro hdoomed
      rw [Req.Doomed, hv.finishedReason, hv.toFinish]
      exact hdoomed
    · intro ref href
      rw [hv.refs] at href
      exact Or.inl href
    · exact Or.inl hv.fullUntruncatedFillIds

theorem Accounted.invalidated {message : String} (hreason : r.finishedReason = none) :
    Accounted ((s.setFinishWithAbort r message).1.setReq i (s.setFinishWithAbort r message).2) := by
  rcases hfinish : s.setFinishWithAbort r message with ⟨t, q⟩
  obtain ⟨hext, rfl, hlen⟩ := setFinishWithAbort_spec hfinish
  apply h.plain hi hopen (v :=
    { r with originInputIds := s.arrays.length, toFinish := some message })
    hext.grown rfl rfl rfl
  · exact fun _ => Or.inl ⟨hreason, rfl⟩
  · intro ref href
    simp only [Req.refs, mem_cons, not_mem_nil, or_false] at href
    rcases href with rfl | rfl | rfl
    · right
      omega
    · left
      simp [Req.refs]
    · left
      simp [Req.refs]
  · exact Or.inl rfl

theorem Accounted.refreshed :
    Accounted (s.refreshFillIds i r) := by
  unfold State.refreshFillIds
  dsimp only
  split
  · exact h.grown ⟨_, rfl, by simp⟩
  · apply h.plain hi hopen (v := { r with fullUntruncatedFillIds := s.arrays.length })
      (t := (s.newArray _).1) ⟨_, rfl, by simp⟩ rfl rfl rfl
    · exact fun hdoomed => hdoomed
    · intro ref href
      simp only [Req.refs, mem_cons, not_mem_nil, or_false] at href
      rcases href with rfl | rfl | rfl
      · left
        simp [Req.refs]
      · left
        simp [Req.refs]
      · right
        simp [newArray]
    · right
      simp

theorem Accounted.accepted_of_finished
    (hattached : r.session = true) (hreason : r.finishedReason.isSome = true)
    (habort : ¬r.finishedReason.any FinishReason.isAbort = true) : r.accepted = true := by
  by_contra hne
  -- a rejected request ends as aborted
  rcases h.doomed r (mem_of_getElem? hi) (by simpa using hne) hattached hopen with ⟨hnone, -⟩ | hany
  · rw [hnone] at hreason
    cases hreason
  · exact habort hany

theorem Accounted.finished {pageSize : Nat} (hreason : r.finishedReason.isSome = true)
    (hown : r.finishedReason.any FinishReason.isAbort = true →
      r.accepted = true ∨ r.session = false ∨ s.inflight = false) :
    Accounted ((s.releaseKvCache pageSize i r).leave i) := by
  by_cases habort : r.finishedReason.any FinishReason.isAbort = true
  · exact h.finishAborted hi hopen ⟨rfl, rfl, rfl⟩ habort (hown habort)
  · exact h.finishSaved hi hopen ⟨rfl, rfl, rfl⟩ (fun hattached =>
      ⟨h.accepted_of_finished hi hopen hattached hreason habort, Bool.eq_false_iff.mpr habort⟩)
      (f := fun p => { p with done := true }) fun _ => ⟨rfl, rfl, rfl⟩

theorem Accounted.retracted {pageSize : Nat} (hreason : r.finishedReason = none) {abort : Bool}
    (hown : r.session = true → r.accepted = true ∧ abort = true)
    (hstep : reqStep pageSize s i r (.retract n abort) = some s') : Accounted s' := by
  have hany : r.finishedReason.any FinishReason.isAbort = false := by
    rw [hreason]
    rfl
  simp only [reqStep] at hstep
  split at hstep
  · cases hstep
  cases abort with
  | true =>
    cases hstep
    simp only [if_true, State.leave, modify_modify_eq]
    exact h.finishSaved hi hopen (pickForRetract_spec r true).1
      (fun hattached => ⟨(hown hattached).1, (pickForRetract_spec r true).2 ▸ hany⟩)
      (f := (fun p => { p with done := true }) ∘ Req.resetForRetract) fun _ => ⟨rfl, rfl, rfl⟩
  | false =>
    -- the session keeps its requests, so this one is outside
    have hattached : r.session = false := by
      cases hattached : r.session with
      | false => rfl
      | true => cases (hown hattached).2
    have hrelease : s.releaseKvCache pageSize i (r.pickForRetract false) =
        s.setReq i { r.pickForRetract false with reqPoolIdx := none } := by
      unfold releaseKvCache
      rw [if_neg (by rw [(pickForRetract_spec r false).1.2.1, hattached]; simp)]
    rw [hrelease] at hstep
    cases hstep
    simp only [Bool.false_eq_true, if_false, State.setReq, modify_set_self]
    exact h.plain hi hopen (v :=
      { r with reqPoolIdx := none }.resetForRetract) (Grown.refl s) rfl rfl rfl
      (fun hdoomed => hdoomed) (fun _ href => Or.inl href) (Or.inl rfl)

end Steps

/-- Every step keeps the invariant, unless the session does not tolerate it. -/
theorem accounted_reqStep (h : Accounted s) {pageSize : Nat} {e : Event} (hi : s.reqs[i]? = some r)
    (hopen : r.done = false) (htolerates : s.tolerates r e = true)
    (hstep : reqStep pageSize s i r e = some s') : Accounted s' := by
  have hcall := hstep
  cases e <;>
    simp only [reqStep, ite_none_left_eq_some, Option.some.injEq, reduceCtorEq] at hstep
  case invalidate _ message =>
    obtain ⟨hreason, rfl⟩ := hstep
    exact h.invalidated hi hopen (by simpa using hreason)
  case abortRunning _ =>
    obtain ⟨hreason, rfl⟩ := hstep
    apply h.plain hi hopen (v := { r with toFinish := some "Aborted" }) (Grown.refl s) rfl rfl rfl
    · intro _
      exact Or.inl ⟨by simpa using hreason, rfl⟩
    · exact fun ref href => Or.inl href
    · exact Or.inl rfl
  case abortQueued _ =>
    obtain ⟨-, rfl⟩ := hstep
    apply h.leave hi hopen (v := { r with done := true })
    · simpa [tolerates] using htolerates
    · simp only [State.leave]
      rw [modify_eq_set_getElem?, hi]
      rfl
    · exact ⟨rfl, rfl, rfl⟩
    · rfl
    · rfl
    · rfl
  case abortChunked _ =>
    -- the abort comes first, so the release takes the path of an aborted request
    obtain ⟨-, rfl⟩ := hstep
    apply h.finishAborted
      (q := { r with finishedReason := some (.abort "Aborted"), toFinish := none }) hi
      hopen ⟨rfl, rfl, rfl⟩ rfl
    simp only [tolerates, Bool.or_eq_true, Bool.and_eq_true, Bool.not_eq_true'] at htolerates
    tauto
  case matchPrefix _ keyLen =>
    apply h.matched hi hopen _ hstep.2
    simp only [tolerates, Bool.or_eq_true, Bool.not_eq_true'] at htolerates
    tauto
  case refreshFillIds _ =>
    obtain ⟨-, rfl⟩ := hstep
    exact h.refreshed hi hopen
  case forward _ progress =>
    -- a pass over the request touches neither its status nor its arrays
    obtain ⟨-, rfl⟩ := hstep
    exact h.plain hi hopen (Grown.refl s) rfl rfl rfl (fun hdoomed => hdoomed) (fun ref href =>
      Or.inl href)
      (Or.inl rfl)
  case updateFinishState _ finishedLen =>
    obtain ⟨haccepted, hsession, hdone, hrefs, hdoomed⟩ := updateFinishState_spec r finishedLen
    rw [← hstep]
    exact h.plain hi hopen (Grown.refl s) haccepted hsession hdone hdoomed
      (fun ref href => Or.inl (hrefs ▸ href)) (Or.inl (fill_of_refs hrefs))
  case finish _ =>
    obtain ⟨hreason, rfl⟩ := hstep
    simp only [tolerates, Bool.or_eq_true, Bool.and_eq_true, Bool.not_eq_true'] at htolerates
    have hends : r.finishedReason.isSome = true := by
      rw [not_or] at hreason
      simpa [isSome_iff_ne_none] using hreason.1
    exact h.finished hi hopen hends (by tauto)
  case retract _ abort =>
    have hreason : r.finishedReason = none := by
      have := hstep.1
      rw [not_or] at this
      simpa using this.1
    simp only [tolerates, Bool.or_eq_true, Bool.and_eq_true, Bool.not_eq_true'] at htolerates
    exact h.retracted hi hopen hreason (fun hattached => by simpa [hattached] using htolerates)
      hcall

theorem scheduled_eq (hs : s.scheduled i = some r) : s.reqs[i]? = some r ∧ r.done = false := by
  unfold scheduled at hs
  obtain ⟨hi, hopen⟩ := filter_eq_some_iff.mp hs
  exact ⟨hi, by simpa using hopen⟩

theorem accounted_step (h : Accounted s) {pageSize : Nat} {e : Event} (hsafe : Undisturbed s e)
    (hstep : step pageSize s e = some s') : Accounted s' := by
  cases hrequest : e.request with
  | none =>
    cases e with
    | create bosTokenId recv =>
      cases hstep
      exact h.create bosTokenId recv
    | _ => cases hrequest
  | some i =>
    have hstep' : ((s.scheduled i).bind fun r => reqStep pageSize s i r e) = some s' := by
      cases e <;> cases hrequest <;> exact hstep
    obtain ⟨r, hs, hstep'⟩ := bind_eq_some_iff.mp hstep'
    obtain ⟨hi, hopen⟩ := scheduled_eq hs
    apply accounted_reqStep h hi hopen _ hstep'
    apply hsafe
    rw [hrequest]
    exact hs

/-! ## Section 6: What a rejected request leaves alone -/

theorem Accounted.spared (h : Accounted s) (hi : s.reqs[i]? = some r)
    (hrejected : r.accepted = false) (hflag : s'.inflight = s.inflight) (hslot : s'.slot = s.slot)
    (hnodes : s'.reqNodes = s.reqNodes)
    (hcommitted : s'.committed = s.committed) (hreqs : ∃ v, s'.reqs = s.reqs.set i v)
    (harrays : ∀ ref < s.arrays.length, ref ≠ r.fullUntruncatedFillIds →
      s'.array ref = s.array ref) :
    Spared i s s' := by
  refine ⟨hflag, hslot, hnodes, hcommitted, ?_⟩
  intro j q hne hj
  obtain ⟨v, hreqs⟩ := hreqs
  refine ⟨?_, ?_⟩
  · rw [hreqs, getElem?_set_ne (Ne.symm hne)]
    exact hj
  · intro ref href
    apply harrays ref (h.bounded q (mem_of_getElem? hj) ref href)
    rintro rfl
    exact h.apart i j r q (Ne.symm hne) hi hj hrejected href

theorem set_self (hi : s.reqs[i]? = some r) : s.reqs = s.reqs.set i r := by
  apply ext_getElem?
  intro j
  rw [getElem?_set]
  split
  · next heq =>
    subst heq
    rw [if_pos (List.getElem?_eq_some_iff.mp hi).1]
    exact hi
  · rfl

theorem Accounted.spared_release (h : Accounted s) {pageSize : Nat} {q : Req}
    (hi : s.reqs[i]? = some r) (hrejected : r.accepted = false) (hsession : q.session = r.session)
    (hreason : q.finishedReason.any FinishReason.isAbort = true ∨ r.session = false)
    (hidle : r.session = false ∨ s.inflight = false ∧ s.slot = none) (f : Req → Req) :
    Spared i s { s.releaseKvCache pageSize i q with
      reqs := (s.releaseKvCache pageSize i q).reqs.modify i f } := by
  unfold releaseKvCache
  cases hattached : r.session with
  | false =>
    rw [if_neg (by rw [hsession, hattached]; simp)]
    exact h.spared hi hrejected rfl rfl rfl rfl ⟨_, modify_set_self ..⟩ fun _ _ _ => rfl
  | true =>
    rw [hattached] at hreason hidle
    obtain ⟨hclear, hnone⟩ : s.inflight = false ∧ s.slot = none := by simpa using hidle
    rw [if_pos (by rw [hsession, hattached])]
    obtain ⟨freed, freeSlots, unlocked, heq⟩ :=
      tryCacheFinishedReq_abort pageSize s i q (by simpa using hreason)
    rw [heq]
    exact h.spared hi hrejected hclear.symm hnone.symm rfl rfl ⟨_, modify_set_self ..⟩ fun _ _ _ =>
      rfl

theorem Accounted.spared_set (h : Accounted s) (hi : s.reqs[i]? = some r)
    (hrejected : r.accepted = false) {t : State} {v : Req} (hext : Extended s t) : Spared i s
    (t.setReq i v) := by
  have harrays : ∀ ref < s.arrays.length, t.array ref = s.array ref := fun ref hlt => hext.array hlt
  obtain ⟨more, rfl⟩ := hext
  exact h.spared hi hrejected rfl rfl rfl rfl ⟨v, rfl⟩ fun ref hlt _ => harrays ref hlt

theorem spared_reqStep (h : Accounted s) {pageSize : Nat} {e : Event} (hi : s.reqs[i]? = some r)
    (hopen : r.done = false) (hrejected : r.accepted = false) (htolerates : s.tolerates r e = true)
    (hstep : reqStep pageSize s i r e = some s') : Spared i s s' := by
  have hdoomed : r.session = true → r.Doomed := fun hattached =>
    h.doomed r (mem_of_getElem? hi) hrejected hattached hopen
  cases e <;>
    simp only [reqStep, ite_none_left_eq_some, Option.some.injEq, reduceCtorEq] at hstep
  case invalidate _ message =>
    rcases hfinish : s.setFinishWithAbort r message with ⟨t, q⟩
    rw [hfinish] at hstep
    obtain ⟨-, rfl⟩ := hstep
    exact h.spared_set hi hrejected (setFinishWithAbort_spec hfinish).1
  case abortRunning _ =>
    obtain ⟨-, rfl⟩ := hstep
    exact h.spared_set hi hrejected (Extended.refl s)
  case abortQueued _ =>
    obtain ⟨-, rfl⟩ := hstep
    refine h.spared hi hrejected rfl rfl rfl rfl ⟨{ r with done := true }, ?_⟩ fun _ _ _ => rfl
    simp only [State.leave]
    rw [modify_eq_set_getElem?, hi]
    rfl
  case abortChunked _ =>
    obtain ⟨-, rfl⟩ := hstep
    refine h.spared_release
      (q := { r with finishedReason := some (.abort "Aborted"), toFinish := none }) hi
      hrejected rfl (Or.inl rfl) ?_ _
    simpa [tolerates, hrejected] using htolerates
  case matchPrefix _ keyLen =>
    obtain ⟨hreason, hstep⟩ := hstep
    rcases tryMatchPrefix_cases hstep with rfl | ⟨hattached, hholding, -, rfl⟩ |
      ⟨hattached, -, hnone, -⟩
    · exact h.spared hi hrejected rfl rfl rfl rfl ⟨r, set_self hi⟩ fun _ _ _ => rfl
    · have hclear : s.inflight = false := by
        simpa [tolerates, hrejected, hattached, hholding] using htolerates
      exact h.spared hi hrejected hclear.symm rfl rfl rfl ⟨_, rfl⟩ fun _ _ _ => rfl
    · -- a rejected request is never restored from the slot
      exfalso
      rcases hdoomed hattached with ⟨-, hsome⟩ | hany
      · rw [hnone] at hsome
        cases hsome
      · rw [show r.finishedReason = none by simpa using hreason] at hany
        cases hany
  case refreshFillIds _ =>
    obtain ⟨-, rfl⟩ := hstep
    unfold State.refreshFillIds
    dsimp only
    split
    · -- the array is the request's own, so nobody else reads the write
      refine h.spared hi hrejected rfl rfl rfl rfl ⟨r, set_self hi⟩ ?_
      intro ref _ hne
      simp only [State.array, State.writeArray, getD_eq_getElem?_getD]
      rw [getElem?_set_ne (Ne.symm hne)]
    · exact h.spared_set hi hrejected ⟨_, rfl⟩
  case forward _ progress =>
    obtain ⟨-, rfl⟩ := hstep
    exact h.spared_set hi hrejected (Extended.refl s)
  case updateFinishState _ finishedLen =>
    rw [← hstep]
    exact h.spared_set hi hrejected (Extended.refl s)
  case finish _ =>
    obtain ⟨hreason, rfl⟩ := hstep
    refine h.spared_release hi hrejected rfl ?_ ?_ _
    · cases hattached : r.session with
      | false => exact Or.inr rfl
      | true =>
        rcases hdoomed hattached with ⟨hnone, -⟩ | hany
        · rw [hnone] at hreason
          simp at hreason
        · exact Or.inl hany
    · simpa [tolerates, hrejected] using htolerates
  case retract _ abort =>
    obtain ⟨-, rfl⟩ := hstep
    -- what is tolerated of a rejected request is only a retraction outside of the session
    have hattached : r.session = false := by
      simpa [tolerates, hrejected] using htolerates
    have hsession := (pickForRetract_spec r abort).1.2.1
    cases abort with
    | true =>
      simp only [if_true, State.leave, modify_modify_eq]
      exact h.spared_release hi hrejected hsession (Or.inr hattached) (Or.inl hattached) _
    | false => exact h.spared_release hi hrejected hsession (Or.inr hattached) (Or.inl hattached) _

theorem spared_step (h : Accounted s) {pageSize : Nat} {e : Event} (hsafe : Undisturbed s e)
    (hstep : step pageSize s e = some s') (hhandles : HandlesRejected s e i) : Spared i s s' := by
  cases hrequest : e.request with
  | none =>
    cases e with
    | create bosTokenId recv =>
      cases hstep
      obtain ⟨hmessage, rfl⟩ := hhandles
      obtain ⟨t, q, hext, -, -, -, -, heq⟩ := createReq_rejected bosTokenId hmessage
      rw [heq]
      have harrays : ∀ ref < s.arrays.length, t.array ref = s.array ref :=
        fun ref hlt => hext.array hlt
      obtain ⟨more, rfl⟩ := hext
      refine ⟨rfl, rfl, rfl, rfl, fun j p _ hj => ⟨?_, fun ref href => ?_⟩⟩
      · dsimp only
        rw [getElem?_append_left (List.getElem?_eq_some_iff.mp hj).1]
        exact hj
      · exact harrays ref (h.bounded p (mem_of_getElem? hj) ref href)
    | _ => cases hrequest
  | some k =>
    have hstep' : ((s.scheduled k).bind fun r => reqStep pageSize s k r e) = some s' := by
      cases e <;> cases hrequest <;> exact hstep
    obtain ⟨hk, r, hr, hrejected⟩ : e.request = some i ∧ ∃ r, s.reqs[i]? = some r ∧
        r.accepted = false := by
      cases e with
      | create _ _ => cases hrequest
      | _ => exact hhandles
    rw [hrequest] at hk
    cases hk
    obtain ⟨q, hs, hstep'⟩ := bind_eq_some_iff.mp hstep'
    obtain ⟨hi, hopen⟩ := scheduled_eq hs
    rw [hr] at hi
    cases hi
    apply spared_reqStep h hr hopen hrejected _ hstep'
    apply hsafe
    rw [hrequest]
    exact hs

/-! ## Section 7: Every run -/

/-- Over every order of the steps that the session tolerates. -/
theorem exclusive_of_undisturbed {pageSize : Nat} {events : List Event}
    (hsafe : Lib.Along (step pageSize) Undisturbed State.init events)
    (hrun : Lib.run (step pageSize) State.init events = some s) :
    s.Exclusive ∧ ∀ e i s', Undisturbed s e → step pageSize s e = some s' → HandlesRejected s e i →
      Spared i s s' := by
  have h : Accounted s := Lib.invariant_of_run Accounted
    (fun _ _ _ h hP hstep => accounted_step h hP hstep) accounted_init hsafe hrun
  exact ⟨h.exclusive, fun _ _ _ hsafe hstep hhandles => spared_step h hsafe hstep hhandles⟩

/-- A first turn that prefills its prompt, decodes one token and finishes. -/
def firstTurn : List Event :=
  [.create none ⟨[5, 6, 7], 8, {}⟩, .matchPrefix 0 2, .refreshFillIds 0,
    .forward 0 ⟨0, 3, 4, some 9, 0, [11]⟩, .updateFinishState 0 none, .finish 0]

/-- A second turn, with a rejected request that is done before it. -/
def quietTurns : List Event :=
  firstTurn ++ [.create none ⟨[1], 8, { replace := true }⟩, .matchPrefix 1 0,
    .create none ⟨[12], 8, {}⟩]

theorem quietTurns_exclusive :
    ∃ s, Lib.run (step 1) State.init quietTurns = some s ∧ s.inflight = true ∧ s.Exclusive := by
  have hsafe : Lib.Along (step 1) Undisturbed State.init quietTurns := by decide
  obtain ⟨s, hrun⟩ := isSome_iff_exists.mp
    (by decide : (Lib.run (step 1) State.init quietTurns).isSome = true)
  refine ⟨s, hrun, ?_, (exclusive_of_undisturbed hsafe hrun).1⟩
  have hflag : (Lib.run (step 1) State.init quietTurns).map (·.inflight) = some true := by decide
  rw [hrun] at hflag
  exact Option.some.inj hflag

/-- A third request is rejected while the second turn runs, and it is matched: a fourth one is
accepted. -/
def rejectedMatch : List Event :=
  firstTurn ++ [.create none ⟨[12], 8, {}⟩, .create none ⟨[13], 8, {}⟩, .matchPrefix 2 0,
    .create none ⟨[14], 8, {}⟩]

theorem rejected_clears_flag :
    ¬ ∀ pageSize events s, Lib.run (step pageSize) State.init events = some s → s.Exclusive := by
  intro hall
  obtain ⟨s, hrun⟩ := isSome_iff_exists.mp
    (by decide : (Lib.run (step 1) State.init rejectedMatch).isSome = true)
  have hreqs : (Lib.run (step 1) State.init rejectedMatch).map (fun s =>
    s.reqs.map Req.unfinished) = some [false, true, false, true] := by decide
  rw [hrun] at hreqs
  have hunfinished : s.reqs.map Req.unfinished = [false, true, false, true] := Option.some.inj hreqs
  have hget : ∀ k : Nat, (s.reqs[k]?).map Req.unfinished = [false, true, false, true][k]? := by
    intro k
    rw [← hunfinished, getElem?_map]
  obtain ⟨r1, h1, hr1⟩ := map_eq_some_iff.mp (hget 1)
  obtain ⟨r3, h3, hr3⟩ := map_eq_some_iff.mp (hget 3)
  have := (hall 1 _ s hrun).single 1 3 r1 r3 h1 h3 hr1 hr3
  cases this

end Sglang.Session
