import Sglang.Disaggregation.StagingAllocator

/-!
# Watermarks of the Staging Ring

The decode side sends the watermark of its ring; the prefill side keeps the highest one of each
session and writes into a region only once the watermark has passed what lay there a round before
(`disaggregation/common/staging_handler.py`). Messages may be lost, late, doubled or out of order.

- `isWatermarkReady`, `handleWatermarkMsg`: the prefill side,
- `RingState`, `step`: the ring, the messages sent and the prefill side,
- `ring_safe`: a region that may be written overlaps no older region in use.
-/

namespace Sglang.Disaggregation

open List

/-! ## Section 1: The prefill side -/

/-- `remote_watermarks`: `(round, tail)` by session. -/
abbrev RemoteWatermarks := Finmap fun _ : String => ℕ ×ₗ ℕ

/-- `remote_watermarks.get(session_id, (0, 0))`. -/
def watermarkOf (remote : RemoteWatermarks) (sessionId : String) : ℕ ×ₗ ℕ :=
  (remote.lookup sessionId).getD (toLex (0, 0))

def isWatermarkReady (remote : RemoteWatermarks) (sessionId : String) (allocRound allocEnd : Nat) :
    Bool :=
  if allocRound ≤ 0 then true
  else
    let prevRound := allocRound - 1
    let (wmRound, wmTail) := ofLex (watermarkOf remote sessionId)
    prevRound < wmRound || (prevRound = wmRound && allocEnd ≤ wmTail)

def handleWatermarkMsg (remote : RemoteWatermarks) (wm : ℕ ×ₗ ℕ) (wmSession : String) :
    RemoteWatermarks :=
  if wm > watermarkOf remote wmSession then remote.insert wmSession wm else remote

theorem watermarkOf_handle (remote : RemoteWatermarks) (wm : ℕ ×ₗ ℕ)
    (wmSession sessionId : String) :
    watermarkOf (handleWatermarkMsg remote wm wmSession) sessionId = wm ∨
      watermarkOf (handleWatermarkMsg remote wm wmSession) sessionId =
        watermarkOf remote sessionId := by
  unfold handleWatermarkMsg
  split
  · by_cases hs : sessionId = wmSession
    · subst hs
      exact .inl (by simp [watermarkOf])
    · exact .inr (by simp [watermarkOf, hs])
  · exact .inr rfl

/-! ## Section 2: The system -/

/-- The ring, the watermarks that were read from it, the prefill side and the regions that it was
told may be written. -/
structure RingState where
  allocator : StagingAllocator
  produced : List (ℕ ×ₗ ℕ)
  remote : RemoteWatermarks
  declared : Finset Nat

inductive RingOp where
  | assign (requiredBytes : Nat)
  | free (allocId : Nat)
  | getWatermark
  /-- Any message that was ever sent reaches a session. -/
  | deliver (message : Nat) (sessionId : String)
  /-- The prefill side asks whether it may write a region. -/
  | ask (allocId : Nat) (sessionId : String)

/-- The region may be written, as the prefill side sees it. -/
def RingState.Ready (s : RingState) (sessionId : String) (r : Region) : Prop :=
  isWatermarkReady s.remote sessionId r.round r.finish = true

instance (s : RingState) (sessionId : String) (r : Region) : Decidable (s.Ready sessionId r) :=
  inferInstanceAs (Decidable (_ = true))

def RingState.step (s : RingState) : RingOp → RingState
  | .assign requiredBytes => { s with allocator := (s.allocator.assign requiredBytes).1 }
  | .free allocId => { s with allocator := s.allocator.free allocId }
  | .getWatermark => { s with produced := s.produced ++ [s.allocator.getWatermark] }
  | .deliver message sessionId =>
    match s.produced[message]? with
    | none => s
    | some wm => { s with remote := handleWatermarkMsg s.remote wm sessionId }
  | .ask allocId sessionId =>
    match s.allocator.allocations.lookup allocId with
    | none => s
    | some r =>
      if s.Ready sessionId r then { s with declared := insert allocId s.declared } else s

def RingState.start (totalSize : Nat) : RingState := ⟨.new totalSize, [], ∅, ∅⟩

/-! ## Section 3: Invariant -/

namespace RingState

structure Inv (s : RingState) : Prop where
  ring : s.allocator.Inv
  sent : ∀ wm ∈ s.produced, wm ≤ s.allocator.getWatermark
  known : ∀ sessionId, watermarkOf s.remote sessionId ≤ s.allocator.getWatermark
  fresh : ∀ i ∈ s.declared, i < s.allocator.nextAllocId
  /-- The older regions in use are clear of a region that may be written. -/
  clear : ∀ {i j r r'}, j ∈ s.declared → s.allocator.allocations.lookup i = some r →
    s.allocator.allocations.lookup j = some r' → i < j → r.Disjoint r'

theorem Inv.ready_disjoint {s : RingState} (h : s.Inv) {sessionId : String} {i j : Nat}
    {r r' : Region} (hi : s.allocator.allocations.lookup i = some r)
    (hj : s.allocator.allocations.lookup j = some r') (hlt : i < j)
    (hready : s.Ready sessionId r') : r.Disjoint r' := by
  apply h.ring.disjoint hi hj hlt
  have hknown := h.known sessionId
  obtain ⟨⟨wmRound, wmTail⟩, hwm⟩ : ∃ wm : ℕ × ℕ, watermarkOf s.remote sessionId = toLex wm :=
    ⟨_, (toLex_ofLex _).symm⟩
  rw [hwm] at hknown
  have hle : wmRound < s.allocator.watermarkRound ∨
      wmRound = s.allocator.watermarkRound ∧ wmTail ≤ s.allocator.watermarkTail :=
    Prod.Lex.toLex_le_toLex.mp hknown
  simp only [Ready, isWatermarkReady, hwm, ofLex_toLex] at hready
  split at hready
  · omega
  · simp only [Bool.or_eq_true, Bool.and_eq_true, decide_eq_true_eq] at hready
    omega

theorem start_inv (totalSize : Nat) : (start totalSize).Inv := by
  refine ⟨StagingAllocator.new_inv totalSize, ?_, ?_, ?_, ?_⟩
  · exact fun wm hwm => absurd hwm not_mem_nil
  · intro sessionId
    simp [start, watermarkOf, StagingAllocator.getWatermark, StagingAllocator.new]
  · exact fun i hi => absurd hi (Finset.notMem_empty i)
  · exact fun hj => absurd hj (Finset.notMem_empty _)

/-- Every step keeps the invariant, and the watermark does not decrease. -/
theorem Inv.step {s : RingState} (h : s.Inv) (op : RingOp) :
    (s.step op).Inv ∧ s.allocator.getWatermark ≤ (s.step op).allocator.getWatermark := by
  cases op with
  | assign requiredBytes =>
    have hwm := StagingAllocator.watermark_assign (s := s.allocator) requiredBytes
    -- the ids declared safe are old ones, and the new region is younger than all of them
    refine ⟨⟨h.ring.assign requiredBytes, ?_, ?_, ?_, ?_⟩, hwm.ge⟩
    · exact fun wm hmem => (h.sent wm hmem).trans hwm.ge
    · exact fun sessionId => (h.known sessionId).trans hwm.ge
    · intro i hi
      have hlt := h.fresh i hi
      change i < (s.allocator.assign requiredBytes).1.nextAllocId
      rcases StagingAllocator.assign_cases h.ring.head_le requiredBytes with heq | ⟨r, _, _, _, heq⟩
      · rw [heq]
        exact hlt
      · rw [heq]
        exact Nat.lt_succ_of_lt hlt
    · intro i j r r' hj hi hj' hlt
      have hjlt := h.fresh j hj
      change (s.allocator.assign requiredBytes).1.allocations.lookup i = some r at hi
      change (s.allocator.assign requiredBytes).1.allocations.lookup j = some r' at hj'
      rcases StagingAllocator.assign_cases h.ring.head_le requiredBytes with heq | ⟨x, _, _, _, heq⟩
      · rw [heq] at hi hj'
        exact h.clear hj hi hj' hlt
      · -- the new region is not declared, and not older than one that is
        rw [heq] at hi hj'
        rcases StagingAllocator.lookup_assign hi with ⟨rfl, _⟩ | ⟨_, hi⟩
        · omega
        · rcases StagingAllocator.lookup_assign hj' with ⟨rfl, _⟩ | ⟨_, hj'⟩
          · exact absurd hjlt (lt_irrefl _)
          · exact h.clear hj hi hj' hlt
  | free allocId =>
    obtain ⟨hring, hwm⟩ := h.ring.free allocId
    refine ⟨⟨hring, ?_, ?_, ?_, ?_⟩, hwm⟩
    · exact fun wm hmem => (h.sent wm hmem).trans hwm
    · exact fun sessionId => (h.known sessionId).trans hwm
    · intro i hi
      change i < (s.allocator.free allocId).nextAllocId
      rw [StagingAllocator.nextAllocId_free]
      exact h.fresh i hi
    · intro i j r r' hj hi hj' hlt
      exact h.clear hj (StagingAllocator.lookup_free hi) (StagingAllocator.lookup_free hj') hlt
  | getWatermark =>
    refine ⟨⟨h.ring, ?_, h.known, h.fresh, h.clear⟩, le_rfl⟩
    intro wm hmem
    rcases mem_append.mp hmem with hmem | hmem
    · exact h.sent wm hmem
    · rw [mem_singleton.mp hmem]
      exact le_rfl
  | deliver message sessionId =>
    simp only [RingState.step]
    cases hget : s.produced[message]? with
    | none => exact ⟨h, le_rfl⟩
    | some wm =>
      refine ⟨⟨h.ring, h.sent, ?_, h.fresh, h.clear⟩, le_rfl⟩
      intro session
      rcases watermarkOf_handle s.remote wm sessionId session with heq | heq
      · exact heq.le.trans (h.sent wm (mem_of_getElem? hget))
      · exact heq.le.trans (h.known session)
  | ask allocId sessionId =>
    simp only [RingState.step]
    cases hget : s.allocator.allocations.lookup allocId with
    | none => exact ⟨h, le_rfl⟩
    | some x =>
      by_cases hready : s.Ready sessionId x
      · simp only [if_pos hready]
        refine ⟨⟨h.ring, h.sent, h.known, ?_, ?_⟩, le_rfl⟩
        · intro i hi
          rcases Finset.mem_insert.mp hi with rfl | hi
          · exact h.ring.lt_next hget
          · exact h.fresh i hi
        · intro i j r r' hj hi hj' hlt
          rcases Finset.mem_insert.mp hj with rfl | hj
          · rw [hget] at hj'
            cases hj'
            exact h.ready_disjoint hi hget hlt hready
          · exact h.clear hj hi hj' hlt
      · simp only [if_neg hready]
        exact ⟨h, le_rfl⟩

theorem Inv.steps {s : RingState} (h : s.Inv) (ops : List RingOp) :
    (ops.foldl RingState.step s).Inv ∧
      s.allocator.getWatermark ≤ (ops.foldl RingState.step s).allocator.getWatermark := by
  induction ops generalizing s with
  | nil => exact ⟨h, le_rfl⟩
  | cons op ops ih =>
    obtain ⟨hstep, hle⟩ := h.step op
    obtain ⟨hrest, hle'⟩ := ih hstep
    exact ⟨hrest, hle.trans hle'⟩

/-! ## Section 4: Safety -/

/-- A region that may be written overlaps no older region in use. -/
def WritesSafely (s : RingState) : Prop :=
  ∀ i j r r' sessionId, s.allocator.allocations.lookup i = some r →
    s.allocator.allocations.lookup j = some r' → i < j → s.Ready sessionId r' → r.Disjoint r'

/-- Two regions in use that were both declared ready do not overlap. -/
def DeclaredApart (s : RingState) : Prop :=
  ∀ i j r r', i ∈ s.declared → j ∈ s.declared → i ≠ j →
    s.allocator.allocations.lookup i = some r → s.allocator.allocations.lookup j = some r' →
    r.Disjoint r'

theorem ring_safe (totalSize : Nat) (ops : List RingOp) :
    let s := ops.foldl RingState.step (start totalSize)
    s.WritesSafely ∧ s.DeclaredApart ∧ ∀ later : List RingOp,
      s.allocator.getWatermark ≤ (later.foldl RingState.step s).allocator.getWatermark := by
  intro s
  have h : s.Inv := ((start_inv totalSize).steps ops).1
  refine ⟨?_, ?_, fun later => (h.steps later).2⟩
  · exact fun i j r r' sessionId hi hj hlt hready => h.ready_disjoint hi hj hlt hready
  · intro i j r r' hi hj hne hr hr'
    rcases Nat.lt_or_gt_of_ne hne with hlt | hlt
    · exact h.clear hj hr hr' hlt
    · exact (h.clear hi hr' hr hlt).symm

end RingState

end Sglang.Disaggregation
