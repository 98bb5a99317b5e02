import Sglang.Disaggregation.StagingWatermark

/-!
# Progress of the Staging Ring

The watermark is computed when a region is freed, never when one is assigned. When the ring is empty
the watermark is where the next region would begin, so a region that wraps is admitted only if it is
not larger than the part of the ring before the head.

- `Admits`: the oldest region in use may be written,
- `Wedges`: an assignment after which it may not,
- `admits_iff`: a run is never stuck if and only if it has no such assignment.
-/

namespace Sglang.Disaggregation

open List

namespace StagingAllocator

/-! ## Section 1: Runs -/

inductive Op where
  | assign (requiredBytes : Nat)
  | free (allocId : Nat)

def step (s : StagingAllocator) : Op → StagingAllocator
  | .assign requiredBytes => (s.assign requiredBytes).1
  | .free allocId => s.free allocId

def run (totalSize : Nat) (ops : List Op) : StagingAllocator := ops.foldl step (new totalSize)

/-- The oldest region that has not been freed. -/
def Oldest (s : StagingAllocator) (allocId : Nat) (r : Region) : Prop :=
  s.allocations.lookup allocId = some r ∧ ∀ j ∈ s.allocations, allocId ≤ j

/-- The oldest region in use may be written by a prefill side that knows the current watermark. -/
def Admits (s : StagingAllocator) : Prop :=
  ∀ allocId r, s.Oldest allocId r → ∀ (remote : RemoteWatermarks) (sessionId : String),
    watermarkOf remote sessionId = s.getWatermark →
    isWatermarkReady remote sessionId r.round r.finish = true

/-- An assignment that wraps on an empty ring, of more bytes than there are before the head. -/
def Wedges (s : StagingAllocator) (requiredBytes : Nat) : Prop :=
  s.allocations = ∅ ∧ requiredBytes ≤ s.totalSize ∧ s.totalSize - s.head < requiredBytes ∧
    s.head < requiredBytes

/-! ## Section 2: The oldest region -/

variable {s : StagingAllocator}

theorem ready_iff {r : Region} {remote : RemoteWatermarks} {sessionId : String}
    (h : watermarkOf remote sessionId = s.getWatermark) :
    isWatermarkReady remote sessionId r.round r.finish = true ↔
      r.round ≤ s.watermarkRound ∨ r.round = s.watermarkRound + 1 ∧ r.finish ≤ s.watermarkTail := by
  simp only [isWatermarkReady, h, getWatermark, ofLex_toLex]
  split
  · simp only [true_iff]
    omega
  · simp only [Bool.or_eq_true, Bool.and_eq_true, decide_eq_true_eq]
    omega

theorem Oldest.unique {i j : Nat} {r r' : Region} (h : s.Oldest i r) (h' : s.Oldest j r') :
    i = j ∧ r = r' := by
  have hij : i = j := by
    apply le_antisymm
    · exact h.2 j (Finmap.mem_iff.mpr ⟨r', h'.1⟩)
    · exact h'.2 i (Finmap.mem_iff.mpr ⟨r, h.1⟩)
  subst hij
  have hr := h.1.symm.trans h'.1
  exact ⟨rfl, Option.some.inj hr⟩

/-- The oldest region is where the watermark lets it be written. -/
structure Drained (s : StagingAllocator) : Prop extends s.Inv where
  /-- The watermark of an empty ring is its frontier. -/
  empty : s.allocations = ∅ → s.getWatermark = s.frontier

theorem new_drained (totalSize : Nat) : (new totalSize).Drained := ⟨new_inv totalSize, fun _ => rfl⟩

theorem insert_ne_empty (allocations : Finmap fun _ : Nat => Region) (i : Nat) (r : Region) :
    allocations.insert i r ≠ ∅ := by
  intro h
  have hmem : i ∈ allocations.insert i r := Finmap.mem_insert.mpr (.inl rfl)
  rw [h] at hmem
  exact Finmap.notMem_empty hmem

theorem Drained.step (h : s.Drained) (op : Op) : (s.step op).Drained := by
  cases op with
  | assign requiredBytes =>
    refine ⟨h.toInv.assign requiredBytes, ?_⟩
    change (s.assign requiredBytes).1.allocations = ∅ → _
    rcases assign_cases h.head_le requiredBytes with heq | ⟨r, _, _, _, heq⟩
    · intro hempty
      change (s.assign requiredBytes).1.getWatermark = (s.assign requiredBytes).1.frontier
      rw [heq] at hempty ⊢
      exact h.empty hempty
    · rw [heq]
      exact fun hempty => absurd hempty (insert_ne_empty _ _ _)
  | free allocId =>
    refine ⟨(h.toInv.free allocId).1, ?_⟩
    change (s.free allocId).allocations = ∅ →
      (s.free allocId).getWatermark = (s.free allocId).frontier
    by_cases hmem : allocId ∈ s.allocations
    · rcases h.toInv.free_cases hmem with ⟨_, heq⟩ | ⟨first, r, _, hr, heq⟩
      · rw [heq]
        exact fun _ => rfl
      · rw [heq]
        intro hempty
        change s.allocations.erase allocId = ∅ at hempty
        rw [hempty, Finmap.lookup_empty] at hr
        cases hr
    · rw [StagingAllocator.free, if_pos hmem]
      exact h.empty

theorem drained_foldl (h : s.Drained) (ops : List Op) :
    (ops.foldl StagingAllocator.step s).Drained := by
  induction ops generalizing s with
  | nil => exact h
  | cons op ops ih => exact ih (h.step op)

theorem run_drained (totalSize : Nat) (ops : List Op) : (run totalSize ops).Drained :=
  drained_foldl (new_drained totalSize) ops

/-! ## Section 3: Steps -/

/-- After a region is freed the oldest one that is left may be written. -/
theorem Admits.free (hdrained : s.Drained) (h : s.Admits) (allocId : Nat) :
    (s.free allocId).Admits := by
  by_cases hmem : allocId ∈ s.allocations
  swap
  · rw [StagingAllocator.free, if_pos hmem]
    exact h
  intro i r hold remote sessionId hwm
  rw [ready_iff hwm]
  rcases hdrained.toInv.free_cases hmem with ⟨hempty, heq⟩ | ⟨first, r', hfirst, hr', heq⟩
  · have hlookup := hold.1
    rw [heq] at hlookup
    change (s.allocations.erase allocId).lookup i = some r at hlookup
    rw [hempty, Finmap.lookup_empty] at hlookup
    cases hlookup
  · -- the watermark is where the oldest one begins
    have hinv := (hdrained.toInv.free allocId).1
    have holdest : (s.free allocId).Oldest first r' := by
      refine ⟨by rw [heq]; exact hr', fun j hj => ?_⟩
      have hlisted := hinv.listed j hj
      have hsorted := hinv.sorted
      rw [heq] at hlisted hsorted
      change j ∈ trim s.allocOrder (s.allocations.erase allocId) at hlisted
      change (trim s.allocOrder (s.allocations.erase allocId)).Pairwise (· < ·) at hsorted
      cases hlist : trim s.allocOrder (s.allocations.erase allocId) with
      | nil => simp [hlist] at hlisted
      | cons x tail =>
        rw [hlist, head?_cons, Option.some.injEq] at hfirst
        subst hfirst
        rw [hlist] at hlisted hsorted
        rcases mem_cons.mp hlisted with rfl | htail
        · exact le_rfl
        · exact ((pairwise_cons.mp hsorted).1 j htail).le
    obtain ⟨_, rfl⟩ := hold.unique holdest
    left
    rw [heq]

theorem oldest_assign (hinv : s.Inv) {x : Region} {i : Nat} {r : Region}
    {s' : StagingAllocator} (hs' : s'.allocations = s.allocations.insert s.nextAllocId x)
    (h : s'.Oldest i r) : s.Oldest i r ∨ s.allocations = ∅ ∧ r = x := by
  obtain ⟨hlookup, hmin⟩ := h
  rw [hs'] at hlookup hmin
  rcases lookup_assign hlookup with ⟨rfl, rfl⟩ | ⟨_, hlookup⟩
  · right
    refine ⟨?_, rfl⟩
    apply Finmap.ext_lookup
    intro j
    rw [Finmap.lookup_empty, Finmap.lookup_eq_none]
    intro hj
    have hle := hmin j (Finmap.mem_insert.mpr (.inr hj))
    obtain ⟨r', hr'⟩ := Finmap.mem_iff.mp hj
    exact absurd (hinv.lt_next hr') (by omega)
  · left
    exact ⟨hlookup, fun j hj => hmin j (Finmap.mem_insert.mpr (.inr hj))⟩

theorem Admits.assign (hdrained : s.Drained) (h : s.Admits) {requiredBytes : Nat}
    (hno : ¬ s.Wedges requiredBytes) : (s.assign requiredBytes).1.Admits := by
  rcases assign_cases hdrained.head_le requiredBytes with heq | ⟨x, hsize, hfinish, hplace, heq⟩
  · rw [heq]
    exact h
  intro i r hold remote sessionId hwm
  have hsame : (s.assign requiredBytes).1.getWatermark = s.getWatermark :=
    watermark_assign requiredBytes
  rw [hsame] at hwm
  rcases oldest_assign hdrained.toInv (by rw [heq]) hold with hold | ⟨hempty, rfl⟩
  · exact h i r hold remote sessionId hwm
  · -- the ring was empty, so the watermark is its frontier
    have hfront := hdrained.empty hempty
    have hround : s.watermarkRound = s.round ∧ s.watermarkTail = s.head := by
      simpa [getWatermark, frontier] using hfront
    rw [ready_iff hwm]
    simp only [Wedges, hempty, true_and, not_and, not_lt] at hno
    simp only [Region.finish] at hfinish ⊢
    omega

theorem not_admits_of_wedges (hdrained : s.Drained) {requiredBytes : Nat}
    (h : s.Wedges requiredBytes) : ¬ (s.assign requiredBytes).1.Admits := by
  obtain ⟨hempty, hfits, hwraps, hlarge⟩ := h
  rcases assign_cases hdrained.head_le requiredBytes with heq | ⟨x, hsize, hfinish, hplace, heq⟩
  · have hsome : (s.assign requiredBytes).2 ≠ none := by
      simp [StagingAllocator.assign, not_lt.mpr hfits]
    exact absurd (by rw [heq]) hsome
  intro hadmits
  have hsame : (s.assign requiredBytes).1.getWatermark = s.getWatermark :=
    watermark_assign requiredBytes
  have holdest : (s.assign requiredBytes).1.Oldest s.nextAllocId x := by
    rw [heq]
    refine ⟨Finmap.lookup_insert _, fun j hj => ?_⟩
    rcases Finmap.mem_insert.mp hj with rfl | hj
    · exact le_rfl
    · rw [hempty] at hj
      exact absurd hj Finmap.notMem_empty
  have hready := hadmits _ _ holdest (Finmap.singleton "" s.getWatermark) "" (by
    rw [hsame]
    simp [watermarkOf])
  rw [ready_iff (s := s) (by simp [watermarkOf])] at hready
  have hround : s.watermarkRound = s.round ∧ s.watermarkTail = s.head := by
    simpa [getWatermark, frontier] using hdrained.empty hempty
  simp only [Region.finish] at hfinish hready
  omega

/-! ## Section 4: Runs -/

theorem new_admits (totalSize : Nat) : (new totalSize).Admits := by
  intro i r hold
  have hlookup := hold.1
  simp [new] at hlookup

theorem run_admits {totalSize : Nat} {ops : List Op} (h : ∀ before requiredBytes after,
    ops = before ++ .assign requiredBytes :: after →
    ¬ (run totalSize before).Wedges requiredBytes) :
    (run totalSize ops).Admits := by
  induction ops using List.reverseRecOn with
  | nil => exact new_admits totalSize
  | append_singleton ops op ih =>
    have hadmits :=
      ih fun before requiredBytes after heq => h before requiredBytes (after ++ [op]) (by
      rw [heq]
      simp)
    have hdrained := run_drained totalSize ops
    have hstep : run totalSize (ops ++ [op]) = (run totalSize ops).step op := by
      simp [run]
    rw [hstep]
    cases op with
    | assign requiredBytes => exact hadmits.assign hdrained (h ops requiredBytes [] rfl)
    | free allocId => exact hadmits.free hdrained allocId

/-- The oldest region in use may be written in every state of a run if and only if no assignment
wraps on an empty ring with more bytes than there are before the head. -/
theorem admits_iff (totalSize : Nat) (ops : List Op) :
    (∀ before after, ops = before ++ after → (run totalSize before).Admits) ↔
      ∀ before requiredBytes after, ops = before ++ .assign requiredBytes :: after →
        ¬ (run totalSize before).Wedges requiredBytes := by
  constructor
  · intro h before requiredBytes after heq hwedges
    apply not_admits_of_wedges (run_drained totalSize before) hwedges
    have hnext := h (before ++ [.assign requiredBytes]) after (by rw [heq]; simp)
    rwa [run, foldl_append] at hnext
  · intro h before after heq
    apply run_admits
    intro before' requiredBytes after' heq'
    exact h before' requiredBytes (after' ++ after) (by rw [heq, heq']; simp)

/-- Ten bytes: six are assigned and freed, then eight are assigned. The region begins a new round,
and the watermark stays at six. -/
theorem ring_wedges : ¬ (run 10 [.assign 6, .free 0, .assign 8]).Admits := by
  have hdrained := run_drained 10 [.assign 6, .free 0]
  apply not_admits_of_wedges hdrained
  refine ⟨?_, by decide, by decide, by decide⟩
  rfl

end StagingAllocator

end Sglang.Disaggregation
