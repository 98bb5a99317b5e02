import Sglang.MemCache.MultiEndedCalls
import Sglang.Lib.Runs

/-!
# Runs of One End of a Two-Ended Pool

Every order of the operations of a `MultiEndedAllocator`, with the forward events fired or not as
one likes at each question.

- `EndOp.next`: one call of a run,
- `EndInv.run`: a run of admissible and safe calls returns, and keeps the invariant of the band,
- `PagePartition`: what the invariant says about the pages.
-/

namespace Sglang.MemCache

open List
open Lib
open MultiEndedAllocator

/-! ## Section 1: Runs -/

namespace EndOp

variable (cfg : EndConfig)

/-- The state after a call; `none` if an assertion fails. -/
def next (s : MultiEndedAllocator) (op : EndOp) : Option MultiEndedAllocator :=
  (op.step cfg s).map Prod.fst

end EndOp

/-- A run of admissible and safe calls returns and keeps the invariant. -/
theorem EndInv.run {cfg : EndConfig} {s : MultiEndedAllocator} {live : List Int}
    (h : EndInv cfg s live) {ops : List EndOp}
    (hadm : Along (EndOp.next cfg) (EndOp.Admissible cfg) s ops)
    (hsafe : Along (EndOp.next cfg) (EndOp.Safe cfg) s ops) :
    ∃ t, run (EndOp.next cfg) s ops = some t ∧ ∃ live', EndInv cfg t live' := by
  apply run_of_invariant (fun s => ∃ live, EndInv cfg s live) ?_ ⟨live, h⟩ (hadm.and hsafe)
  rintro s op ⟨live, h⟩ ⟨hadm, hsafe⟩
  obtain ⟨r, live', heq, hinv, _⟩ := h.step hadm hsafe
  exact ⟨r.1, by rw [EndOp.next, heq]; rfl, live', hinv⟩

/-! ## Section 2: The partition of the band -/

namespace MultiEndedAllocator

/-- A physical page backs a virtual page. Page 0 is the padding sink, bound for good. -/
def Live (s : MultiEndedAllocator) (p : Int) : Prop := p ≠ 0 ∧ (s.physicalToVirtual p).isSome

/-- The pages inside the watermark band are the live pages, the holes and the pages that wait for
reuse, each of them once. -/
structure PagePartition (cfg : EndConfig) (s : MultiEndedAllocator) : Prop where
  inBand_iff : ∀ p, cfg.InBand s.watermark p ↔
    s.Live p ∨ p ∈ s.freePhysPages ∨ p ∈ s.pendingPages
  holes_nodup : s.freePhysPages.Nodup
  pending_nodup : s.pendingPages.Nodup
  live_holes : ∀ p, s.Live p → p ∉ s.freePhysPages
  live_pending : ∀ p, s.Live p → p ∉ s.pendingPages
  holes_pending : ∀ p ∈ s.freePhysPages, p ∉ s.pendingPages
  inverse : ∀ v p, s.physicalToVirtual p = some v ↔ s.virtualToPhysical v = some p
  pending_cpu : ∀ p, p ∈ s.pendingReusePagesCpu ↔ p ∈ s.pendingPages
  count : s.livePageCount = { p | s.Live p }.ncard

end MultiEndedAllocator

theorem EndInv.pagePartition {cfg : EndConfig} {s : MultiEndedAllocator} {live : List Int}
    (h : EndInv cfg s live) (hlazy : cfg.lazyCompaction = true) : PagePartition cfg s := by
  have hlive : ∀ p, s.Live p ↔ p ∈ live := fun p => (h.live_iff p).symm
  obtain ⟨hboth, hpend, hdisj⟩ := nodup_append.mp h.band.nodup
  obtain ⟨hnodup, hholes, hapart⟩ := nodup_append.mp hboth
  have hset : { p | s.Live p } = (live.toFinset : Set Int) := by
    ext p
    simp [hlive]
  refine
    { inBand_iff := fun p => ?_
      holes_nodup := hholes
      pending_nodup := hpend
      live_holes := fun p hp hmem => hapart p ((hlive p).mp hp) p hmem rfl
      live_pending := fun p hp hmem =>
        hdisj p (mem_append_left _ ((hlive p).mp hp)) p hmem rfl
      holes_pending := fun p hp hmem => hdisj p (mem_append_right _ hp) p hmem rfl
      inverse := fun v p => (h.inverse v p).symm
      pending_cpu := fun p => by rw [h.pending_cpu, mem_toFinset]
      count := ?_ }
  · rw [← h.band.mem p, hlive]
    simp only [mem_append, or_assoc]
  · rw [h.count hlazy, hset, Set.ncard_coe_finset, toFinset_card_of_nodup hnodup]

def smallEnd : EndConfig where
  growDirection := .up
  totalBytes := 8
  numPages := 8
  minPageIndex := 1
  minPage_pos := by decide
  pageSize := 1
  pageSize_pos := by decide
  entryBytesPerPage := 1
  entryBytes_pos := by decide
  isIdOwner := true
  lazyCompaction := true

def noneFired : Queries := ⟨fun _ => false, fun _ => false, fun _ => false⟩

/-- One flush under an event that has not fired. -/
def oneFlush : List EndOp :=
  [.setLatestForwardDoneEvent (some 0), .alloc none none 4, .free [1],
    .flushOpportunistic noneFired]

def twoFlushes : List EndOp := oneFlush ++ [.free [2], .flushOpportunistic noneFired]

end Sglang.MemCache
