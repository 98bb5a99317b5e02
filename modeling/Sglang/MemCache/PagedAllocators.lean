import Mathlib
import Sglang.Lib.Runs
import Sglang.MemCache.PagedExtend

/-!
# The Paged Allocators

`PagedTokenToKVPoolAllocator` (`mem_cache/allocator/paged.py`) and its subclass
`NPUPagedTokenToKVPoolAllocator` (`hardware_backend/npu/allocator_npu.py`).

- `extend_sameSlots`: what `alloc_extend` hands out,
- `Honest`: the next call returns `None` exactly when the pages do not suffice, and loses none,
- `run_honest`: that is so after every run.

## Conventions

- Indices fit 32 bits, so `.int()` keeps them.
- `alloc_extend_kernel` of `sgl_kernel_npu` is not in the repository: it is a parameter.
- An index beyond the end of a tensor raises.
-/

namespace Sglang.MemCache

open List
open Sglang.Lib
open Allocator

/-! ## Section 1: The two classes -/

/-- The allocator classes over pages. -/
inductive PagedClass where
  | default | npu
deriving DecidableEq, Repr

/-- Constructor parameters, with the third-party kernel of the NPU class. -/
structure PagedConfig where
  cls : PagedClass
  pool : PoolConfig
  paged : pool.kind = .paged
  npuKernel : List ExtendReq → List Nat → (Nat → Nat) → Nat → Nat

/-- What an allocation returns. -/
inductive AllocResult where
  | indices (slots : List Nat)
  | none
  | indexError
deriving DecidableEq, Repr

namespace PagedConfig

/-- `alloc`, which both classes share. -/
def alloc (cfg : PagedConfig) (needSize : Nat) (a : Allocator) : Allocator × AllocResult :=
  let numPages := needSize / cfg.pool.pageSize
  let a := a.mergeFor cfg.pool numPages
  if numPages > a.freePages.length then (a, .none)
  else
    ({ a with freePages := a.freePages.drop numPages },
      .indices (expand cfg.pool.pageSize (a.freePages.take numPages)))

/-- The new pages as `NPUPagedTokenToKVPoolAllocator.alloc_extend` counts them. -/
def npuNewPages (ps : Nat) (reqs : List ExtendReq) : Nat :=
  let roundup := ps - 1
  (reqs.map fun r => (r.seqLen + roundup) / ps - (r.prefixLen + roundup) / ps).sum

/-- The pages at hand when `alloc_extend` hands them out. -/
def extendMerged (cfg : PagedConfig) (reqs : List ExtendReq) (numNewPages : Option Nat)
    (a : Allocator) :
    Allocator :=
  match cfg.cls with
  | .default => a.mergeFor cfg.pool (extendNumTokens reqs / cfg.pool.pageSize + reqs.length + 1)
  | .npu => a.mergeFor cfg.pool (numNewPages.getD (npuNewPages cfg.pool.pageSize reqs))

/-- `alloc_extend`. The kernels run over the `torch.empty` tensor `out`, the programs of the Triton
kernel in the order `grid`. -/
def allocExtend (cfg : PagedConfig) (grid : List Nat) (out : Nat → Nat) (reqs : List ExtendReq)
    (numNewPages : Option Nat) (a : Allocator) : Allocator × AllocResult :=
  let ps := cfg.pool.pageSize
  let a := cfg.extendMerged reqs numNewPages a
  let indices := fun mem : Nat → Nat => (List.range (extendNumTokens reqs)).map mem
  match cfg.cls with
  | .default =>
    let outIndices := indices (allocExtendKernel ps reqs a.freePages out grid)
    let numNewPages := numNewPages.getD (getNumNewPages ps reqs)
    if numNewPages > a.freePages.length then (a, .none)
    else ({ a with freePages := a.freePages.drop numNewPages }, .indices outIndices)
  | .npu =>
    let numNewPagesItem := numNewPages.getD (npuNewPages ps reqs)
    if numNewPagesItem > a.freePages.length then (a, .none)
    else
      let outIndices :=
        if numNewPagesItem < 200 then indices (cfg.npuKernel reqs a.freePages out)
        else indices (allocExtendNaive ps reqs a.freePages out)
      ({ a with freePages := a.freePages.drop numNewPagesItem }, .indices outIndices)

/-- `alloc_decode`. The NPU class indexes the free pages for every request, also for those that need
none. -/
def allocDecode (cfg : PagedConfig) (reqs : List ExtendReq) (a : Allocator) :
    Allocator × AllocResult :=
  let ps := cfg.pool.pageSize
  let numNewPages := getNumNewPagesDecode ps reqs
  match cfg.cls with
  | .default =>
    let a := a.mergeFor cfg.pool reqs.length
    let outIndices := perRequest ps (fun r pages => [r.decodeSlot ps pages]) reqs a.freePages
    if numNewPages > a.freePages.length then (a, .none)
    else ({ a with freePages := a.freePages.drop numNewPages }, .indices outIndices.flatten)
  | .npu =>
    let a := if numNewPages > a.freePages.length then a.mergeAndSortFree else a
    if numNewPages > a.freePages.length then (a, .none)
    else
      let needNewPages := reqs.map fun r => if r.seqLen % ps = 1 then 1 else 0
      let startNewPages :=
        (List.range reqs.length).map fun i => cumsum needNewPages i - needNewPages.getD i 0
      if numNewPages = 0 then (a, .indices (reqs.map fun r => (r.lastLoc + 1).toNat))
      else if startNewPages.any fun start => decide (a.freePages.length ≤ start) then
        (a, .indexError)
      else
        let outIndices := (reqs.zip (needNewPages.zip startNewPages)).map fun x =>
          (x.1.lastLoc + 1).toNat * (1 - x.2.1) + a.freePages.getD x.2.2 0 * ps * x.2.1
        ({ a with freePages := a.freePages.drop numNewPages }, .indices outIndices)

end PagedConfig

/-! ## Section 2: What `alloc_extend` hands out -/

/-- The kernel, the loop and the request-by-request reference agree over a list of free pages, and
so the pages are served as they stand. -/
structure SameAllocation (ps : Nat) (reqs : List ExtendReq) (freePages : List Nat) : Prop where
  kernel : ∀ grid, grid.Perm (List.range reqs.length) → ∀ out,
    (List.range (extendNumTokens reqs)).map (allocExtendKernel ps reqs freePages out grid) =
      (perRequest ps (ExtendReq.referenceSlots ps) reqs freePages).flatten
  naive : ∀ out, (List.range (extendNumTokens reqs)).map (allocExtendNaive ps reqs freePages out) =
    (perRequest ps (ExtendReq.referenceSlots ps) reqs freePages).flatten
  serves : Serves ps reqs (freePages.take (getNumNewPages ps reqs))
    (perRequest ps (ExtendReq.referenceSlots ps) reqs freePages)

theorem sameSlots {ps : Nat} {reqs : List ExtendReq} {freePages : List Nat} (hps : 0 < ps)
    (hreqs : ∀ r ∈ reqs, r.Aligned ps) (hlen : getNumNewPages ps reqs ≤ freePages.length) :
    SameAllocation ps reqs freePages where
  kernel _ hgrid out := allocExtendKernel_eq hps (fun r hr => (hreqs r hr).le_seq) hgrid out
  naive out := allocExtendNaive_eq hps (fun r hr => (hreqs r hr).le_seq) out
  serves := referenceSlots_serves hps hreqs hlen

theorem npuNewPages_eq {ps : Nat} (hps : 0 < ps) (reqs : List ExtendReq) :
    PagedConfig.npuNewPages ps reqs = getNumNewPages ps reqs := by
  unfold PagedConfig.npuNewPages getNumNewPages ExtendReq.newPages pageCount
  simp only [Nat.add_sub_assoc hps]

theorem getD_numNewPages {numNewPages : Option Nat} {n : Nat} (h : ∀ k ∈ numNewPages, k = n) :
    numNewPages.getD n = n := by
  cases numNewPages with
  | none => rfl
  | some k => exact h k rfl

section Extend

variable {cfg : PagedConfig} {a : Allocator} {reqs : List ExtendReq} {numNewPages : Option Nat}

/-- Where the pages at hand suffice, `alloc_extend` takes the first ones and hands out their
slots. -/
theorem allocExtend_slots (hreqs : ∀ r ∈ reqs, r.Aligned cfg.pool.pageSize)
    (hnum : ∀ n ∈ numNewPages, n = getNumNewPages cfg.pool.pageSize reqs)
    (hlen : getNumNewPages cfg.pool.pageSize reqs ≤
      (cfg.extendMerged reqs numNewPages a).freePages.length)
    {grid : List Nat} (hgrid : grid.Perm (List.range reqs.length)) (out : Nat → Nat) :
    ∃ slots, cfg.allocExtend grid out reqs numNewPages a =
        ({ cfg.extendMerged reqs numNewPages a with
            freePages := (cfg.extendMerged reqs numNewPages a).freePages.drop
              (getNumNewPages cfg.pool.pageSize reqs) }, .indices slots) ∧
      (cfg.cls = .default ∨ 200 ≤ getNumNewPages cfg.pool.pageSize reqs →
        slots = (perRequest cfg.pool.pageSize (ExtendReq.referenceSlots cfg.pool.pageSize) reqs
          (cfg.extendMerged reqs numNewPages a).freePages).flatten) := by
  have hsame := sameSlots cfg.pool.pageSize_pos hreqs hlen
  unfold PagedConfig.allocExtend
  cases hcls : cfg.cls with
  | default =>
    refine ⟨_, ?_, fun _ => hsame.kernel grid hgrid out⟩
    dsimp only
    rw [getD_numNewPages hnum, if_neg (by omega)]
  | npu =>
    dsimp only
    rw [npuNewPages_eq cfg.pool.pageSize_pos, getD_numNewPages hnum, if_neg (by omega)]
    by_cases hsmall : getNumNewPages cfg.pool.pageSize reqs < 200
    · rw [if_pos hsmall]
      refine ⟨_, rfl, ?_⟩
      rintro (h | h)
      · cases h
      · omega
    · rw [if_neg hsmall]
      exact ⟨_, rfl, fun _ => hsame.naive out⟩

/-- For every batch, the kernel, the loop and the reference agree over every list of free pages that
suffices, and both classes hand out these slots from the pages at hand and keep the others. -/
theorem extend_sameSlots (cfg : PagedConfig) (hreqs : ∀ r ∈ reqs, r.Aligned cfg.pool.pageSize) :
    (∀ freePages, getNumNewPages cfg.pool.pageSize reqs ≤ freePages.length →
      SameAllocation cfg.pool.pageSize reqs freePages) ∧
    ∀ a numNewPages grid out, (∀ n ∈ numNewPages, n = getNumNewPages cfg.pool.pageSize reqs) →
      getNumNewPages cfg.pool.pageSize reqs ≤
        (cfg.extendMerged reqs numNewPages a).freePages.length →
      grid.Perm (List.range reqs.length) →
      ∃ slots, cfg.allocExtend grid out reqs numNewPages a =
          ({ cfg.extendMerged reqs numNewPages a with
              freePages := (cfg.extendMerged reqs numNewPages a).freePages.drop
                (getNumNewPages cfg.pool.pageSize reqs) }, .indices slots) ∧
        (cfg.cls = .default ∨ 200 ≤ getNumNewPages cfg.pool.pageSize reqs →
          slots = (perRequest cfg.pool.pageSize (ExtendReq.referenceSlots cfg.pool.pageSize) reqs
            (cfg.extendMerged reqs numNewPages a).freePages).flatten) :=
  ⟨fun _ hlen => sameSlots cfg.pool.pageSize_pos hreqs hlen,
    fun _ _ _ out hnum hlen hgrid => allocExtend_slots hreqs hnum hlen hgrid out⟩

end Extend

def fourSlotPool (cls : PagedClass) (needSort : Bool) : PagedConfig where
  cls := cls
  pool := ⟨.paged, 16, 4, Nat.succ_pos 3, (fun h => AllocatorKind.noConfusion h), needSort⟩
  paged := rfl
  npuKernel := fun _ _ out => out

/-- One request ends on its page, one goes on to two new pages, one has nothing to add. -/
def mixedBatch : List ExtendReq := [⟨2, 3, 5⟩, ⟨3, 9, 14⟩, ⟨4, 4, 11⟩]

theorem mixedBatch_aligned : ∀ r ∈ mixedBatch,
    r.Aligned (fourSlotPool .default false).pool.pageSize := by
  intro r hr
  unfold mixedBatch at hr
  simp only [mem_cons, not_mem_nil, or_false] at hr
  rcases hr with rfl | rfl | rfl
  · exact ⟨by decide, by decide, by decide⟩
  · exact ⟨by decide, by decide, by decide⟩
  · exact ⟨by decide, by decide, by decide⟩

theorem extend_sameSlots_mixed : SameAllocation 4 mixedBatch [7, 2] ∧
    (perRequest 4 (ExtendReq.referenceSlots 4) mixedBatch [7, 2]).flatten =
      [6, 15, 28, 29, 30, 31, 8] :=
  ⟨(extend_sameSlots (fourSlotPool .default false) mixedBatch_aligned).1 [7, 2] (by decide),
    by decide⟩

/-! ## Section 3: When the pages do not suffice -/

/-- A call that needs `n` pages returns `None` exactly when fewer are available, and loses none
then. -/
structure NoneExactly (cfg : PagedConfig) (a : Allocator) (call : Allocator × AllocResult)
    (n : Nat) :
    Prop where
  none_iff : call.2 = .none ↔ a.availableSize cfg.pool / cfg.pool.pageSize < n
  kept : call.2 = .none →
    (call.1.freePages ++ call.1.releasePages).Perm (a.freePages ++ a.releasePages)

/-- The lists of an allocator after the merge that a call makes before it looks. -/
structure Merges (cfg : PagedConfig) (a m : Allocator) (n : Nat) : Prop where
  perm : (m.freePages ++ m.releasePages).Perm (a.freePages ++ a.releasePages)
  le_iff : n ≤ m.freePages.length ↔ n ≤ a.availableSize cfg.pool / cfg.pool.pageSize

section Calls

variable {cfg : PagedConfig} {a m : Allocator} {n : Nat}

theorem mergeAndSortFree_perm (a : Allocator) :
    (a.mergeAndSortFree.freePages ++ a.mergeAndSortFree.releasePages).Perm
    (a.freePages ++ a.releasePages) := by
  unfold Allocator.mergeAndSortFree
  split
  · rw [append_nil]
    exact sortPages_perm _
  · exact .refl _

theorem merges_mergeFor (h : a.Tidy cfg.pool) {need : Nat} (hn : n ≤ need) :
    Merges cfg a (a.mergeFor cfg.pool need) n where
  perm := by
    unfold Allocator.mergeFor
    split
    · exact mergeAndSortFree_perm a
    · exact .refl _
  le_iff := by rw [le_mergeFor h need hn, availableSize_div]

theorem merges_always (h : a.Tidy cfg.pool) :
    Merges cfg a (if n > a.freePages.length then a.mergeAndSortFree else a) n := by
  have hguard : (if n > a.freePages.length then a.mergeAndSortFree else a) =
      a.mergeFor cfg.pool n := by
    unfold Allocator.mergeFor
    cases hsort : cfg.pool.needSort with
    | true => simp
    | false =>
      -- nothing waits on the list of released pages
      have hnil := h hsort
      simp [Allocator.mergeAndSortFree, hnil]
  rw [hguard]
  exact merges_mergeFor h le_rfl

theorem Merges.noneExactly (h : Merges cfg a m n) {call : Allocator × AllocResult}
    (hnone : n > m.freePages.length → call = (m, .none))
    (hsome : ¬n > m.freePages.length → call.2 ≠ .none) : NoneExactly cfg a call n where
  none_iff := by
    rw [← Nat.not_le, ← h.le_iff]
    constructor
    · exact fun heq hle => hsome (by omega) heq
    · exact fun hlt => by rw [hnone (by omega)]
  kept := by
    intro heq
    have hlt : n > m.freePages.length := Classical.not_not.mp fun hle => hsome hle heq
    rw [hnone hlt]
    exact h.perm

theorem alloc_noneExactly (h : a.Tidy cfg.pool) (needSize : Nat) :
    NoneExactly cfg a (cfg.alloc needSize a) (needSize / cfg.pool.pageSize) := by
  apply (merges_mergeFor h le_rfl).noneExactly
  · exact fun hlt => if_pos hlt
  · intro hle
    unfold PagedConfig.alloc
    dsimp only
    rw [if_neg hle]
    exact AllocResult.noConfusion

theorem allocExtend_noneExactly (h : a.Tidy cfg.pool) {reqs : List ExtendReq}
    {numNewPages : Option Nat} (hnum : ∀ k ∈ numNewPages, k = getNumNewPages cfg.pool.pageSize reqs)
    (grid : List Nat)
    (out : Nat → Nat) :
    NoneExactly cfg a (cfg.allocExtend grid out reqs numNewPages a)
      (getNumNewPages cfg.pool.pageSize reqs) := by
  have hle := getNumNewPages_le cfg.pool.pageSize_pos reqs
  have hmerge : Merges cfg a (cfg.extendMerged reqs numNewPages a)
      (getNumNewPages cfg.pool.pageSize reqs) := by
    unfold PagedConfig.extendMerged
    cases cfg.cls with
    | default => exact merges_mergeFor h (Nat.le_add_right_of_le hle)
    | npu =>
      dsimp only
      rw [npuNewPages_eq cfg.pool.pageSize_pos, getD_numNewPages hnum]
      exact merges_mergeFor h le_rfl
  unfold PagedConfig.allocExtend
  cases cfg.cls with
  | default =>
    dsimp only
    rw [getD_numNewPages hnum]
    apply hmerge.noneExactly
    · exact fun hlt => if_pos hlt
    · intro hge
      rw [if_neg hge]
      exact AllocResult.noConfusion
  | npu =>
    dsimp only
    rw [npuNewPages_eq cfg.pool.pageSize_pos, getD_numNewPages hnum]
    apply hmerge.noneExactly
    · exact fun hlt => if_pos hlt
    · intro hge
      rw [if_neg hge]
      exact AllocResult.noConfusion

theorem allocDecode_noneExactly (h : a.Tidy cfg.pool) (hps : 1 < cfg.pool.pageSize)
    {reqs : List ExtendReq} (hreqs : ∀ r ∈ reqs, r.seqLen = r.prefixLen + 1) :
    NoneExactly cfg a (cfg.allocDecode reqs a) (getNumNewPages cfg.pool.pageSize reqs) := by
  rw [← (perRequest_decode hps hreqs).1]
  unfold PagedConfig.allocDecode
  cases cfg.cls with
  | default =>
    apply (merges_mergeFor h (getNumNewPagesDecode_le reqs)).noneExactly
    · exact fun hlt => if_pos hlt
    · intro hle
      dsimp only
      rw [if_neg hle]
      exact AllocResult.noConfusion
  | npu =>
    have hmerge : Merges cfg a _ (getNumNewPagesDecode cfg.pool.pageSize reqs) := merges_always h
    dsimp only
    generalize (if getNumNewPagesDecode cfg.pool.pageSize reqs > a.freePages.length then
      a.mergeAndSortFree else a) = m at hmerge ⊢
    apply hmerge.noneExactly
    · exact fun hlt => if_pos hlt
    · intro hle
      rw [if_neg hle]
      split
      · exact AllocResult.noConfusion
      · split
        · exact AllocResult.noConfusion
        · exact AllocResult.noConfusion

theorem cumsum_sub_le (need : List Nat) (i : Nat) : cumsum need i - need.getD i 0 ≤ need.sum := by
  refine (Nat.sub_le _ _).trans ?_
  have hparts : need.sum = (need.take (i + 1)).sum + (need.drop (i + 1)).sum := by
    rw [← sum_append, take_append_drop]
  rw [cumsum]
  omega

theorem start_beyond_iff (need : List Nat) :
    (∃ i < need.length, need.sum ≤ cumsum need i - need.getD i 0) ↔ need.getLast? = some 0 := by
  have hstart : ∀ i, i < need.length → cumsum need i - need.getD i 0 = (need.take i).sum := by
    intro i hi
    rw [cumsum, take_succ_eq_append_getElem hi, sum_append, sum_singleton,
      getD_eq_getElem _ _ hi, Nat.add_sub_cancel]
  have hparts : ∀ i, need.sum = (need.take i).sum + (need.drop i).sum := by
    intro i
    rw [← sum_append, take_append_drop]
  constructor
  · rintro ⟨i, hi, hle⟩
    rw [hstart i hi, hparts i] at hle
    have hzero : (need.drop i).sum = 0 := by omega
    have hne : need.drop i ≠ [] := by
      rw [Ne, drop_eq_nil_iff]
      omega
    have hlast := sum_eq_zero_iff.mp hzero _ (getLast_mem hne)
    rw [← take_append_drop i need, getLast?_append_of_ne_nil _ hne,
      getLast?_eq_getLast_of_ne_nil hne, hlast]
  · intro hlast
    obtain ⟨front, rfl⟩ := getLast?_eq_some_iff.mp hlast
    refine ⟨front.length, by simp, ?_⟩
    rw [hstart _ (by simp), take_left, sum_append]
    simp

/-- The pages at hand when the NPU class decodes: the released ones count once the free ones fall
short. -/
def pagesAtHand (a : Allocator) (n : Nat) : Nat :=
  if n > a.freePages.length then a.freePages.length + a.releasePages.length else a.freePages.length

/-- The NPU class indexes a page behind the last one: the batch takes every page at hand and ends
with a request that needs none. -/
def Overruns (cfg : PagedConfig) (a : Allocator) (reqs : List ExtendReq) : Prop :=
  getNumNewPagesDecode cfg.pool.pageSize reqs ≠ 0 ∧
    pagesAtHand a (getNumNewPagesDecode cfg.pool.pageSize reqs) =
      getNumNewPagesDecode cfg.pool.pageSize reqs ∧
    ∃ r, reqs.getLast? = some r ∧ r.seqLen % cfg.pool.pageSize ≠ 1

theorem allocDecode_npu (hcls : cfg.cls = .npu) (reqs : List ExtendReq)
    (hfits : getNumNewPagesDecode cfg.pool.pageSize reqs ≤
      a.availableSize cfg.pool / cfg.pool.pageSize) :
    ((cfg.allocDecode reqs a).2 = .indexError ↔ Overruns cfg a reqs) ∧
      ((∃ slots, (cfg.allocDecode reqs a).2 = .indices slots) ↔ ¬Overruns cfg a reqs) := by
  rw [availableSize_div] at hfits
  have hhand : (if getNumNewPagesDecode cfg.pool.pageSize reqs > a.freePages.length then
      a.mergeAndSortFree else a).freePages.length =
        pagesAtHand a (getNumNewPagesDecode cfg.pool.pageSize reqs) := by
    unfold pagesAtHand
    split
    · unfold Allocator.mergeAndSortFree
      split
      · rw [(sortPages_perm _).length_eq, length_append]
      · omega
    · rfl
  have hle : getNumNewPagesDecode cfg.pool.pageSize reqs ≤
      pagesAtHand a (getNumNewPagesDecode cfg.pool.pageSize reqs) := by
    unfold pagesAtHand
    split
    · exact hfits
    · omega
  have hneed : getNumNewPagesDecode cfg.pool.pageSize reqs =
      (reqs.map fun r => if r.seqLen % cfg.pool.pageSize = 1 then 1 else 0).sum := rfl
  have hlast : (reqs.map fun r => if r.seqLen % cfg.pool.pageSize = 1 then 1 else 0).getLast? =
    some 0 ↔ ∃ r, reqs.getLast? = some r ∧ r.seqLen % cfg.pool.pageSize ≠ 1 := by
    rw [getLast?_map, Option.map_eq_some_iff]
    simp
  unfold PagedConfig.allocDecode Overruns
  simp only [hcls]
  generalize (if getNumNewPagesDecode cfg.pool.pageSize reqs > a.freePages.length then
    a.mergeAndSortFree else a) = m at hhand ⊢
  rw [← hhand] at hle ⊢
  rw [if_neg (Nat.not_lt.mpr hle)]
  by_cases hzero : getNumNewPagesDecode cfg.pool.pageSize reqs = 0
  · simp [hzero]
  · rw [if_neg hzero]
    -- a start behind the pages is one behind the new pages, and these are all there are
    have hany : ((List.range reqs.length).map fun i =>
        cumsum (reqs.map fun r => if r.seqLen % cfg.pool.pageSize = 1 then 1 else 0) i -
          (reqs.map fun r => if r.seqLen % cfg.pool.pageSize = 1 then 1 else 0).getD i 0).any
          (fun start => decide (m.freePages.length ≤ start)) = true ↔
        m.freePages.length = getNumNewPagesDecode cfg.pool.pageSize reqs ∧
          ∃ r, reqs.getLast? = some r ∧ r.seqLen % cfg.pool.pageSize ≠ 1 := by
      rw [← hlast, ← start_beyond_iff, ← hneed]
      simp only [any_map, any_eq_true, mem_range, Function.comp_apply, decide_eq_true_eq,
        length_map]
      constructor
      · rintro ⟨i, hi, hbeyond⟩
        have hstart :=
          cumsum_sub_le (reqs.map fun r => if r.seqLen % cfg.pool.pageSize = 1 then 1 else 0) i
        rw [← hneed] at hstart
        exact ⟨by omega, i, hi, by omega⟩
      · rintro ⟨heq, i, hi, hbeyond⟩
        exact ⟨i, hi, by omega⟩
    split
    · next hraise => simp [hzero, hany.mp hraise]
    · next hserve =>
      rw [hany] at hserve
      simp only [reduceCtorEq, false_iff, AllocResult.indices.injEq, exists_eq', true_iff]
      exact ⟨fun h => hserve h.2, fun h => hserve h.2⟩

end Calls

/-! ## Section 4: Runs -/

/-- The calls on an allocator. -/
inductive PagedOp where
  | alloc (needSize : Nat)
  | allocExtend (grid : List Nat) (out : Nat → Nat) (reqs : List ExtendReq)
      (numNewPages : Option Nat)
  | allocDecode (reqs : List ExtendReq)
  | free (freeIndex : List Nat)
  | freeGroupBegin
  | freeGroupEnd
  | mergeAndSortFree
  | backupState
  | restoreState
  | clear

/-- An allocator with the state that was last backed up. -/
structure PagedState where
  allocator : Allocator
  saved : Option (List Nat × List Nat)
deriving DecidableEq, Repr

namespace PagedState

def clear (cfg : PagedConfig) : PagedState := ⟨Allocator.clear cfg.pool, none⟩

/-- One call. A restore needs a state that was backed up. -/
def step (cfg : PagedConfig) (s : PagedState) : PagedOp → Option PagedState
  | .alloc needSize => some { s with allocator := (cfg.alloc needSize s.allocator).1 }
  | .allocExtend grid out reqs numNewPages =>
    some { s with allocator := (cfg.allocExtend grid out reqs numNewPages s.allocator).1 }
  | .allocDecode reqs => some { s with allocator := (cfg.allocDecode reqs s.allocator).1 }
  | .free freeIndex => some { s with allocator := s.allocator.free cfg.pool freeIndex }
  | .freeGroupBegin => some { s with allocator := s.allocator.freeGroupBegin }
  | .freeGroupEnd => some { s with allocator := s.allocator.freeGroupEnd cfg.pool }
  | .mergeAndSortFree => some { s with allocator := s.allocator.mergeAndSortFree }
  | .backupState => some { s with saved := some (s.allocator.freePages, s.allocator.releasePages) }
  | .restoreState => s.saved.map fun state =>
      { s with allocator := { s.allocator with freePages := state.1, releasePages := state.2 } }
  | .clear => some { s with allocator := Allocator.clear cfg.pool }

/-- Without sorting nothing waits, and nothing waited when the state was backed up. -/
structure Sorted (cfg : PagedConfig) (s : PagedState) : Prop where
  tidy : s.allocator.Tidy cfg.pool
  saved : ∀ state ∈ s.saved, cfg.pool.needSort = false → state.2 = []

section Steps

variable {cfg : PagedConfig} {a : Allocator}

section

variable (h : a.Tidy cfg.pool)
include h

theorem tidy_mergeAndSortFree : a.mergeAndSortFree.Tidy cfg.pool := by
  intro hsort
  unfold Allocator.mergeAndSortFree
  split
  · rfl
  · exact h hsort

theorem tidy_mergeFor (need : Nat) : (a.mergeFor cfg.pool need).Tidy cfg.pool := by
  unfold Allocator.mergeFor
  split
  · exact tidy_mergeAndSortFree h
  · exact h

theorem tidy_alloc (needSize : Nat) : (cfg.alloc needSize a).1.Tidy cfg.pool := by
  have hmerge := tidy_mergeFor h (needSize / cfg.pool.pageSize)
  unfold PagedConfig.alloc
  dsimp only
  split
  · exact hmerge
  · exact hmerge

theorem tidy_allocExtend (grid : List Nat) (out : Nat → Nat) (reqs : List ExtendReq)
    (numNewPages : Option Nat) : (cfg.allocExtend grid out reqs numNewPages a).1.Tidy cfg.pool := by
  have hmerge : (cfg.extendMerged reqs numNewPages a).Tidy cfg.pool := by
    unfold PagedConfig.extendMerged
    split
    · exact tidy_mergeFor h _
    · exact tidy_mergeFor h _
  unfold PagedConfig.allocExtend
  cases cfg.cls with
  | default =>
    dsimp only
    split
    · exact hmerge
    · exact hmerge
  | npu =>
    dsimp only
    split
    · exact hmerge
    · exact hmerge

theorem tidy_allocDecode (reqs : List ExtendReq) :
    (cfg.allocDecode reqs a).1.Tidy cfg.pool := by
  unfold PagedConfig.allocDecode
  cases cfg.cls with
  | default =>
    have hmerge := tidy_mergeFor h reqs.length
    dsimp only
    split
    · exact hmerge
    · exact hmerge
  | npu =>
    have hmerge : (if getNumNewPagesDecode cfg.pool.pageSize reqs > a.freePages.length then
        a.mergeAndSortFree else a).Tidy cfg.pool := by
      split
      · exact tidy_mergeAndSortFree h
      · exact h
    dsimp only
    generalize (if getNumNewPagesDecode cfg.pool.pageSize reqs > a.freePages.length then
      a.mergeAndSortFree else a) = m at hmerge ⊢
    split
    · exact hmerge
    · split
      · exact hmerge
      · split
        · exact hmerge
        · exact hmerge

theorem tidy_freeGroupEnd : (a.freeGroupEnd cfg.pool).Tidy cfg.pool := by
  have hout : ({ a with inFreeGroup := false } : Allocator).Tidy cfg.pool := h
  unfold Allocator.freeGroupEnd
  dsimp only
  split
  · exact hout.free _
  · exact hout

end

theorem Sorted.step {s t : PagedState} {op : PagedOp} (h : s.Sorted cfg)
    (hstep : s.step cfg op = some t) :
    t.Sorted cfg := by
  cases op with
  | alloc needSize =>
    rw [← Option.some.inj hstep]
    exact ⟨tidy_alloc h.tidy needSize, h.saved⟩
  | allocExtend grid out reqs numNewPages =>
    rw [← Option.some.inj hstep]
    exact ⟨tidy_allocExtend h.tidy grid out reqs numNewPages, h.saved⟩
  | allocDecode reqs =>
    rw [← Option.some.inj hstep]
    exact ⟨tidy_allocDecode h.tidy reqs, h.saved⟩
  | free freeIndex =>
    rw [← Option.some.inj hstep]
    exact ⟨h.tidy.free freeIndex, h.saved⟩
  | freeGroupBegin =>
    rw [← Option.some.inj hstep]
    exact ⟨h.tidy, h.saved⟩
  | freeGroupEnd =>
    rw [← Option.some.inj hstep]
    exact ⟨tidy_freeGroupEnd h.tidy, h.saved⟩
  | mergeAndSortFree =>
    rw [← Option.some.inj hstep]
    exact ⟨tidy_mergeAndSortFree h.tidy, h.saved⟩
  | backupState =>
    rw [← Option.some.inj hstep]
    refine ⟨h.tidy, ?_⟩
    intro state hstate hsort
    rw [← Option.some.inj hstate]
    exact h.tidy hsort
  | restoreState =>
    obtain ⟨state, hsaved, rfl⟩ := Option.map_eq_some_iff.mp hstep
    exact ⟨h.saved state hsaved, h.saved⟩
  | clear =>
    rw [← Option.some.inj hstep]
    exact ⟨fun _ => rfl, h.saved⟩

end Steps

/-- The calls on an allocator are refused exactly when its pages do not suffice. A decode batch
extends each request by one token; with pages of one slot the callers do not decode through the
allocator. Of the batches that fit, the NPU class serves those that do not index a page behind the
last one. -/
structure Honest (cfg : PagedConfig) (a : Allocator) : Prop where
  alloc : ∀ needSize, NoneExactly cfg a (cfg.alloc needSize a) (needSize / cfg.pool.pageSize)
  allocExtend : ∀ grid out reqs numNewPages, (∀ r ∈ reqs, r.prefixLen ≤ r.seqLen) →
    (∀ n ∈ numNewPages, n = getNumNewPages cfg.pool.pageSize reqs) →
    NoneExactly cfg a (cfg.allocExtend grid out reqs numNewPages a)
    (getNumNewPages cfg.pool.pageSize reqs)
  allocDecode : 1 < cfg.pool.pageSize → ∀ reqs, (∀ r ∈ reqs, r.seqLen = r.prefixLen + 1) →
    NoneExactly cfg a (cfg.allocDecode reqs a) (getNumNewPages cfg.pool.pageSize reqs)
  decodeRaises : cfg.cls = .npu → ∀ reqs,
    getNumNewPagesDecode cfg.pool.pageSize reqs ≤ a.availableSize cfg.pool / cfg.pool.pageSize →
    ((cfg.allocDecode reqs a).2 = .indexError ↔ Overruns cfg a reqs) ∧
      ((∃ slots, (cfg.allocDecode reqs a).2 = .indices slots) ↔ ¬Overruns cfg a reqs)

theorem run_honest (cfg : PagedConfig) {ops : List PagedOp} {s : PagedState}
    (hrun : run (step cfg) (clear cfg) ops = some s) : Honest cfg s.allocator := by
  have hinit : (clear cfg).Sorted cfg := ⟨fun _ => rfl, fun _ h => by cases h⟩
  have hs : s.Sorted cfg := invariant_of_run (Sorted cfg) (P := fun _ _ => True)
    (fun _ _ _ h _ hstep => h.step hstep) hinit (Along.of_forall (fun _ _ => trivial) _) hrun
  exact
    { alloc := alloc_noneExactly hs.tidy
      allocExtend := fun grid out _ _ _ hnum => allocExtend_noneExactly hs.tidy hnum grid out
      allocDecode := fun hps _ hreqs => allocDecode_noneExactly hs.tidy hps hreqs
      decodeRaises := allocDecode_npu }

/-- A page waits on the released list when the pool is asked for all it has. -/
theorem run_honest_released : Honest (fourSlotPool .npu true) ⟨[3, 4], [1], false, []⟩ :=
  run_honest (fourSlotPool .npu true)
    (show run (step (fourSlotPool .npu true)) (clear (fourSlotPool .npu true)) [.alloc 8,
      .free [4, 6]] =
      some ⟨⟨[3, 4], [1], false, []⟩, none⟩ from by decide +kernel)

end PagedState

end Sglang.MemCache
