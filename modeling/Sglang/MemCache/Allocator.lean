import Sglang.Lib.PageRow
import Mathlib.Data.List.Sort

/-!
# KV Pool Allocators

Model of `TokenToKVPoolAllocator` and `PagedTokenToKVPoolAllocator`
(`mem_cache/allocator/base.py`, `token.py`, `paged.py`) with the kernels `alloc_extend_kernel` and
`alloc_decode_kernel` (`mem_cache/triton_ops/allocator.py`).

## Conventions

- Indices are lists of slots. Page 0 is the padded page and is never handed out.
- An allocation returns the new state and `none` where the source returns `None`; the state may
  have changed even then, because the released pages may have been merged.
- A kernel returns the indices request by request; the source's `out_indices` is their
  concatenation.
-/

namespace Sglang.MemCache

open List Function
open Lib

/-! ## Section 1: State -/

/-- The two allocator classes. -/
inductive AllocatorKind where
  | token | paged
deriving DecidableEq, Repr

/-- Constructor parameters. -/
structure PoolConfig where
  kind : AllocatorKind
  size : Nat
  pageSize : Nat
  pageSize_pos : 0 < pageSize
  /-- `TokenToKVPoolAllocator` passes page size 1 to its base class. -/
  token_page : kind = .token → pageSize = 1
  needSort : Bool := false

/-- The mutable state. `inFreeGroup` is the negation of `is_not_in_free_group`. -/
structure Allocator where
  freePages : List Nat
  releasePages : List Nat
  inFreeGroup : Bool
  freeGroup : List (List Nat)
deriving DecidableEq, Repr

namespace PoolConfig

def numPages (cfg : PoolConfig) : Nat :=
  match cfg.kind with
  | .token => cfg.size
  | .paged => cfg.size / cfg.pageSize

end PoolConfig

/-- `torch.sort`. -/
def sortPages {α : Type} [LinearOrder α] (pages : List α) : List α := pages.insertionSort (· ≤ ·)

/-- `torch.unique`: sorted, without repetition. -/
def unique (pages : List Nat) : List Nat := sortPages pages.dedup

namespace Allocator

def clear (cfg : PoolConfig) : Allocator where
  freePages := List.range' 1 cfg.numPages
  releasePages := []
  inFreeGroup := false
  freeGroup := []

def availableSize (cfg : PoolConfig) (a : Allocator) : Nat :=
  (a.freePages.length + a.releasePages.length) * cfg.pageSize

def mergeAndSortFree (a : Allocator) : Allocator :=
  if 0 < a.releasePages.length then
    { a with freePages := sortPages (a.freePages ++ a.releasePages), releasePages := [] }
  else a

/-- The guard of every allocation: merge when `need` pages are not at hand. -/
def mergeFor (cfg : PoolConfig) (need : Nat) (a : Allocator) : Allocator :=
  if cfg.needSort ∧ need > a.freePages.length then a.mergeAndSortFree else a

/-- The pages given back by `free`. -/
def freedPages (cfg : PoolConfig) (freeIndex : List Nat) : List Nat :=
  match cfg.kind with
  | .token => freeIndex
  | .paged => unique (freeIndex.map (· / cfg.pageSize))

/-- Put pages back on a list: at the end for tokens, in front for pages. -/
def giveBack (cfg : PoolConfig) (a : Allocator) (pages : List Nat) : Allocator :=
  match cfg.kind, cfg.needSort with
  | .token, true => { a with releasePages := a.releasePages ++ pages }
  | .token, false => { a with freePages := a.freePages ++ pages }
  | .paged, true => { a with releasePages := pages ++ a.releasePages }
  | .paged, false => { a with freePages := pages ++ a.freePages }

def free (cfg : PoolConfig) (a : Allocator) (freeIndex : List Nat) : Allocator :=
  if freeIndex = [] then a
  else if a.inFreeGroup then { a with freeGroup := a.freeGroup ++ [freeIndex] }
  else a.giveBack cfg (freedPages cfg freeIndex)

def freeGroupBegin (a : Allocator) : Allocator := { a with inFreeGroup := true, freeGroup := [] }

def freeGroupEnd (cfg : PoolConfig) (a : Allocator) : Allocator :=
  let a := { a with inFreeGroup := false }
  if a.freeGroup ≠ [] then a.free cfg a.freeGroup.flatten else a

/-- Calls of `free` in a row. -/
def freeAll (cfg : PoolConfig) (a : Allocator) (freed : List (List Nat)) : Allocator :=
  freed.foldl (free cfg) a

/-! ## Section 2: Allocation -/

def alloc (cfg : PoolConfig) (a : Allocator) (needSize : Nat) : Allocator × Option (List Nat) :=
  let numPages :=
    match cfg.kind with
    | .token => needSize
    | .paged => needSize / cfg.pageSize
  let a := a.mergeFor cfg numPages
  if numPages > a.freePages.length then (a, none)
  else
    let outPages := a.freePages.take numPages
    ({ a with freePages := a.freePages.drop numPages },
      match cfg.kind with
      | .token => some outPages
      | .paged => some (expand cfg.pageSize outPages))

/-- One request of a batched allocation. `lastLoc` is `-1` for an empty prefix. -/
structure ExtendReq where
  prefixLen : Nat
  seqLen : Nat
  lastLoc : Int
deriving DecidableEq, Repr

namespace ExtendReq

/-- Pages the request needs beyond those under its prefix. -/
def newPages (ps : Nat) (r : ExtendReq) : Nat := pageCount ps r.seqLen - pageCount ps r.prefixLen

/-- `alloc_extend_kernel` for one request: fill the old partial page, then whole new pages, then
the new partial page. -/
def extendSlots (ps : Nat) (r : ExtendReq) (pages : List Nat) : List Nat :=
  let aligned := pageCount ps r.prefixLen * ps
  let numPart1 := min r.seqLen aligned - r.prefixLen
  let part1 := (List.range numPart1).map fun j : Nat => (r.lastLoc + 1 + j).toNat
  if r.prefixLen + numPart1 = r.seqLen then part1
  else
    let numPart2 := r.seqLen / ps * ps - aligned
    let part2 := (List.range numPart2).map fun j => pages.getD (j / ps) 0 * ps + j % ps
    if r.prefixLen + numPart1 + numPart2 = r.seqLen then part1 ++ part2
    else
      let numPart3 := r.seqLen - r.seqLen / ps * ps
      let start := pages.getD (r.newPages ps - 1) 0
      part1 ++ part2 ++ (List.range numPart3).map fun j => start * ps + j

/-- `alloc_decode_kernel` for one request. -/
def decodeSlot (ps : Nat) (r : ExtendReq) (pages : List Nat) : Nat :=
  if r.newPages ps = 0 then (r.lastLoc + 1).toNat else pages.getD 0 0 * ps

end ExtendReq

def perRequest (ps : Nat) (kernel : ExtendReq → List Nat → List Nat) :
    List ExtendReq → List Nat → List (List Nat)
  | [], _ => []
  | r :: rs, pages =>
    kernel r (pages.take (r.newPages ps)) :: perRequest ps kernel rs (pages.drop (r.newPages ps))

def getNumNewPages (ps : Nat) (reqs : List ExtendReq) : Nat :=
  (reqs.map (ExtendReq.newPages ps)).sum

/-- `get_num_new_pages` with `decode=True`. -/
def getNumNewPagesDecode (ps : Nat) (reqs : List ExtendReq) : Nat :=
  (reqs.map fun r => if r.seqLen % ps = 1 then 1 else 0).sum

def allocExtend (cfg : PoolConfig) (a : Allocator) (reqs : List ExtendReq) :
    Allocator × Option (List (List Nat)) :=
  let extendNumTokens := (reqs.map fun r => r.seqLen - r.prefixLen).sum
  let a := a.mergeFor cfg (extendNumTokens / cfg.pageSize + reqs.length + 1)
  let outIndices := perRequest cfg.pageSize (ExtendReq.extendSlots cfg.pageSize) reqs a.freePages
  let numNewPages := getNumNewPages cfg.pageSize reqs
  if numNewPages > a.freePages.length then (a, none)
  else ({ a with freePages := a.freePages.drop numNewPages }, some outIndices)

def allocDecode (cfg : PoolConfig) (a : Allocator) (reqs : List ExtendReq) :
    Allocator × Option (List (List Nat)) :=
  let a := a.mergeFor cfg reqs.length
  let outIndices := perRequest cfg.pageSize
    (fun r pages => [r.decodeSlot cfg.pageSize pages]) reqs a.freePages
  let numNewPages := getNumNewPagesDecode cfg.pageSize reqs
  if numNewPages > a.freePages.length then (a, none)
  else ({ a with freePages := a.freePages.drop numNewPages }, some outIndices)

/-! ## Section 3: Pages at hand -/

variable {cfg : PoolConfig}

/-- The pages the allocator holds: free, released, and waiting for the end of a free group. -/
def pages (cfg : PoolConfig) (a : Allocator) : List Nat :=
  a.freePages ++ a.releasePages ++
    if a.inFreeGroup then a.freeGroup.flatMap (freedPages cfg) else []

theorem sortPages_perm {α : Type} [LinearOrder α] (l : List α) :
    (sortPages l).Perm l := perm_insertionSort _ _

theorem unique_perm (l : List Nat) : (unique l).Perm l.dedup := sortPages_perm _

theorem freedPages_perm {idx pgs : List Nat} (h : RowPages cfg.pageSize idx pgs)
    (hnodup : pgs.Nodup) : (freedPages cfg idx).Perm pgs := by
  unfold freedPages
  split
  · next hkind =>
    have hone := cfg.token_page hkind
    have hexp := h.eq_expand cfg.pageSize_pos (by rw [hone]; exact Nat.one_dvd _)
    rw [hone, expand_one] at hexp
    rw [hexp]
  · exact (unique_perm _).trans (h.pages_perm cfg.pageSize_pos hnodup)

theorem pages_mergeFor (need : Nat) (a : Allocator) :
    ((a.mergeFor cfg need).pages cfg).Perm (a.pages cfg) ∧
      (a.mergeFor cfg need).inFreeGroup = a.inFreeGroup := by
  unfold mergeFor mergeAndSortFree
  split
  · split
    · refine ⟨?_, rfl⟩
      unfold pages
      refine List.Perm.append_right _ ?_
      rw [append_nil]
      exact sortPages_perm _
    · exact ⟨.refl _, rfl⟩
  · exact ⟨.refl _, rfl⟩

variable {a : Allocator} {ps : Nat} {rows : List (List Nat)}

theorem pages_giveBack (hgroup : a.inFreeGroup = false) (F : List Nat) :
    ((a.giveBack cfg F).pages cfg).Perm (a.freePages ++ (a.releasePages ++ F)) ∧
      (a.giveBack cfg F).inFreeGroup = false := by
  unfold giveBack
  split <;> refine ⟨?_, hgroup⟩ <;>
    simp only [pages, hgroup, Bool.false_eq_true, if_false, append_nil, append_assoc]
  · exact .refl _
  · exact List.Perm.append_left _ perm_append_comm
  · exact List.Perm.append_left _ perm_append_comm
  · refine perm_append_comm.trans ?_
    rw [append_assoc]

theorem pages_free_of_perm {idx F : List Nat} (hgroup : a.inFreeGroup = false)
    (hF : (freedPages cfg idx).Perm F) :
    ((a.free cfg idx).pages cfg).Perm (a.pages cfg ++ F) ∧
      (a.free cfg idx).inFreeGroup = false := by
  unfold free
  split
  · next hnil =>
    have hempty : freedPages cfg [] = [] := by
      unfold freedPages
      cases cfg.kind <;> rfl
    rw [hnil, hempty] at hF
    rw [nil_perm.mp hF, append_nil]
    exact ⟨.refl _, hgroup⟩
  · rw [hgroup, if_neg (by simp)]
    obtain ⟨hgive, hout⟩ := pages_giveBack hgroup (freedPages cfg idx)
    refine ⟨hgive.trans ?_, hout⟩
    simp only [pages, hgroup, Bool.false_eq_true, if_false, append_nil, append_assoc]
    exact List.Perm.append_left _ (List.Perm.append_left _ hF)

theorem pages_free {idx pgs : List Nat} (h : RowPages cfg.pageSize idx pgs)
    (hnodup : pgs.Nodup) :
    ((a.free cfg idx).pages cfg).Perm (a.pages cfg ++ pgs) ∧
      (a.free cfg idx).inFreeGroup = a.inFreeGroup := by
  have hperm := freedPages_perm h hnodup
  cases hgroup : a.inFreeGroup with
  | false => exact pages_free_of_perm hgroup hperm
  | true =>
    unfold free
    split
    · next hnil =>
      subst hnil
      have hpgs : pgs = [] := by
        rw [← length_eq_zero_iff, h.count]
        exact RowPages.nil.count.symm
      simp [hpgs, hgroup]
    · rw [hgroup]
      refine ⟨?_, rfl⟩
      simp only [pages, hgroup, if_true, flatMap_append, flatMap_singleton,
        append_assoc]
      exact List.Perm.append_left _ (List.Perm.append_left _ (List.Perm.append_left _ hperm))

theorem pages_freeGroupEnd (hgroup : a.inFreeGroup = true)
    (hnodup : (a.pages cfg).Nodup) :
    ((a.freeGroupEnd cfg).pages cfg).Perm (a.pages cfg) ∧
      (a.freeGroupEnd cfg).inFreeGroup = false := by
  have hpend :
      (freedPages cfg a.freeGroup.flatten).Perm (a.freeGroup.flatMap (freedPages cfg)) := by
    have hnd : (a.freeGroup.flatMap (freedPages cfg)).Nodup := by
      unfold pages at hnodup
      rw [hgroup, if_pos rfl] at hnodup
      exact (nodup_append.mp hnodup).2.1
    unfold freedPages at hnd ⊢
    cases hkind : cfg.kind with
    | token =>
      simp only [flatten_eq_flatMap]
      exact .refl _
    | paged =>
      rw [hkind] at hnd
      dsimp only at hnd ⊢
      refine (unique_perm _).trans ((perm_ext_iff_of_nodup (nodup_dedup _) hnd).mpr ?_)
      intro p
      simp only [mem_dedup, mem_map, mem_flatten, mem_flatMap,
        (unique_perm _).mem_iff]
      constructor
      · rintro ⟨x, ⟨l, hl, hx⟩, rfl⟩
        exact ⟨l, hl, x, hx, rfl⟩
      · rintro ⟨l, hl, x, hx, rfl⟩
        exact ⟨x, ⟨l, hl, hx⟩, rfl⟩
  have hpages : a.pages cfg = a.freePages ++
      (a.releasePages ++ a.freeGroup.flatMap (freedPages cfg)) := by
    simp [pages, hgroup, append_assoc]
  rw [hpages]
  have hnil : a.freeGroup.flatten = [] → a.freeGroup.flatMap (freedPages cfg) = [] := by
    intro h
    refine eq_nil_of_length_eq_zero ?_
    rw [← hpend.length_eq, h]
    unfold freedPages
    cases cfg.kind <;> rfl
  unfold freeGroupEnd free
  dsimp only
  by_cases hne : a.freeGroup = []
  · simp [hne, pages]
  rw [if_pos hne]
  by_cases hflat : a.freeGroup.flatten = []
  · rw [if_pos hflat]
    refine ⟨?_, rfl⟩
    simp [pages, hnil hflat]
  · rw [if_neg hflat, if_neg (by simp)]
    obtain ⟨hgive, hout⟩ := pages_giveBack (a := { a with inFreeGroup := false }) rfl
      (freedPages cfg a.freeGroup.flatten)
    exact ⟨hgive.trans (List.Perm.append_left _ (List.Perm.append_left _ hpend)), hout⟩

/-! ## Section 4: Allocations take pages -/

theorem pages_takePages (a : Allocator) (n : Nat) :
    a.pages cfg = a.freePages.take n ++ ({ a with freePages := a.freePages.drop n }).pages cfg := by
  simp only [pages, ← append_assoc, take_append_drop]

/-- `alloc` returns whole pages, or leaves the pages at hand alone. -/
theorem alloc_spec (a : Allocator) {k : Nat} :
    ∃ a', a'.inFreeGroup = a.inFreeGroup ∧
      ((a.alloc cfg (k * cfg.pageSize) = (a', none) ∧ (a'.pages cfg).Perm (a.pages cfg)) ∨
        ∃ pgs, pgs.length = k ∧
          a.alloc cfg (k * cfg.pageSize) = (a', some (expand cfg.pageSize pgs)) ∧
          (pgs ++ a'.pages cfg).Perm (a.pages cfg)) := by
  have hnum : (match cfg.kind with
      | .token => k * cfg.pageSize
      | .paged => k * cfg.pageSize / cfg.pageSize) = k := by
    cases hkind : cfg.kind with
    | token => simp [cfg.token_page hkind]
    | paged => exact Nat.mul_div_cancel _ cfg.pageSize_pos
  obtain ⟨hmerge, hgroup⟩ := pages_mergeFor k a
  unfold alloc
  dsimp only
  rw [hnum]
  generalize a.mergeFor cfg k = m at hmerge hgroup
  split
  · exact ⟨m, hgroup, .inl ⟨rfl, hmerge⟩⟩
  · next hlen =>
    refine ⟨{ m with freePages := m.freePages.drop k }, hgroup,
      .inr ⟨m.freePages.take k, ?_, ?_, ?_⟩⟩
    · rw [length_take]
      omega
    · cases hkind : cfg.kind with
      | token => simp [cfg.token_page hkind, expand_one]
      | paged => rfl
    · rw [← pages_takePages]
      exact hmerge

/-- `get_last_loc`: the slot at the end of a row. -/
def lastLoc (row : List Nat) : Int :=
  match row.getLast? with
  | none => -1
  | some l => l

section Kernels

variable {ps : Nat} {row pgs newPgs : List Nat} {r : ExtendReq}

theorem rowOf_continue (hps : 0 < ps) (h : RowPages ps row pgs) {n : Nat} (hle : row.length ≤ n) :
    rowOf ps (pgs ++ newPgs) n = row ++
      (List.range (n - row.length)).map fun j => slotAt ps (pgs ++ newPgs) (row.length + j) := by
  conv_lhs => rw [show n = row.length + (n - row.length) by omega, rowOf_add,
    rowOf_append_left hps (h.length_le hps), ← h.row_eq]

theorem part1_eq (hps : 0 < ps) (h : RowPages ps row pgs) {n : Nat}
    (hn : row.length + n ≤ pageCount ps row.length * ps) :
    ((List.range n).map fun j : Nat => (lastLoc row + 1 + j).toNat) =
      (List.range n).map fun j => slotAt ps (pgs ++ newPgs) (row.length + j) := by
  refine map_congr_left fun j hj => ?_
  have hj := mem_range.mp hj
  have hne : row ≠ [] := by
    rintro rfl
    have hz : ([] : List Nat).length = pageCount ps ([] : List Nat).length := RowPages.nil.count
    simp only [length_nil] at hz hn
    rw [← hz] at hn
    omega
  have hpos := length_pos_of_ne_nil hne
  have hold : slotAt ps (pgs ++ newPgs) (row.length + j) = slotAt ps pgs (row.length + j) := by
    refine slotAt_append_left ?_
    rw [Nat.div_lt_iff_lt_mul hps, h.count]
    omega
  rw [hold, RowPages.slotAt_next hps hpos (by omega), lastLoc, h.getLast hne]
  dsimp only
  omega

/-- `alloc_extend_kernel` continues the row of its request over the new pages. -/
theorem extendSlots_row (newPgs : List Nat) (hps : 0 < ps) (h : RowPages ps row pgs)
    (hpre : r.prefixLen = row.length) (hle : r.prefixLen ≤ r.seqLen)
    (hlast : r.lastLoc = lastLoc row) :
    row ++ r.extendSlots ps newPgs = rowOf ps (pgs ++ newPgs) r.seqLen := by
  rw [hpre] at hle
  rw [rowOf_continue hps h hle]
  refine congrArg _ ?_
  have hA : pageCount ps row.length * ps = pgs.length * ps := by rw [h.count]
  have hrow := h.length_le hps
  unfold ExtendReq.extendSlots
  rw [hpre, hlast]
  dsimp only
  by_cases hshort : r.seqLen ≤ pageCount ps row.length * ps
  · -- everything fits on the old pages
    rw [min_eq_left hshort, if_pos (by omega)]
    exact part1_eq hps h (by omega)
  · rw [min_eq_right (by omega), if_neg (by omega)]
    have hsplit : r.seqLen - row.length =
        pageCount ps row.length * ps - row.length + (r.seqLen - pageCount ps row.length * ps) := by
      omega
    have htail : (fun j => slotAt ps (pgs ++ newPgs)
        (row.length + (pageCount ps row.length * ps - row.length + j))) = slotAt ps newPgs := by
      funext j
      rw [← slotAt_append_right hps j]
      congr 1
      omega
    rw [hsplit, range_add, map_append, map_map]
    simp only [comp_def, htail]
    rw [part1_eq hps h (by omega)]
    -- whole new pages end at a multiple of the page size
    have hdiv := Nat.div_add_mod r.seqLen ps
    rw [Nat.mul_comm] at hdiv
    have hq : pgs.length ≤ r.seqLen / ps := by
      rw [Nat.le_div_iff_mul_le hps]
      omega
    have hwhole : r.seqLen / ps * ps - pageCount ps row.length * ps =
        (r.seqLen / ps - pgs.length) * ps := by
      rw [hA, Nat.sub_mul]
    have hmul := Nat.mul_le_mul_right ps hq
    by_cases hfull : r.seqLen % ps = 0
    · rw [if_pos (by omega)]
      refine congrArg _ ?_
      rw [show r.seqLen / ps * ps = r.seqLen by omega]
      rfl
    · rw [if_neg (by omega), append_assoc]
      refine congrArg _ ?_
      have hnew : r.newPages ps - 1 = r.seqLen / ps - pgs.length := by
        have hc : pageCount ps r.seqLen = r.seqLen / ps + 1 := by
          have := pageCount_mul_add hps (r.seqLen / ps) (r.seqLen % ps)
          rw [hdiv] at this
          have hmod := Nat.mod_lt r.seqLen hps
          have hone : pageCount ps (r.seqLen % ps) = 1 :=
            Nat.div_eq_of_lt_le (by omega) (by omega)
          rw [this, hone]
        rw [ExtendReq.newPages, hpre, hc, ← h.count]
        omega
      have hparts : r.seqLen - pageCount ps row.length * ps =
          (r.seqLen / ps - pgs.length) * ps + r.seqLen % ps := by
        rw [Nat.sub_mul, hA]
        omega
      rw [hparts, hwhole, range_add, map_append, map_map]
      congr 1
      rw [show r.seqLen - r.seqLen / ps * ps = r.seqLen % ps by omega, hnew]
      refine map_congr_left fun j hj => ?_
      have hj : j < ps := (mem_range.mp hj).trans (Nat.mod_lt _ hps)
      simp only [comp_def, slotAt]
      rw [Nat.mul_comm (r.seqLen / ps - pgs.length), Nat.mul_add_div hps, Nat.mul_add_mod,
        Nat.div_eq_of_lt hj, Nat.mod_eq_of_lt hj, Nat.add_zero]

theorem rowPages_extend (hps : 0 < ps) (h : RowPages ps row pgs) (hpre : r.prefixLen = row.length)
    (hle : r.prefixLen ≤ r.seqLen) (hlast : r.lastLoc = lastLoc row)
    (hlen : newPgs.length = r.newPages ps) :
    RowPages ps (row ++ r.extendSlots ps newPgs) (pgs ++ newPgs) := by
  have heq := extendSlots_row newPgs hps h hpre hle hlast
  have hmono : pageCount ps r.prefixLen ≤ pageCount ps r.seqLen := Nat.div_le_div_right (by omega)
  refine ⟨?_, ?_⟩
  · rw [heq, rowOf_length]
  · rw [heq, rowOf_length, length_append, hlen, ExtendReq.newPages, h.count, hpre]
    rw [hpre] at hmono
    omega

/-- With more than one slot a page, decoding is extending by one slot. -/
theorem decodeSlot_eq (hps : 1 < ps) (h : r.seqLen = r.prefixLen + 1) (newPgs : List Nat) :
    [r.decodeSlot ps newPgs] = r.extendSlots ps newPgs ∧
      r.newPages ps = if r.seqLen % ps = 1 then 1 else 0 := by
  have hpos : 0 < ps := by omega
  have hdiv := Nat.div_add_mod r.prefixLen ps
  rw [Nat.mul_comm] at hdiv
  have hlt := Nat.mod_lt r.prefixLen hpos
  -- the pages of a row that ends `R` tokens into its last page
  have hpc : ∀ R, R < ps → pageCount ps (r.prefixLen / ps * ps + R) =
      r.prefixLen / ps + if R = 0 then 0 else 1 := by
    intro R hR
    rw [pageCount_mul_add hpos]
    congr 1
    split
    · next hz =>
      rw [hz]
      exact RowPages.nil.count.symm
    · rw [pageCount]
      exact Nat.div_eq_of_lt_le (by omega) (by omega)
  have hpre := hpc (r.prefixLen % ps) hlt
  rw [hdiv] at hpre
  have hmul : (r.prefixLen / ps + 1) * ps = r.prefixLen / ps * ps + ps := by
    rw [Nat.add_mul, Nat.one_mul]
  by_cases hzero : r.prefixLen % ps = 0
  · -- the old pages are full
    have hseq := hpc 1 hps
    rw [show r.prefixLen / ps * ps + 1 = r.seqLen by omega] at hseq
    rw [if_pos hzero] at hpre
    rw [if_neg (by omega)] at hseq
    have hmod : r.seqLen % ps = 1 := by
      rw [h, Nat.add_mod, hzero, Nat.zero_add, Nat.mod_mod, Nat.mod_eq_of_lt hps]
    have hsdiv : r.seqLen / ps = r.prefixLen / ps := by
      rw [Nat.div_eq_iff hpos]
      omega
    have hnew : r.newPages ps = 1 := by
      rw [ExtendReq.newPages, hpre, hseq]
      omega
    refine ⟨?_, by rw [hnew, if_pos hmod]⟩
    have haligned : pageCount ps r.prefixLen * ps = r.prefixLen := by
      rw [hpre, Nat.add_zero]
      omega
    unfold ExtendReq.decodeSlot ExtendReq.extendSlots
    dsimp only
    rw [hnew, haligned, hsdiv, show r.prefixLen / ps * ps = r.prefixLen by omega,
      min_eq_right (by omega), Nat.sub_self, if_neg (by omega), if_neg (by omega), h,
      Nat.add_sub_cancel_left]
    simp
  · -- the new token goes into the open page
    have hseq : pageCount ps r.seqLen = r.prefixLen / ps + 1 := by
      by_cases hlast : r.prefixLen % ps + 1 = ps
      · rw [show r.seqLen = (r.prefixLen / ps + 1) * ps by omega, pageCount_mul hpos]
      · have := hpc (r.prefixLen % ps + 1) (by omega)
        rw [if_neg (by omega)] at this
        rw [← this]
        congr 1
        omega
    rw [if_neg hzero] at hpre
    have hnew : r.newPages ps = 0 := by
      rw [ExtendReq.newPages, hpre, hseq]
      omega
    have hmod : r.seqLen % ps ≠ 1 := by
      intro hone
      have hs := Nat.div_add_mod r.seqLen ps
      rw [hone, Nat.mul_comm] at hs
      have : r.prefixLen % ps = 0 := by
        rw [show r.prefixLen = r.seqLen / ps * ps by omega]
        exact Nat.mul_mod_left _ _
      exact hzero this
    refine ⟨?_, by rw [hnew, if_neg hmod]⟩
    unfold ExtendReq.decodeSlot ExtendReq.extendSlots
    dsimp only
    rw [hnew, hpre, hmul, min_eq_left (by omega), if_pos rfl, if_pos (by omega), h,
      Nat.add_sub_cancel_left]
    simp

end Kernels

/-! ## Section 5: Batches -/

/-- The request asks to continue `row`. -/
structure ExtendReq.Continues (row : List Nat) (r : ExtendReq) : Prop where
  prefix_eq : r.prefixLen = row.length
  le_seq : r.prefixLen ≤ r.seqLen
  last_eq : r.lastLoc = Allocator.lastLoc row

/-- The indices `outs` continue the rows over the pages `pages`, each row over its own. -/
inductive Continued (ps : Nat) : List (List Nat) → List (List Nat) → List Nat → Prop where
  | nil : Continued ps [] [] []
  | cons {row out chunk : List Nat} {rows outs : List (List Nat)} {pages : List Nat}
      (h : ∀ pgs, RowPages ps row pgs → RowPages ps (row ++ out) (pgs ++ chunk))
      (rest : Continued ps rows outs pages) :
      Continued ps (row :: rows) (out :: outs) (chunk ++ pages)

theorem perRequest_extend (hps : 0 < ps)
    {reqs : List ExtendReq} (hreqs : List.Forall₂ ExtendReq.Continues rows reqs) :
    ∀ {pages : List Nat}, getNumNewPages ps reqs ≤ pages.length →
      Continued ps rows (perRequest ps (ExtendReq.extendSlots ps) reqs pages)
        (pages.take (getNumNewPages ps reqs)) := by
  induction hreqs with
  | nil =>
    intro pages _
    simpa [getNumNewPages, perRequest] using Continued.nil
  | @cons row r rows reqs hr _ ih =>
    intro pages hlen
    have hsum : getNumNewPages ps (r :: reqs) = r.newPages ps + getNumNewPages ps reqs := rfl
    rw [hsum] at hlen ⊢
    have hrow : ∀ pgs, RowPages ps row pgs →
        RowPages ps (row ++ r.extendSlots ps (pages.take (r.newPages ps)))
          (pgs ++ pages.take (r.newPages ps)) := fun pgs h =>
      rowPages_extend hps h hr.prefix_eq hr.le_seq hr.last_eq (by rw [length_take]; omega)
    have hrest : getNumNewPages ps reqs ≤ (pages.drop (r.newPages ps)).length := by
      rw [length_drop]
      omega
    have hcont := Continued.cons hrow (ih hrest)
    rwa [← take_add] at hcont

theorem allocExtend_spec (a : Allocator) {reqs : List ExtendReq}
    (hreqs : List.Forall₂ ExtendReq.Continues rows reqs) :
    ∃ a', a'.inFreeGroup = a.inFreeGroup ∧
      ((a.allocExtend cfg reqs = (a', none) ∧ (a'.pages cfg).Perm (a.pages cfg)) ∨
        ∃ outs pgs, a.allocExtend cfg reqs = (a', some outs) ∧
          Continued cfg.pageSize rows outs pgs ∧ (pgs ++ a'.pages cfg).Perm (a.pages cfg)) := by
  unfold allocExtend
  dsimp only
  generalize (reqs.map fun r => r.seqLen - r.prefixLen).sum / cfg.pageSize + reqs.length + 1 = need
  obtain ⟨hmerge, hgroup⟩ := pages_mergeFor need a
  generalize a.mergeFor cfg need = m at hmerge hgroup
  split
  · exact ⟨m, hgroup, .inl ⟨rfl, hmerge⟩⟩
  · next hlen =>
    refine ⟨{ m with freePages := m.freePages.drop (getNumNewPages cfg.pageSize reqs) }, hgroup,
      .inr ⟨_, _, rfl, perRequest_extend cfg.pageSize_pos hreqs (not_lt.mp hlen), ?_⟩⟩
    rw [← pages_takePages]
    exact hmerge

/-- A decode request asks for one slot. -/
structure ExtendReq.Decodes (row : List Nat) (r : ExtendReq) : Prop extends
    ExtendReq.Continues row r where
  seq_eq : r.seqLen = r.prefixLen + 1

theorem perRequest_decode (hps : 1 < ps) {reqs : List ExtendReq}
    (hseq : ∀ r ∈ reqs, r.seqLen = r.prefixLen + 1) :
    getNumNewPagesDecode ps reqs = getNumNewPages ps reqs ∧
      ∀ pages, perRequest ps (fun r pages => [r.decodeSlot ps pages]) reqs pages =
        perRequest ps (ExtendReq.extendSlots ps) reqs pages := by
  constructor
  · unfold getNumNewPagesDecode getNumNewPages
    refine congrArg List.sum (map_congr_left fun r hr => ?_)
    exact (decodeSlot_eq hps (hseq r hr) []).2.symm
  · induction reqs with
    | nil => exact fun _ => rfl
    | cons r reqs ih =>
      intro pages
      rw [perRequest, perRequest, (decodeSlot_eq hps (hseq r (mem_cons_self ..)) _).1,
        ih fun r' hr' => hseq r' (mem_cons_of_mem _ hr')]

theorem allocDecode_spec (a : Allocator) (hps : 1 < cfg.pageSize)
    {reqs : List ExtendReq} (hreqs : List.Forall₂ ExtendReq.Decodes rows reqs) :
    ∃ a', a'.inFreeGroup = a.inFreeGroup ∧
      ((a.allocDecode cfg reqs = (a', none) ∧ (a'.pages cfg).Perm (a.pages cfg)) ∨
        ∃ outs pgs, a.allocDecode cfg reqs = (a', some outs) ∧
          Continued cfg.pageSize rows outs pgs ∧ (pgs ++ a'.pages cfg).Perm (a.pages cfg)) := by
  have hseq : ∀ r ∈ reqs, r.seqLen = r.prefixLen + 1 := by
    intro r hr
    induction hreqs with
    | nil => cases hr
    | cons h _ ih =>
      rcases mem_cons.mp hr with rfl | hr
      · exact h.seq_eq
      · exact ih hr
  obtain ⟨hnum, hkernel⟩ := perRequest_decode hps hseq
  have hcont : List.Forall₂ ExtendReq.Continues rows reqs :=
    hreqs.imp fun _ _ h => h.toContinues
  unfold allocDecode
  dsimp only
  rw [hnum]
  obtain ⟨hmerge, hgroup⟩ := pages_mergeFor reqs.length a
  generalize a.mergeFor cfg reqs.length = m at hmerge hgroup
  split
  · exact ⟨m, hgroup, .inl ⟨rfl, hmerge⟩⟩
  · next hlen =>
    refine ⟨{ m with freePages := m.freePages.drop (getNumNewPages cfg.pageSize reqs) }, hgroup,
      .inr ⟨_, m.freePages.take (getNumNewPages cfg.pageSize reqs), rfl, ?_, ?_⟩⟩
    · rw [hkernel]
      exact perRequest_extend cfg.pageSize_pos hcont (not_lt.mp hlen)
    · rw [← pages_takePages]
      exact hmerge

/-- Cut a flat allocation of single slots into the lengths of the requests. -/
def sliceBy : List Nat → List Nat → List (List Nat)
  | [], _ => []
  | n :: ns, indices => indices.take n :: sliceBy ns (indices.drop n)

theorem sliceBy_continued {lens : List Nat}
    (hlen : rows.length = lens.length) :
    ∀ {pgs : List Nat}, pgs.length = lens.sum → Continued 1 rows (sliceBy lens pgs) pgs := by
  induction lens generalizing rows with
  | nil =>
    intro pgs hpgs
    have hnil : pgs = [] := length_eq_zero_iff.mp (by simpa using hpgs)
    have hrows : rows = [] := length_eq_zero_iff.mp (by simpa using hlen)
    rw [hnil, hrows]
    exact .nil
  | cons n lens ih =>
    intro pgs hpgs
    obtain ⟨row, rows, rfl⟩ : ∃ row rows', rows = row :: rows' :=
      exists_cons_of_length_eq_add_one hlen
    rw [sum_cons] at hpgs
    have hrow : ∀ qs, RowPages 1 row qs → RowPages 1 (row ++ pgs.take n) (qs ++ pgs.take n) := by
      intro qs h
      have hone := h.eq_expand Nat.one_pos (Nat.one_dvd _)
      have happ : RowPages 1 (expand 1 qs ++ expand 1 (pgs.take n)) (qs ++ pgs.take n) :=
        RowPages.append Nat.one_pos (RowPages.of_expand Nat.one_pos)
      rwa [← hone, expand_one] at happ
    have hrest : (pgs.drop n).length = lens.sum := by
      rw [length_drop]
      omega
    have hcont := Continued.cons hrow (ih (by simpa using hlen) hrest)
    rwa [take_append_drop] at hcont

/-! ## Section 6: Available pages -/

/-- Without sorting nothing waits on the list of released pages. -/
def Tidy (cfg : PoolConfig) (a : Allocator) : Prop := cfg.needSort = false → a.releasePages = []

/-- Pages have moved from one state to a list, and nothing else. -/
structure Took (cfg : PoolConfig) (a a' : Allocator) (pgs : List Nat) : Prop where
  perm : (pgs ++ a'.pages cfg).Perm (a.pages cfg)
  group : a'.inFreeGroup = a.inFreeGroup
  tidy : a.Tidy cfg → a'.Tidy cfg

theorem took_mergeFor (a : Allocator) (need n : Nat) :
    Took cfg a
      { a.mergeFor cfg need with freePages := (a.mergeFor cfg need).freePages.drop n }
      ((a.mergeFor cfg need).freePages.take n) := by
  obtain ⟨hmerge, hgroup⟩ := pages_mergeFor need a
  refine ⟨?_, hgroup, ?_⟩
  · rw [← pages_takePages]
    exact hmerge
  · intro h hsort
    simp only [mergeFor, hsort, Bool.false_eq_true, false_and, if_false]
    exact h hsort

theorem availableSize_div (a : Allocator) :
    a.availableSize cfg / cfg.pageSize = a.freePages.length + a.releasePages.length :=
  Nat.mul_div_cancel _ cfg.pageSize_pos

theorem le_mergeFor (h : a.Tidy cfg) {n : Nat} (need : Nat) (hn : n ≤ need) :
    n ≤ (a.mergeFor cfg need).freePages.length ↔
      n ≤ a.freePages.length + a.releasePages.length := by
  unfold mergeFor mergeAndSortFree
  split
  · split
    · rw [(sortPages_perm _).length_eq, length_append]
    · omega
  · next hguard =>
    cases hsort : cfg.needSort with
    | false => rw [h hsort, length_nil, Nat.add_zero]
    | true =>
      have : need ≤ a.freePages.length := by
        by_contra hlt
        exact hguard ⟨hsort, by omega⟩
      omega

theorem getNumNewPages_le (hps : 0 < ps) (reqs : List ExtendReq) :
    getNumNewPages ps reqs ≤
      (reqs.map fun r => r.seqLen - r.prefixLen).sum / ps + reqs.length := by
  induction reqs with
  | nil => simp [getNumNewPages]
  | cons r reqs ih =>
    have hone : r.newPages ps ≤ (r.seqLen - r.prefixLen) / ps + 1 := by
      unfold ExtendReq.newPages
      have h₁ := pageCount_mul_lt hps r.seqLen
      have h₂ := le_pageCount_mul hps r.prefixLen
      have h₃ := Nat.lt_div_mul_add hps (a := r.seqLen - r.prefixLen)
      have h₄ : pageCount ps r.seqLen * ps <
          ((r.seqLen - r.prefixLen) / ps + 1 + pageCount ps r.prefixLen + 1) * ps := by
        rw [Nat.add_mul, Nat.add_mul, Nat.add_mul, Nat.one_mul]
        omega
      have h₅ := Nat.lt_of_mul_lt_mul_right h₄
      exact Nat.sub_le_of_le_add (Nat.lt_succ_iff.mp h₅)
    have hadd : (r.seqLen - r.prefixLen) / ps +
        (reqs.map fun r => r.seqLen - r.prefixLen).sum / ps ≤ _ := Nat.div_add_div_le_add_div
    simp only [getNumNewPages, map_cons, sum_cons, length_cons] at ih ⊢
    omega

theorem getNumNewPagesDecode_le (reqs : List ExtendReq) :
    getNumNewPagesDecode ps reqs ≤ reqs.length := by
  induction reqs with
  | nil => simp [getNumNewPagesDecode]
  | cons r reqs ih =>
    simp only [getNumNewPagesDecode, map_cons, sum_cons, length_cons] at ih ⊢
    split <;> omega

theorem allocExtend_available (h : a.Tidy cfg) (reqs : List ExtendReq)
    (hn : getNumNewPages cfg.pageSize reqs ≤ a.availableSize cfg / cfg.pageSize) :
    ∃ a' fresh, a.allocExtend cfg reqs =
        (a', some (perRequest cfg.pageSize (ExtendReq.extendSlots cfg.pageSize) reqs fresh)) ∧
      getNumNewPages cfg.pageSize reqs ≤ fresh.length ∧
      Took cfg a a' (fresh.take (getNumNewPages cfg.pageSize reqs)) := by
  rw [availableSize_div] at hn
  have hle := getNumNewPages_le cfg.pageSize_pos reqs
  have hlen := (le_mergeFor h ((reqs.map fun r => r.seqLen - r.prefixLen).sum / cfg.pageSize +
    reqs.length + 1) (by omega)).mpr hn
  refine ⟨_, _, ?_, hlen, took_mergeFor a _ _⟩
  unfold allocExtend
  dsimp only
  rw [if_neg (by omega)]

theorem allocDecode_available (h : a.Tidy cfg) (reqs : List ExtendReq)
    (hn : getNumNewPagesDecode cfg.pageSize reqs ≤ a.availableSize cfg / cfg.pageSize) :
    ∃ a' fresh, a.allocDecode cfg reqs =
        (a', some (perRequest cfg.pageSize (fun r pages => [r.decodeSlot cfg.pageSize pages])
          reqs fresh)) ∧
      getNumNewPagesDecode cfg.pageSize reqs ≤ fresh.length ∧
      Took cfg a a' (fresh.take (getNumNewPagesDecode cfg.pageSize reqs)) := by
  rw [availableSize_div] at hn
  have hlen := (le_mergeFor h _ (getNumNewPagesDecode_le reqs)).mpr hn
  refine ⟨_, _, ?_, hlen, took_mergeFor a _ _⟩
  unfold allocDecode
  dsimp only
  rw [if_neg (by omega)]

theorem allocDecode_unavailable (h : a.Tidy cfg) (reqs : List ExtendReq)
    (hn : ¬ getNumNewPagesDecode cfg.pageSize reqs ≤ a.availableSize cfg / cfg.pageSize) :
    ∃ a', a.allocDecode cfg reqs = (a', none) ∧ Took cfg a a' [] := by
  rw [availableSize_div] at hn
  have hlen := mt (le_mergeFor h _ (getNumNewPagesDecode_le reqs)).mp hn
  have htook : Took cfg a _ _ := took_mergeFor a reqs.length 0
  rw [drop_zero, take_zero] at htook
  refine ⟨_, ?_, htook⟩
  unfold allocDecode
  dsimp only
  rw [if_pos (by omega)]

theorem alloc_available (hkind : cfg.kind = .token) (h : a.Tidy cfg) {n : Nat}
    (hn : n ≤ a.availableSize cfg) :
    ∃ a' pgs, a.alloc cfg n = (a', some pgs) ∧ pgs.length = n ∧ Took cfg a a' pgs := by
  have hdiv : a.availableSize cfg / cfg.pageSize = _ := availableSize_div a
  rw [cfg.token_page hkind, Nat.div_one] at hdiv
  have hlen := (le_mergeFor h _ (le_refl n)).mpr (by omega)
  refine ⟨_, _, ?_, ?_, took_mergeFor a n n⟩
  · unfold alloc
    rw [hkind]
    dsimp only
    rw [if_neg (by omega)]
  · rw [length_take, min_eq_left hlen]

theorem Tidy.free (h : a.Tidy cfg) (idx : List Nat) : (a.free cfg idx).Tidy cfg := by
  intro hsort
  unfold Allocator.free giveBack
  rw [hsort]
  cases cfg.kind <;> split <;> try split
  all_goals exact h hsort

end Allocator

end Sglang.MemCache
