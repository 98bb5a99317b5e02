import Mathlib
import Sglang.Lib.FlatStore
import Sglang.MemCache.Allocator

/-!
# Slots of a Paged Extension

`alloc_extend_kernel` (`mem_cache/triton_ops/allocator.py`) and `alloc_extend_naive`
(`mem_cache/allocator/paged.py`) as they fill the flat tensor `out_indices`.

- `extendSlots_eq`: the three parts of a request are the slots of its positions,
- `extendProgram_eq`, `naiveRound_eq`: a program of the kernel and a round of the loop fill the
  segment of their request,
- `referenceSlots_serves`: what the slots of a batch are, request by request,
- `allocExtendKernel_eq`, `allocExtendNaive_eq`: both leave these slots.

## Conventions

- Lanes that a mask switches off in `tl.load` count as 0.
- `prefix_len <= seq_len`, so the differences are natural numbers; `num_full_new_pages` is cut off
  at 0, where the loop continues before it uses it.
-/

namespace Sglang.MemCache.Allocator

open List
open Lib

/-! ## Section 1: The slot of a position -/

namespace ExtendReq

/-- The arguments of one request: the last slot is the one before the prefix ends, or `-1`. -/
structure Aligned (ps : Nat) (r : ExtendReq) : Prop where
  le_seq : r.prefixLen ≤ r.seqLen
  last_ge : -1 ≤ r.lastLoc
  last_mod : (r.lastLoc + 1) % ps = r.prefixLen % ps

/-- The slot of position `p`: after the last slot while its page lasts, then on the pages of the
request. -/
def slotOf (ps : Nat) (r : ExtendReq) (page : Nat → Nat) (p : Nat) : Nat :=
  if p < pageCount ps r.prefixLen * ps then (r.lastLoc + 1 + (p - r.prefixLen : Nat)).toNat
  else page (p / ps - pageCount ps r.prefixLen) * ps + p % ps

def referenceSlots (ps : Nat) (r : ExtendReq) (pages : List Nat) : List Nat :=
  (List.range (r.seqLen - r.prefixLen)).map fun j =>
    r.slotOf ps (fun k => pages.getD k 0) (r.prefixLen + j)

end ExtendReq

section Parts

variable {ps : Nat} {r : ExtendReq} {page page' : Nat → Nat}

@[simp] theorem referenceSlots_length (pages : List Nat) :
    (r.referenceSlots ps pages).length = r.seqLen - r.prefixLen := by
  simp [ExtendReq.referenceSlots]

theorem pageCount_le_div_add (hps : 0 < ps) (n : Nat) : pageCount ps n ≤ n / ps + 1 := by
  have hlt := pageCount_mul_lt hps n
  have hdiv := Nat.div_add_mod n ps
  have hmod := Nat.mod_lt n hps
  have hbound : pageCount ps n * ps < (n / ps + 2) * ps := by
    have : (n / ps + 2) * ps = ps * (n / ps) + 2 * ps := by ring
    omega
  have := Nat.lt_of_mul_lt_mul_right hbound
  omega

theorem pageCount_le_div (hps : 0 < ps) {p n : Nat} (h : pageCount ps n * ps ≤ p) :
    pageCount ps n ≤ p / ps :=
  (Nat.le_div_iff_mul_le hps).mpr h

theorem div_lt_pageCount (hps : 0 < ps) {p n : Nat} (h : p < n) : p / ps < pageCount ps n := by
  rw [Nat.div_lt_iff_lt_mul hps]
  exact h.trans_le (le_pageCount_mul hps n)

theorem slotOf_congr (hps : 0 < ps) (h : ∀ k < r.newPages ps, page k = page' k) {p : Nat}
    (hp : p < r.seqLen) : r.slotOf ps page p = r.slotOf ps page' p := by
  unfold ExtendReq.slotOf
  split
  · rfl
  · next hge =>
    have hle := pageCount_le_div hps (not_lt.mp hge)
    have hlt := div_lt_pageCount hps hp
    rw [h]
    unfold ExtendReq.newPages
    omega

/-- The three parts of a request, the old page, whole pages and the last page, side by side. -/
theorem parts_slot (hps : 0 < ps) (hlong : pageCount ps r.prefixLen * ps ≤ r.seqLen) {j : Nat}
    (hj : j < r.seqLen - r.prefixLen) :
    (if j < pageCount ps r.prefixLen * ps - r.prefixLen then (r.lastLoc + 1 + j).toNat
      else if j - (pageCount ps r.prefixLen * ps - r.prefixLen) <
          r.seqLen / ps * ps - pageCount ps r.prefixLen * ps then
        page ((j - (pageCount ps r.prefixLen * ps - r.prefixLen)) / ps) * ps +
          (j - (pageCount ps r.prefixLen * ps - r.prefixLen)) % ps
      else page (r.newPages ps - 1) * ps + (j - (pageCount ps r.prefixLen * ps - r.prefixLen) -
        (r.seqLen / ps * ps - pageCount ps r.prefixLen * ps))) =
      r.slotOf ps page (r.prefixLen + j) := by
  have hA := le_pageCount_mul hps r.prefixLen
  have hq := pageCount_le_div hps hlong
  have hmul := Nat.mul_le_mul_right ps hq
  have hdiv := Nat.div_add_mod r.seqLen ps
  rw [Nat.mul_comm] at hdiv
  have hup := pageCount_le_div_add hps r.seqLen
  unfold ExtendReq.slotOf ExtendReq.newPages
  generalize pageCount ps r.prefixLen = A at *
  by_cases hfirst : j < A * ps - r.prefixLen
  · rw [if_pos hfirst, if_pos (by omega), Nat.add_sub_cancel_left]
  rw [if_neg hfirst, if_neg (show ¬r.prefixLen + j < A * ps by omega)]
  by_cases hsecond : j - (A * ps - r.prefixLen) < r.seqLen / ps * ps - A * ps
  · rw [if_pos hsecond]
    have hpos : r.prefixLen + j = ps * A + (j - (A * ps - r.prefixLen)) := by
      rw [Nat.mul_comm]
      omega
    rw [hpos, Nat.mul_add_div hps, Nat.mul_add_mod, Nat.add_sub_cancel_left]
  · -- the last page
    rw [if_neg hsecond]
    have hpos : r.prefixLen + j = ps * (r.seqLen / ps) +
        (j - (A * ps - r.prefixLen) - (r.seqLen / ps * ps - A * ps)) := by
      rw [Nat.mul_comm ps]
      omega
    have hlast : j - (A * ps - r.prefixLen) - (r.seqLen / ps * ps - A * ps) < ps := by
      have := Nat.mod_lt r.seqLen hps
      omega
    have hnew : pageCount ps r.seqLen - A - 1 = r.seqLen / ps - A := by
      have hlow := div_lt_pageCount hps (show r.seqLen / ps * ps < r.seqLen by omega)
      rw [Nat.mul_div_cancel _ hps] at hlow
      omega
    rw [hpos, Nat.mul_add_div hps, Nat.mul_add_mod, Nat.div_eq_of_lt hlast, Nat.mod_eq_of_lt hlast,
      hnew, Nat.add_zero]

theorem parts_length (hps : 0 < ps) (hlong : pageCount ps r.prefixLen * ps ≤ r.seqLen) :
    pageCount ps r.prefixLen * ps - r.prefixLen +
      (r.seqLen / ps * ps - pageCount ps r.prefixLen * ps + (r.seqLen - r.seqLen / ps * ps)) =
        r.seqLen - r.prefixLen := by
  have hA := le_pageCount_mul hps r.prefixLen
  have hmul := Nat.mul_le_mul_right ps (pageCount_le_div hps hlong)
  have hdiv := Nat.div_mul_le_self r.seqLen ps
  omega

theorem store_parts (hps : 0 < ps) (out : Nat → Nat) (base : Nat)
    (hlong : pageCount ps r.prefixLen * ps ≤ r.seqLen) :
    store (store (store out base (pageCount ps r.prefixLen * ps - r.prefixLen)
            fun j => (r.lastLoc + 1 + j).toNat)
          (base + (pageCount ps r.prefixLen * ps - r.prefixLen))
          (r.seqLen / ps * ps - pageCount ps r.prefixLen * ps) fun j => page (j / ps) * ps + j % ps)
        (base + (pageCount ps r.prefixLen * ps - r.prefixLen) +
          (r.seqLen / ps * ps - pageCount ps r.prefixLen * ps))
        (r.seqLen - r.seqLen / ps * ps) (fun j => page (r.newPages ps - 1) * ps + j) =
      store out base (r.seqLen - r.prefixLen) fun j => r.slotOf ps page (r.prefixLen + j) := by
  rw [store_append, store_append, parts_length hps hlong]
  exact store_congr fun j hj => parts_slot hps hlong hj

theorem short_slot (hshort : r.seqLen ≤ pageCount ps r.prefixLen * ps) {j : Nat}
    (hj : j < r.seqLen - r.prefixLen) :
    (r.lastLoc + 1 + j).toNat = r.slotOf ps page (r.prefixLen + j) := by
  unfold ExtendReq.slotOf
  rw [if_pos (by omega), Nat.add_sub_cancel_left]

/-- The three parts of `alloc_extend_kernel` are the slots of the positions. -/
theorem extendSlots_eq (hps : 0 < ps) (hle : r.prefixLen ≤ r.seqLen) (pages : List Nat) :
    r.extendSlots ps pages = r.referenceSlots ps pages := by
  have hA := le_pageCount_mul hps r.prefixLen
  unfold ExtendReq.extendSlots ExtendReq.referenceSlots
  dsimp only
  by_cases hshort : r.seqLen ≤ pageCount ps r.prefixLen * ps
  · rw [min_eq_left hshort, if_pos (by omega)]
    exact map_congr_left fun j hj => short_slot hshort (mem_range.mp hj)
  have hlong := (not_le.mp hshort).le
  have hlen := parts_length hps hlong
  rw [min_eq_right hlong, if_neg (by omega)]
  -- without a last page the third part is empty
  have hparts : ∀ l : List Nat, (if r.prefixLen + (pageCount ps r.prefixLen * ps - r.prefixLen) +
        (r.seqLen / ps * ps - pageCount ps r.prefixLen * ps) = r.seqLen then l
      else l ++ (List.range (r.seqLen - r.seqLen / ps * ps)).map fun j =>
        pages.getD (r.newPages ps - 1) 0 * ps + j) =
      l ++ (List.range (r.seqLen - r.seqLen / ps * ps)).map fun j =>
        pages.getD (r.newPages ps - 1) 0 * ps + j := by
    intro l
    split
    · rw [show r.seqLen - r.seqLen / ps * ps = 0 by omega]
      simp
    · rfl
  rw [hparts, append_assoc, map_range_append, map_range_append, hlen]
  apply map_congr_left
  intro j hj
  exact @parts_slot ps r (fun k => pages.getD k 0) hps hlong j (mem_range.mp hj)

end Parts

/-! ## Section 2: The kernel and the loop -/

def nextPowerOf2 (n : Nat) : Nat := if 0 < n then 2 ^ Nat.size (n - 1) else 1

/-- The sum of `tl.load(ptr + load_offset, mask=load_offset <= pid)`. -/
def maskedSum (lanes pid : Nat) (ptr : List Nat) : Nat :=
  ((List.range lanes).map fun o => if o ≤ pid then ptr.getD o 0 else 0).sum

/-- `alloc_extend_kernel` for the program `pid`. -/
def extendProgram (ps : Nat) (reqs : List ExtendReq) (freePages : List Nat) (out : Nat → Nat)
    (pid : Nat) :
    Nat → Nat :=
  match reqs[pid]? with
  | none => out
  | some r =>
    let bsUpper := nextPowerOf2 reqs.length
    let sumExtendLens := maskedSum bsUpper pid (reqs.map fun r => r.seqLen - r.prefixLen)
    let outputStartLoc := sumExtendLens - (r.seqLen - r.prefixLen)
    let numPageStartLocSelf := pageCount ps r.seqLen - pageCount ps r.prefixLen
    let sumNumNewPages :=
      maskedSum bsUpper pid (reqs.map fun r => pageCount ps r.seqLen - pageCount ps r.prefixLen)
    let newPageStartLoc := sumNumNewPages - numPageStartLocSelf
    -- part 1: fill the old partial page
    let numPart1 := min r.seqLen (pageCount ps r.prefixLen * ps) - r.prefixLen
    let out := storeMasked out outputStartLoc ps (fun o => decide (o < numPart1)) fun o =>
      (r.lastLoc + 1 + o).toNat
    if r.prefixLen + numPart1 = r.seqLen then out
    else
      -- part 2: fill the new full pages, in blocks
      let numPart2 := r.seqLen / ps * ps - pageCount ps r.prefixLen * ps
      let numBlocks := (numPart2 + 4096 - 1) / 4096
      let out := (List.range numBlocks).foldl (fun out blockId =>
        storeMasked out (outputStartLoc + numPart1 + blockId * 4096) 4096
          (fun o => decide (blockId * 4096 + o < numPart2)) fun o =>
            freePages.getD (newPageStartLoc + (blockId * 4096 + o) / ps) 0 * ps +
              (blockId * 4096 + o) % ps) out
      if r.prefixLen + numPart1 + numPart2 = r.seqLen then out
      else
        -- part 3: fill the new partial page
        let numPart3 := r.seqLen - r.seqLen / ps * ps
        let startLoc := freePages.getD (newPageStartLoc + numPageStartLocSelf - 1) 0
        storeMasked out (outputStartLoc + numPart1 + numPart2) ps (fun o =>
          decide (o < numPart3)) fun o =>
          startLoc * ps + o

/-- `alloc_extend_kernel[(bs,)]` with its programs in the order `grid`. -/
def allocExtendKernel (ps : Nat) (reqs : List ExtendReq) (freePages : List Nat) (out : Nat → Nat)
    (grid : List Nat) : Nat → Nat :=
  grid.foldl (extendProgram ps reqs freePages) out

/-- `torch.cumsum` at index `i`. -/
def cumsum (l : List Nat) (i : Nat) : Nat := (l.take (i + 1)).sum

/-- One round of the loop of `alloc_extend_naive`. -/
def naiveRound (ps : Nat) (reqs : List ExtendReq) (freePages : List Nat) (out : Nat → Nat)
    (i : Nat) :
    Nat → Nat :=
  match reqs[i]? with
  | none => out
  | some r =>
    let endPos := cumsum (reqs.map fun r => r.seqLen - r.prefixLen) i
    let startPos := endPos - (r.seqLen - r.prefixLen)
    let numNewPages := pageCount ps r.seqLen - pageCount ps r.prefixLen
    let numFullNewPages := r.seqLen / ps - pageCount ps r.prefixLen
    let needPage := numNewPages - numFullNewPages
    let endNewPages := cumsum (reqs.map fun r => pageCount ps r.seqLen - pageCount ps r.prefixLen) i
    let startNewPages := endNewPages - numNewPages
    let num1 := min r.seqLen (pageCount ps r.prefixLen * ps) - r.prefixLen
    let out :=
      if num1 ≠ 0 then store out startPos num1 fun j => (r.lastLoc + 1 + j).toNat
      else out
    if r.prefixLen + num1 = r.seqLen then out
    else
      let num2 := (r.seqLen / ps - pageCount ps r.prefixLen) * ps
      let out :=
        if num2 ≠ 0 then
          let pages := (freePages.take (endNewPages - needPage)).drop startNewPages
          store out (startPos + num1) num2 fun j => pages.getD (j / ps) 0 * ps + j % ps
        else out
      if r.prefixLen + num1 + num2 = r.seqLen then out
      else
        let num3 := r.seqLen - r.seqLen / ps * ps
        if num3 ≠ 0 then
          store out (endPos - num3) num3 fun j => freePages.getD (endNewPages - 1) 0 * ps + j
        else out

def allocExtendNaive (ps : Nat) (reqs : List ExtendReq) (freePages : List Nat) (out : Nat → Nat) :
    Nat → Nat :=
  (List.range reqs.length).foldl (naiveRound ps reqs freePages) out

section Segments

variable {ps : Nat} {reqs : List ExtendReq} {freePages : List Nat} {i : Nat} {r : ExtendReq}

theorem lt_nextPowerOf2 {n : Nat} (h : i < n) : i < nextPowerOf2 n := by
  unfold nextPowerOf2
  rw [if_pos (by omega)]
  have := Nat.lt_size_self (n - 1)
  omega

theorem cumsum_eq (f : ExtendReq → Nat) (h : reqs[i]? = some r) :
    cumsum (reqs.map f) i = ((reqs.take i).map f).sum + f r := by
  unfold cumsum
  rw [← map_take, take_add_one, h]
  simp

theorem maskedSum_eq (f : ExtendReq → Nat) (h : reqs[i]? = some r) :
    maskedSum (nextPowerOf2 reqs.length) i (reqs.map f) = ((reqs.take i).map f).sum + f r := by
  obtain ⟨hi, -⟩ := List.getElem?_eq_some_iff.mp h
  rw [← cumsum_eq f h]
  unfold maskedSum cumsum
  have hlanes : i + 1 ≤ nextPowerOf2 reqs.length := lt_nextPowerOf2 hi
  obtain ⟨rest, hrest⟩ := Nat.exists_eq_add_of_le hlanes
  rw [hrest, range_add, map_append, sum_append]
  have hoff : (((List.range rest).map fun o => i + 1 + o).map fun o =>
      if o ≤ i then (reqs.map f).getD o 0 else 0).sum = 0 := by
    apply sum_eq_zero
    intro x hx
    obtain ⟨o, ho, rfl⟩ := mem_map.mp hx
    obtain ⟨o', -, rfl⟩ := mem_map.mp ho
    rw [if_neg (by omega)]
  rw [hoff, Nat.add_zero]
  congr 1
  apply ext_getElem
  · simp
    omega
  · intro o ho ho'
    simp only [length_map, length_range] at ho
    rw [getElem_map, getElem_range, if_pos (by omega), getElem_take,
      getD_eq_getElem _ _ (by simp; omega)]

/-- What `alloc_extend_kernel` does for one request: it fills its segment. -/
theorem extendProgram_eq (hps : 0 < ps) (h : reqs[i]? = some r) (hle : r.prefixLen ≤ r.seqLen)
    (out : Nat → Nat) :
    extendProgram ps reqs freePages out i =
      store out ((reqs.take i).map fun r => r.seqLen - r.prefixLen).sum
      (r.seqLen - r.prefixLen) fun j =>
        r.slotOf ps (fun k => freePages.getD (getNumNewPages ps (reqs.take i) + k) 0)
        (r.prefixLen + j) := by
  have hA := le_pageCount_mul hps r.prefixLen
  have hup := pageCount_mul_lt hps r.prefixLen
  have hstart : maskedSum (nextPowerOf2 reqs.length) i (reqs.map fun r => r.seqLen - r.prefixLen) -
      (r.seqLen - r.prefixLen) = ((reqs.take i).map fun r => r.seqLen - r.prefixLen).sum := by
    rw [maskedSum_eq _ h, Nat.add_sub_cancel]
  have hpages : maskedSum (nextPowerOf2 reqs.length) i
      (reqs.map fun r => pageCount ps r.seqLen - pageCount ps r.prefixLen) -
      (pageCount ps r.seqLen - pageCount ps r.prefixLen) = getNumNewPages ps (reqs.take i) := by
    rw [maskedSum_eq _ h, Nat.add_sub_cancel]
    rfl
  unfold extendProgram
  simp only [h, hstart, hpages]
  rw [storeMasked_lt (by omega)]
  by_cases hshort : r.seqLen ≤ pageCount ps r.prefixLen * ps
  · rw [min_eq_left hshort, if_pos (by omega)]
    exact store_congr fun j hj => short_slot hshort hj
  have hlong := (not_le.mp hshort).le
  have hlen := parts_length hps hlong
  have hblocks :=
    Nat.lt_div_mul_add (a := r.seqLen / ps * ps - pageCount ps r.prefixLen * ps + 4096 - 1)
    (show 0 < 4096 by decide)
  rw [min_eq_right hlong, if_neg (by omega),
    foldl_blocks fun j => freePages.getD (getNumNewPages ps (reqs.take i) + j / ps) 0 * ps + j % ps,
    min_eq_right (by omega), ← store_parts hps out _ hlong]
  split
  · rw [show r.seqLen - r.seqLen / ps * ps = 0 by omega, store_zero]
  · next hlast =>
    have hmod : r.seqLen - r.seqLen / ps * ps < ps := by
      have := Nat.lt_div_mul_add (a := r.seqLen) hps
      omega
    have hnew : 1 ≤ r.newPages ps := by
      have := div_lt_pageCount hps (not_le.mp hshort)
      rw [Nat.mul_div_cancel _ hps] at this
      unfold ExtendReq.newPages
      omega
    rw [storeMasked_lt hmod.le]
    apply store_congr
    intro j _
    rw [Nat.add_sub_assoc (by exact hnew)]
    rfl

theorem store_if (out : Nat → Nat) (base n : Nat) (vals : Nat → Nat) :
    (if n ≠ 0 then store out base n vals else out) = store out base n vals := by
  split
  · rfl
  · next hzero => rw [not_not.mp hzero, store_zero]

theorem slice_getD {l : List Nat} {start full k : Nat} (hk : k < full) :
    ((l.take (start + full)).drop start).getD k 0 = l.getD (start + k) 0 := by
  rw [getD_eq_getElem?_getD, getElem?_drop, getElem?_take, if_pos (by omega),
    getD_eq_getElem?_getD]

/-- What a round of `alloc_extend_naive` does: it fills the same segment in the same way. -/
theorem naiveRound_eq (hps : 0 < ps) (h : reqs[i]? = some r) (hle : r.prefixLen ≤ r.seqLen)
    (out : Nat → Nat) :
    naiveRound ps reqs freePages out i =
      store out ((reqs.take i).map fun r => r.seqLen - r.prefixLen).sum
      (r.seqLen - r.prefixLen) fun j =>
        r.slotOf ps (fun k => freePages.getD (getNumNewPages ps (reqs.take i) + k) 0)
        (r.prefixLen + j) := by
  have hA := le_pageCount_mul hps r.prefixLen
  have hend := cumsum_eq (fun r => r.seqLen - r.prefixLen) h
  have hpages : cumsum (reqs.map fun r => pageCount ps r.seqLen - pageCount ps r.prefixLen) i =
      getNumNewPages ps (reqs.take i) + r.newPages ps := cumsum_eq _ h
  unfold naiveRound
  simp only [h, hend, hpages, Nat.add_sub_cancel, store_if]
  by_cases hshort : r.seqLen ≤ pageCount ps r.prefixLen * ps
  · rw [min_eq_left hshort, if_pos (by omega)]
    exact store_congr fun j hj => short_slot hshort hj
  have hlong := (not_le.mp hshort).le
  have hlen := parts_length hps hlong
  have hq := pageCount_le_div hps hlong
  have hfull : r.seqLen / ps ≤ pageCount ps r.seqLen :=
    le_pageCount hps (Nat.div_mul_le_self r.seqLen ps)
  have hstart : getNumNewPages ps (reqs.take i) + r.newPages ps -
      (pageCount ps r.seqLen - pageCount ps r.prefixLen) = getNumNewPages ps (reqs.take i) :=
    Nat.add_sub_cancel ..
  have hslice : getNumNewPages ps (reqs.take i) + r.newPages ps - (pageCount ps r.seqLen -
      pageCount ps r.prefixLen - (r.seqLen / ps - pageCount ps r.prefixLen)) =
        getNumNewPages ps (reqs.take i) + (r.seqLen / ps - pageCount ps r.prefixLen) := by
    unfold ExtendReq.newPages
    omega
  rw [hstart, hslice, min_eq_right hlong, if_neg (by omega), ← store_parts hps out _ hlong,
    Nat.sub_mul]
  have hwhole : ∀ j < r.seqLen / ps * ps - pageCount ps r.prefixLen * ps,
      ((freePages.take
        (getNumNewPages ps (reqs.take i) + (r.seqLen / ps - pageCount ps r.prefixLen))).drop
        (getNumNewPages ps (reqs.take i))).getD (j / ps) 0 * ps + j % ps =
      freePages.getD (getNumNewPages ps (reqs.take i) + j / ps) 0 * ps + j % ps := by
    intro j hj
    rw [slice_getD]
    rwa [Nat.div_lt_iff_lt_mul hps, Nat.sub_mul]
  rw [store_congr hwhole]
  split
  · rw [show r.seqLen - r.seqLen / ps * ps = 0 by omega, store_zero]
  · next hlast =>
    have hnew : 1 ≤ r.newPages ps := by
      have := div_lt_pageCount hps (not_le.mp hshort)
      rw [Nat.mul_div_cancel _ hps] at this
      unfold ExtendReq.newPages
      omega
    rw [show ((reqs.take i).map fun r => r.seqLen - r.prefixLen).sum + (r.seqLen - r.prefixLen) -
        (r.seqLen - r.seqLen / ps * ps) =
      ((reqs.take i).map fun r => r.seqLen - r.prefixLen).sum +
        (pageCount ps r.prefixLen * ps - r.prefixLen) +
        (r.seqLen / ps * ps - pageCount ps r.prefixLen * ps) by omega, Nat.add_sub_assoc hnew]

end Segments

/-! ## Section 3: The whole batch -/

/-- The slots `out` of a request, with `chunk` as its fresh pages. -/
structure ExtendReq.Fills (ps : Nat) (r : ExtendReq) (chunk out : List Nat) : Prop where
  length_eq : out.length = r.seqLen - r.prefixLen
  pages_eq : chunk.length = r.newPages ps
  /-- A slot is where its position is on its page. -/
  congruent : ∀ j s : Nat, out[j]? = some s → s % ps = (r.prefixLen + j) % ps
  /-- A page of the request is a page of the pool, in order. -/
  same_page : ∀ j j' s s' : Nat, out[j]? = some s → out[j']? = some s' →
    (r.prefixLen + j) / ps = (r.prefixLen + j') / ps → s / ps = s' / ps ∧ s + j' = s' + j
  /-- The old page is continued. -/
  continued : ∀ j s : Nat, out[j]? = some s → r.prefixLen + j < pageCount ps r.prefixLen * ps →
    (s : Int) = r.lastLoc + 1 + j ∧ s / ps = r.lastLoc.toNat / ps
  /-- Every other page is the next fresh one. -/
  fresh : ∀ j s : Nat, out[j]? = some s → pageCount ps r.prefixLen * ps ≤ r.prefixLen + j →
    chunk[(r.prefixLen + j) / ps - pageCount ps r.prefixLen]? = some (s / ps)
  /-- No fresh page is left out. -/
  used : ∀ k < chunk.length, ∃ j < out.length, pageCount ps r.prefixLen * ps ≤ r.prefixLen + j ∧
    (r.prefixLen + j) / ps - pageCount ps r.prefixLen = k

/-- The pages go to the requests in order, each to one request, which fills its own. -/
inductive Serves (ps : Nat) : List ExtendReq → List Nat → List (List Nat) → Prop where
  | nil : Serves ps [] [] []
  | cons {r : ExtendReq} {chunk out pages : List Nat} {reqs : List ExtendReq}
      {outs : List (List Nat)}
      (h : r.Fills ps chunk out) (rest : Serves ps reqs pages outs) :
      Serves ps (r :: reqs) (chunk ++ pages) (out :: outs)

section Batch

variable {ps : Nat} {reqs : List ExtendReq} {r : ExtendReq} {chunk : List Nat}

theorem referenceSlots_getElem? {j s : Nat} (h : (r.referenceSlots ps chunk)[j]? = some s) :
    j < r.seqLen - r.prefixLen ∧ s = r.slotOf ps (fun k => chunk.getD k 0) (r.prefixLen + j) := by
  unfold ExtendReq.referenceSlots at h
  rw [getElem?_map, Option.map_eq_some_iff] at h
  obtain ⟨j', hj', rfl⟩ := h
  obtain ⟨hlt, hval⟩ := List.getElem?_eq_some_iff.mp hj'
  rw [getElem_range] at hval
  rw [← hval]
  exact ⟨by simpa using hlt, rfl⟩

theorem slotOf_old {p : Nat} (page : Nat → Nat) (h : -1 ≤ r.lastLoc)
    (hp : p < pageCount ps r.prefixLen * ps) :
    (r.slotOf ps page p : Int) = r.lastLoc + 1 + (p - r.prefixLen : Nat) := by
  unfold ExtendReq.slotOf
  rw [if_pos hp]
  omega

theorem slotOf_fresh {p : Nat} {page : Nat → Nat} (hp : pageCount ps r.prefixLen * ps ≤ p) :
    r.slotOf ps page p = page (p / ps - pageCount ps r.prefixLen) * ps + p % ps := by
  unfold ExtendReq.slotOf
  rw [if_neg (by omega)]

theorem slotOf_mod (page : Nat → Nat) (h : r.Aligned ps) {p : Nat} (hp : r.prefixLen ≤ p) :
    r.slotOf ps page p % ps = p % ps := by
  rcases Nat.lt_or_ge p (pageCount ps r.prefixLen * ps) with hold | hfresh
  · have hslot := slotOf_old page h.last_ge hold
    have hmod := h.last_mod
    have hcast : ((r.slotOf ps page p % ps : Nat) : Int) = ((p % ps : Nat) : Int) := by
      rw [Int.natCast_emod, hslot, Int.add_emod, hmod, Int.natCast_emod, ← Int.add_emod]
      congr 1
      omega
    exact_mod_cast hcast
  · rw [slotOf_fresh hfresh, Nat.add_mod, Nat.mul_mod_left, Nat.zero_add, Nat.mod_mod, Nat.mod_mod]

theorem slotOf_offset (page : Nat → Nat) (hps : 0 < ps) (h : r.Aligned ps) {p p' : Nat}
    (hp : r.prefixLen ≤ p) (hp' : r.prefixLen ≤ p') (hpage : p / ps = p' / ps) :
    r.slotOf ps page p + p' = r.slotOf ps page p' + p := by
  rcases Nat.lt_or_ge p (pageCount ps r.prefixLen * ps) with hold | hfresh
  · have hold' : p' < pageCount ps r.prefixLen * ps := by
      rwa [← Nat.div_lt_iff_lt_mul hps, ← hpage, Nat.div_lt_iff_lt_mul hps]
    have hslot := slotOf_old page h.last_ge hold
    have hslot' := slotOf_old page h.last_ge hold'
    omega
  · have hfresh' : pageCount ps r.prefixLen * ps ≤ p' := by
      rwa [← Nat.le_div_iff_mul_le hps, ← hpage, Nat.le_div_iff_mul_le hps]
    have hdiv := Nat.div_add_mod p ps
    have hdiv' := Nat.div_add_mod p' ps
    rw [slotOf_fresh hfresh, slotOf_fresh hfresh', hpage]
    rw [hpage] at hdiv
    omega

theorem lt_mod_old (hps : 0 < ps) {n j : Nat} (hold : n + j < pageCount ps n * ps) : j <
    (n + j) % ps := by
  have hup := pageCount_mul_lt hps n
  obtain ⟨A, hA⟩ : ∃ A, pageCount ps n = A + 1 := Nat.exists_eq_add_one_of_ne_zero (by
    intro hzero
    rw [hzero, Nat.zero_mul] at hold
    omega)
  rw [hA, Nat.add_mul, Nat.one_mul] at hup hold
  have hpos : n + j = ps * A + (n + j - A * ps) := by
    rw [Nat.mul_comm]
    omega
  rw [hpos, Nat.mul_add_mod, Nat.mod_eq_of_lt (by omega)]
  omega

theorem div_sub_of_lt_mod {s k : Nat} (h : k ≤ s % ps) : (s - k) / ps = s / ps := by
  rcases Nat.eq_zero_or_pos ps with rfl | hps
  · simp
  have hdiv := Nat.div_add_mod s ps
  have hlt := Nat.mod_lt s hps
  rw [show s - k = ps * (s / ps) + (s % ps - k) by omega, Nat.mul_add_div hps,
    Nat.div_eq_of_lt (show s % ps - k < ps by omega), Nat.add_zero]

theorem fills_reference (hps : 0 < ps) (h : r.Aligned ps) (hlen : chunk.length = r.newPages ps) :
    r.Fills ps chunk (r.referenceSlots ps chunk) where
  length_eq := referenceSlots_length chunk
  pages_eq := hlen
  congruent := by
    intro j s hj
    obtain ⟨-, rfl⟩ := referenceSlots_getElem? hj
    exact slotOf_mod _ h (Nat.le_add_right _ _)
  same_page := by
    intro j j' s s' hj hj' hpage
    obtain ⟨-, rfl⟩ := referenceSlots_getElem? hj
    obtain ⟨-, rfl⟩ := referenceSlots_getElem? hj'
    have hoff := slotOf_offset (fun k => chunk.getD k 0) hps h
      (Nat.le_add_right _ j) (Nat.le_add_right _ j') hpage
    refine ⟨?_, by omega⟩
    -- the remainders are those of the positions, so the quotients are equal too
    have hmod := slotOf_mod (fun k => chunk.getD k 0) h (Nat.le_add_right r.prefixLen j)
    have hmod' := slotOf_mod (fun k => chunk.getD k 0) h (Nat.le_add_right r.prefixLen j')
    generalize r.slotOf ps (fun k => chunk.getD k 0) (r.prefixLen + j) = s at *
    generalize r.slotOf ps (fun k => chunk.getD k 0) (r.prefixLen + j') = s' at *
    have hs := Nat.div_add_mod s ps
    have hs' := Nat.div_add_mod s' ps
    have hp := Nat.div_add_mod (r.prefixLen + j) ps
    have hp' := Nat.div_add_mod (r.prefixLen + j') ps
    rw [hpage] at hp
    exact Nat.eq_of_mul_eq_mul_left hps (by omega)
  continued := by
    intro j s hj hold
    obtain ⟨-, rfl⟩ := referenceSlots_getElem? hj
    have hslot := slotOf_old (fun k => chunk.getD k 0) h.last_ge hold
    rw [Nat.add_sub_cancel_left] at hslot
    refine ⟨hslot, ?_⟩
    have hmod := slotOf_mod (fun k => chunk.getD k 0) h (Nat.le_add_right r.prefixLen j)
    have hpast := lt_mod_old hps hold
    generalize r.slotOf ps (fun k => chunk.getD k 0) (r.prefixLen + j) = s at *
    rw [show r.lastLoc.toNat = s - (j + 1) by omega]
    exact (div_sub_of_lt_mod (by omega)).symm
  fresh := by
    intro j s hj hfresh
    obtain ⟨hlt, rfl⟩ := referenceSlots_getElem? hj
    have hle := pageCount_le_div hps hfresh
    have hpage := div_lt_pageCount hps (show r.prefixLen + j < r.seqLen by omega)
    rw [slotOf_fresh hfresh, Nat.mul_comm, Nat.mul_add_div hps, Nat.div_eq_of_lt (Nat.mod_lt _ hps),
      Nat.add_zero]
    have hk : (r.prefixLen + j) / ps - pageCount ps r.prefixLen < chunk.length := by
      rw [hlen]
      unfold ExtendReq.newPages
      omega
    rw [getD_eq_getElem _ _ hk, getElem?_eq_getElem hk]
  used := by
    intro k hk
    rw [hlen] at hk
    unfold ExtendReq.newPages at hk
    have hA := le_pageCount_mul hps r.prefixLen
    have hstart : (pageCount ps r.prefixLen + k) * ps < r.seqLen := by
      have hup := pageCount_mul_lt hps r.seqLen
      have hmul := Nat.mul_le_mul_right ps
        (show pageCount ps r.prefixLen + k + 1 ≤ pageCount ps r.seqLen by omega)
      rw [Nat.add_mul _ 1, Nat.one_mul] at hmul
      omega
    have hge : pageCount ps r.prefixLen * ps ≤ (pageCount ps r.prefixLen + k) * ps :=
      Nat.mul_le_mul_right ps (Nat.le_add_right _ _)
    refine ⟨(pageCount ps r.prefixLen + k) * ps - r.prefixLen, ?_, by omega, ?_⟩
    · rw [referenceSlots_length]
      omega
    · rw [Nat.add_sub_cancel' (by omega), Nat.mul_div_cancel _ hps]
      omega

theorem referenceSlots_serves (hps : 0 < ps) (hreqs : ∀ r ∈ reqs, r.Aligned ps) :
    ∀ {freePages : List Nat}, getNumNewPages ps reqs ≤ freePages.length →
      Serves ps reqs (freePages.take (getNumNewPages ps reqs))
        (perRequest ps (ExtendReq.referenceSlots ps) reqs freePages) := by
  induction reqs with
  | nil =>
    intro freePages _
    exact .nil
  | cons r reqs ih =>
    intro freePages hlen
    have hsum : getNumNewPages ps (r :: reqs) = r.newPages ps + getNumNewPages ps reqs := rfl
    rw [hsum] at hlen ⊢
    rw [take_add]
    apply Serves.cons
    · apply fills_reference hps (hreqs r (mem_cons_self ..))
      rw [length_take]
      omega
    · apply ih fun r' hr' => hreqs r' (mem_cons_of_mem _ hr')
      rw [length_drop]
      omega

theorem perRequest_getElem? (kernel : ExtendReq → List Nat → List Nat) :
    ∀ {reqs : List ExtendReq} {freePages : List Nat} {i : Nat},
      (perRequest ps kernel reqs freePages)[i]? = reqs[i]?.map fun r =>
        kernel r ((freePages.drop (getNumNewPages ps (reqs.take i))).take (r.newPages ps)) := by
  intro reqs
  induction reqs with
  | nil =>
    intro freePages i
    rfl
  | cons r reqs ih =>
    intro freePages i
    cases i with
    | zero => rfl
    | succ i =>
      have hsum : getNumNewPages ps ((r :: reqs).take (i + 1)) =
          r.newPages ps + getNumNewPages ps (reqs.take i) := rfl
      rw [hsum, perRequest, getElem?_cons_succ, getElem?_cons_succ, ih]
      simp only [drop_drop]

theorem startOf_perRequest : ∀ {reqs : List ExtendReq} {freePages : List Nat} {i : Nat},
    startOf (perRequest ps (ExtendReq.referenceSlots ps) reqs freePages) i =
      ((reqs.take i).map fun r => r.seqLen - r.prefixLen).sum := by
  intro reqs
  induction reqs with
  | nil =>
    intro freePages i
    simp [startOf, perRequest]
  | cons r reqs ih =>
    intro freePages i
    cases i with
    | zero => rfl
    | succ i =>
      rw [perRequest, startOf_cons, ih, referenceSlots_length, take_succ_cons, map_cons,
        sum_cons]

theorem perRequest_length (kernel : ExtendReq → List Nat → List Nat) :
    ∀ {reqs : List ExtendReq} {freePages : List Nat},
      (perRequest ps kernel reqs freePages).length = reqs.length := by
  intro reqs
  induction reqs with
  | nil => exact fun {_} => rfl
  | cons r reqs ih =>
    intro freePages
    rw [perRequest, length_cons, ih, length_cons]

/-- The number of tokens of a batch, `extend_num_tokens`. -/
def extendNumTokens (reqs : List ExtendReq) : Nat := (reqs.map fun r => r.seqLen - r.prefixLen).sum

theorem flatten_length (freePages : List Nat) :
    (perRequest ps (ExtendReq.referenceSlots ps) reqs freePages).flatten.length =
      extendNumTokens reqs := by
  have hstart : startOf (perRequest ps (ExtendReq.referenceSlots ps) reqs freePages) reqs.length =
      _ :=
    startOf_perRequest
  unfold startOf at hstart
  rwa [take_of_length_le (perRequest_length _).le, take_length] at hstart

variable {freePages : List Nat} {program : (Nat → Nat) → Nat → Nat → Nat}

/-- Programs that fill the segments of their requests leave the slots of the batch, in any order. -/
theorem foldl_programs (hps : 0 < ps) {order : List Nat}
    (horder : order.Perm (List.range reqs.length))
    (hprogram : ∀ i r, reqs[i]? = some r → ∀ out, program out i =
      store out ((reqs.take i).map fun r => r.seqLen - r.prefixLen).sum
      (r.seqLen - r.prefixLen) fun j =>
        r.slotOf ps (fun k => freePages.getD (getNumNewPages ps (reqs.take i) + k) 0)
        (r.prefixLen + j))
    (out : Nat → Nat) :
    (List.range (extendNumTokens reqs)).map (order.foldl program out) =
      (perRequest ps (ExtendReq.referenceSlots ps) reqs freePages).flatten := by
  rw [← flatten_length freePages]
  apply map_range_foldl
  · intro i hi
    rw [perRequest_length] at hi
    exact horder.mem_iff.mpr (mem_range.mpr hi)
  · intro i hi
    have hlt := mem_range.mp (horder.mem_iff.mp hi)
    have hget := getElem?_eq_getElem hlt
    have hout : (perRequest ps (ExtendReq.referenceSlots ps) reqs freePages)[i]? =
        some ((reqs[i]).referenceSlots ps
          ((freePages.drop (getNumNewPages ps (reqs.take i))).take ((reqs[i]).newPages ps))) := by
      rw [perRequest_getElem?, hget, Option.map_some]
    refine ⟨_, fun j => (reqs[i]).slotOf ps
      (fun k => freePages.getD (getNumNewPages ps (reqs.take i) + k) 0) ((reqs[i]).prefixLen + j),
      hout, ?_, ?_⟩
    · intro j hj
      rw [referenceSlots_length] at hj
      unfold ExtendReq.referenceSlots
      rw [getElem?_map, getElem?_range hj, Option.map_some]
      congr 1
      apply slotOf_congr hps
      · -- the pages of the request are the next ones of the list
        intro k hk
        rw [getD_eq_getElem?_getD, getElem?_take, if_pos hk, getElem?_drop,
          getD_eq_getElem?_getD]
      · omega
    · intro out
      rw [hprogram i _ hget out, startOf_perRequest, referenceSlots_length]

/-- The kernel leaves the slots of the batch, in whatever order its programs run. -/
theorem allocExtendKernel_eq (hps : 0 < ps) (hreqs : ∀ r ∈ reqs, r.prefixLen ≤ r.seqLen)
    {grid : List Nat} (hgrid : grid.Perm (List.range reqs.length)) (out : Nat → Nat) :
    (List.range (extendNumTokens reqs)).map (allocExtendKernel ps reqs freePages out grid) =
      (perRequest ps (ExtendReq.referenceSlots ps) reqs freePages).flatten :=
  foldl_programs hps hgrid
    (fun _ _ hget out => extendProgram_eq hps hget (hreqs _ (mem_of_getElem? hget)) out) out

theorem allocExtendNaive_eq (hps : 0 < ps) (hreqs : ∀ r ∈ reqs, r.prefixLen ≤ r.seqLen)
    (out : Nat → Nat) :
    (List.range (extendNumTokens reqs)).map (allocExtendNaive ps reqs freePages out) =
      (perRequest ps (ExtendReq.referenceSlots ps) reqs freePages).flatten :=
  foldl_programs hps (.refl _)
    (fun _ _ hget out => naiveRound_eq hps hget (hreqs _ (mem_of_getElem? hget)) out) out

theorem perRequest_reference (hps : 0 < ps) : ∀ {reqs : List ExtendReq} {freePages : List Nat},
    (∀ r ∈ reqs, r.prefixLen ≤ r.seqLen) →
      perRequest ps (ExtendReq.extendSlots ps) reqs freePages =
        perRequest ps (ExtendReq.referenceSlots ps) reqs freePages := by
  intro reqs
  induction reqs with
  | nil => exact fun {_} _ => rfl
  | cons r reqs ih =>
    intro freePages hreqs
    rw [perRequest, perRequest, extendSlots_eq hps (hreqs r (mem_cons_self ..)),
      ih fun r' hr' => hreqs r' (mem_cons_of_mem _ hr')]

/-- The programs of the kernel in any order, and the loop, fill the flat tensor with what the
requests get one by one. -/
theorem allocExtend_flat (hps : 0 < ps) {reqs : List ExtendReq}
    (hreqs : ∀ r ∈ reqs, r.prefixLen ≤ r.seqLen) (freePages : List Nat) {grid : List Nat}
    (hgrid : grid.Perm (List.range reqs.length)) (out : Nat → Nat) :
    (List.range (extendNumTokens reqs)).map (allocExtendKernel ps reqs freePages out grid) =
        (perRequest ps (ExtendReq.extendSlots ps) reqs freePages).flatten ∧
      (List.range (extendNumTokens reqs)).map (allocExtendNaive ps reqs freePages out) =
        (perRequest ps (ExtendReq.extendSlots ps) reqs freePages).flatten := by
  rw [perRequest_reference hps hreqs]
  exact ⟨allocExtendKernel_eq hps hreqs hgrid out, allocExtendNaive_eq hps hreqs out⟩

theorem allocExtend_flat_two :
    (List.range (extendNumTokens [⟨0, 5, -1⟩, ⟨2, 3, 9⟩])).map
        (allocExtendKernel 4 [⟨0, 5, -1⟩, ⟨2, 3, 9⟩] [7, 3] (fun _ => 0) [1, 0]) =
      (perRequest 4 (ExtendReq.extendSlots 4) [⟨0, 5, -1⟩, ⟨2, 3, 9⟩] [7, 3]).flatten :=
  (allocExtend_flat (by decide) (by decide) [7, 3] (by decide) fun _ => 0).1

end Batch

end Sglang.MemCache.Allocator
