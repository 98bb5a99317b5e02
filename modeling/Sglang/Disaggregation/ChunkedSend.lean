import Mathlib.Data.List.Range
import Mathlib.Data.List.Nodup
import Mathlib.Tactic

/-!
# Sending the KV of a Prompt in Chunks

Model of how the prefill side hands the pages of a request to the transfer queue: the token cursor
of the scheduler (`send_kv_chunk` in `disaggregation/prefill.py`), the page cursor of the sender
(`CommonKVSender._prepare_send_indices`) and the share of a context-parallel rank
(`disaggregation/utils.py`).

- `sendKvChunk`, `maybeSendCachedPrefixChunk`, `sendAll`: the calls,
- `Sent`: the two cursors agree, and a rank has handed over its share of what was sent,
- `chunked_send_covers`: each page goes out once, and the last call is marked as the last.

## Conventions

- The row of the request maps positions to slots.
- The room is live, so that each call puts its chunk into the queue.
-/

namespace Sglang.Disaggregation

open List

/-! ## Section 1: Pages -/

def kvToPageNum (numKvIndices pageSize : Nat) : Nat := (numKvIndices + pageSize - 1) / pageSize

/-- `values[::step]`. -/
def stride (step : Nat) : List Nat → List Nat
  | [] => []
  | x :: xs => x :: stride step (xs.drop (step - 1))
termination_by xs => xs.length
decreasing_by simp

def kvToPageIndices (kvIndices : List Nat) (pageSize : Nat) : List Nat :=
  if pageSize = 1 then kvIndices else (stride pageSize kvIndices).map (· / pageSize)

def getCpRankPageBounds (totalPages cpRank cpSize : Nat) : Nat × Nat :=
  let base := totalPages / cpSize
  let rem := totalPages % cpSize
  let localStart := cpRank * base + min cpRank rem
  let nPages := base + if cpRank < rem then 1 else 0
  (localStart, localStart + nPages)

def filterKvIndicesForCpRank (cpRank cpSize : Nat) (kvIndices : List Nat) (indexSlice : Nat × Nat)
    (totalPages : Nat) : List Nat × (Nat × Nat) :=
  if cpSize ≤ 1 then (kvIndices, indexSlice)
  else
    let (rankStart, rankEnd) := getCpRankPageBounds totalPages cpRank cpSize
    let (chunkStart, chunkEnd) := indexSlice
    let firstPos := (max rankStart chunkStart : Int) - chunkStart
    let lastPos := (min rankEnd chunkEnd : Int) - chunkStart
    if lastPos ≤ firstPos then ([], (chunkStart, chunkStart))
    else ((kvIndices.take lastPos.toNat).drop firstPos.toNat,
      (chunkStart + firstPos.toNat, chunkStart + lastPos.toNat))

/-! ## Section 2: The sender and the scheduler -/

structure TransferKVChunk where
  prefillKvIndices : List Nat
  indexSlice : Nat × Nat
  isLastChunk : Bool

/-- The pages of a chunk, each with its position in the index list of the decode side. -/
def TransferKVChunk.pairs (c : TransferKVChunk) : List (Nat × Nat) :=
  c.prefillKvIndices.zip (List.range' c.indexSlice.1 (c.indexSlice.2 - c.indexSlice.1))

/-- The page size and the place of this rank. -/
structure SendConfig where
  pageSize : Nat
  cpRank : Nat
  cpSize : Nat

/-- `CommonKVSender`, and what it has put into the transfer queue. -/
structure KVSender where
  currIdx : Nat
  numKvIndices : Nat
  queue : List TransferKVChunk

/-- `send`, with `_prepare_send_indices`. -/
def KVSender.send (cfg : SendConfig) (s : KVSender) (kvIndices : List Nat) : KVSender :=
  let indexSlice := (s.currIdx, s.currIdx + kvIndices.length)
  let currIdx := s.currIdx + kvIndices.length
  let isLastChunk := decide (currIdx = s.numKvIndices)
  let filtered := filterKvIndicesForCpRank cfg.cpRank cfg.cpSize kvIndices indexSlice s.numKvIndices
  { s with
    currIdx := currIdx
    queue := s.queue ++ [⟨filtered.1, filtered.2, isLastChunk⟩] }

/-- A request: the length of its prompt, its row, its cursor and its sender. -/
structure PrefillReq where
  inputLen : Nat
  reqToToken : Nat → Nat
  startSendIdx : Nat
  sender : KVSender

def finalizeBootstrap (cfg : SendConfig) (inputLen : Nat) (reqToToken : Nat → Nat)
    (decodePrefixLen : Nat) : PrefillReq :=
  let numKvIndicesToSend := inputLen - decodePrefixLen
  ⟨inputLen, reqToToken, decodePrefixLen, ⟨0, kvToPageNum numKvIndicesToSend cfg.pageSize, []⟩⟩

def sendKvChunk (cfg : SendConfig) (req : PrefillReq) (extendRangeEnd : Nat) (lastChunk : Bool)
    (endIdx : Option Nat) : PrefillReq :=
  let startIdx := req.startSendIdx
  let endIdx := endIdx.getD (min extendRangeEnd req.inputLen)
  -- a partial page is postponed to the next call
  let endIdx := if lastChunk then endIdx else endIdx - endIdx % cfg.pageSize
  if endIdx < startIdx then req
  else
    let kvIndices := (List.range' startIdx (endIdx - startIdx)).map req.reqToToken
    let pageIndices := kvToPageIndices kvIndices cfg.pageSize
    if pageIndices.length > 0 ∨ lastChunk then
      { req with sender := req.sender.send cfg pageIndices, startSendIdx := endIdx }
    else req

/-- `maybe_send_cached_prefix_chunk`; `none` is a failed assertion. -/
def maybeSendCachedPrefixChunk (cfg : SendConfig) (enabled : Bool) (req : PrefillReq)
    (cachedEnd : Nat) : Option PrefillReq :=
  if !enabled then some req
  else if cachedEnd ≤ req.startSendIdx then some req
  else if cachedEnd % cfg.pageSize = 0 then some (sendKvChunk cfg req 0 false (some cachedEnd))
  else none

/-- The calls before the last chunk. -/
inductive SendCall where
  /-- `send_kv_chunk(req)` -/
  | chunk (extendRangeEnd : Nat)
  /-- `send_kv_chunk(req, end_idx=req.tmp_end_idx)` -/
  | overlapped (tmpEndIdx : Nat)
  | cachedPrefix (cachedEnd : Nat)

def sendCall (cfg : SendConfig) (enabled : Bool) (req : PrefillReq) : SendCall → Option PrefillReq
  | .chunk extendRangeEnd => some (sendKvChunk cfg req extendRangeEnd false none)
  | .overlapped tmpEndIdx => some (sendKvChunk cfg req 0 false (some tmpEndIdx))
  | .cachedPrefix cachedEnd => maybeSendCachedPrefixChunk cfg enabled req cachedEnd

/-- All calls for a request, the last chunk at the end: what was put into the queue. -/
def sendAll (cfg : SendConfig) (enabled : Bool) (req : PrefillReq) (calls : List SendCall)
    (extendRangeEnd : Nat) : Option (List TransferKVChunk) := do
  let req ← calls.foldlM (sendCall cfg enabled) req
  some (sendKvChunk cfg req extendRangeEnd true none).sender.queue

/-! ## Section 3: Pages of a range of positions -/

theorem stride_range' {step : Nat} (hstep : 0 < step) (f : Nat → Nat) (m : Nat) : ∀ a : Nat,
    stride step ((List.range' a m).map f) =
      (List.range ((m + step - 1) / step)).map fun k => f (a + k * step) := by
  induction m using Nat.strong_induction_on with
  | _ m ih =>
    intro a
    cases m with
    | zero =>
      have hzero : (0 + step - 1) / step = 0 := Nat.div_eq_of_lt (by omega)
      rw [hzero]
      simp [stride]
    | succ m =>
      have hdrop : ((List.range' (a + 1) m).map f).drop (step - 1) =
          (List.range' (a + step) (m - (step - 1))).map f := by
        rw [← map_drop, drop_range', Nat.mul_one,
          show a + 1 + (step - 1) = a + step by omega]
      have hcount : (m + 1 + step - 1) / step = (m - (step - 1) + step - 1) / step + 1 := by
        by_cases hle : step - 1 ≤ m
        · rw [show m + 1 + step - 1 = m - (step - 1) + step - 1 + step by omega,
            Nat.add_div_right _ hstep]
        · rw [show m - (step - 1) + step - 1 = step - 1 by omega,
            Nat.div_eq_of_lt (by omega : step - 1 < step),
            show m + 1 + step - 1 = m + step by omega, Nat.add_div_right _ hstep,
            Nat.div_eq_of_lt (by omega : m < step)]
      have hcons : ∀ (x : Nat) (xs : List Nat),
          stride step (x :: xs) = x :: stride step (xs.drop (step - 1)) := by
        intro x xs
        conv_lhs => unfold stride
      rw [range'_succ, map_cons, hcons, hdrop, ih _ (by omega), hcount,
        range_succ_eq_map, map_cons, map_map]
      congr 1
      · rw [Nat.zero_mul, Nat.add_zero]
      · apply map_congr_left
        intro k _
        simp only [Function.comp]
        congr 1
        rw [Nat.succ_mul]
        omega

theorem kvToPageIndices_range' {pageSize : Nat} (hpage : 0 < pageSize) (row : Nat → Nat)
    (a m : Nat) :
    kvToPageIndices ((List.range' a m).map row) pageSize =
      (List.range (kvToPageNum m pageSize)).map fun k => row (a + k * pageSize) / pageSize := by
  have hstride := stride_range' hpage row m a
  unfold kvToPageIndices
  split
  · next hone =>
    subst hone
    unfold kvToPageNum
    rw [range'_eq_map_range, map_map]
    simp only [Nat.add_sub_cancel, Nat.div_one, Nat.mul_one]
    rfl
  · rw [hstride, map_map]
    rfl

/-! ## Section 4: The share of a rank -/

theorem bounds_next (totalPages cpRank cpSize : Nat) :
    (getCpRankPageBounds totalPages cpRank cpSize).2 =
      (getCpRankPageBounds totalPages (cpRank + 1) cpSize).1 := by
  simp only [getCpRankPageBounds, Nat.succ_mul]
  split <;> omega

theorem bounds_first (totalPages cpSize : Nat) :
    (getCpRankPageBounds totalPages 0 cpSize).1 = 0 := by
  simp [getCpRankPageBounds]

theorem bounds_last (totalPages : Nat) {cpSize : Nat} (h : 0 < cpSize) :
    (getCpRankPageBounds totalPages cpSize cpSize).1 = totalPages := by
  have hlt := Nat.mod_lt totalPages h
  have hdiv := Nat.div_add_mod totalPages cpSize
  simp only [getCpRankPageBounds]
  rw [Nat.min_eq_right hlt.le]
  exact hdiv

theorem bounds_le (totalPages cpRank cpSize : Nat) :
    (getCpRankPageBounds totalPages cpRank cpSize).1 ≤
      (getCpRankPageBounds totalPages cpRank cpSize).2 := by
  exact Nat.le_add_right _ _

theorem bounds_mono (totalPages cpSize : Nat) {r r' : Nat} (h : r ≤ r') :
    (getCpRankPageBounds totalPages r cpSize).1 ≤ (getCpRankPageBounds totalPages r' cpSize).1 := by
  induction r', h using Nat.le_induction with
  | base => exact le_rfl
  | succ r' _ ih =>
    rw [← bounds_next]
    exact ih.trans (bounds_le totalPages r' cpSize)

theorem take_range' (a m k : Nat) : (List.range' a m).take k = List.range' a (min k m) := by
  apply ext_getElem
  · simp
  · intro i _ _
    simp

theorem pairs_filter {cpRank cpSize totalPages c m : Nat} (hsize : cpRank < cpSize)
    (hc : c + m ≤ totalPages) (page : Nat → Nat) (isLastChunk : Bool) :
    let filtered := filterKvIndicesForCpRank cpRank cpSize ((List.range' c m).map page) (c, c + m)
      totalPages
    let bounds := getCpRankPageBounds totalPages cpRank cpSize
    (⟨filtered.1, filtered.2, isLastChunk⟩ : TransferKVChunk).pairs =
      (List.range' (max bounds.1 c) (min bounds.2 (c + m) - max bounds.1 c)).map
        fun k => (page k, k) := by
  intro filtered bounds
  have hzip : ∀ a k : Nat, ((List.range' a k).map page).zip (List.range' a k) =
      (List.range' a k).map fun i => (page i, i) := by
    intro a k
    generalize List.range' a k = l
    induction l with
    | nil => rfl
    | cons x l ih => rw [map_cons, zip_cons_cons, ih, map_cons]
  -- one rank takes every page; else the chunk is cut to the rank's bounds
  by_cases hone : cpSize ≤ 1
  · obtain rfl : cpSize = 1 := by omega
    obtain rfl : cpRank = 0 := by omega
    have hbounds : bounds = (0, totalPages) := by simp [bounds, getCpRankPageBounds, Nat.mod_one]
    have hfiltered : filtered = ((List.range' c m).map page, (c, c + m)) := by
      simp [filtered, filterKvIndicesForCpRank]
    rw [hfiltered, hbounds, TransferKVChunk.pairs]
    simp only [Nat.add_sub_cancel_left, Nat.zero_max]
    rw [Nat.min_eq_right hc, Nat.add_sub_cancel_left, hzip]
  · have hfiltered : filtered = filterKvIndicesForCpRank cpRank cpSize ((List.range' c m).map page)
        (c, c + m) totalPages := rfl
    rw [filterKvIndicesForCpRank, if_neg hone] at hfiltered
    dsimp only at hfiltered
    change filtered = if _ then _ else _ at hfiltered
    split at hfiltered
    · next hempty =>
      have hnone : min bounds.2 (c + m) - max bounds.1 c = 0 := by
        simp only [bounds]
        omega
      rw [hfiltered, hnone, TransferKVChunk.pairs]
      rfl
    · next hsome =>
      have hfirst : ((max bounds.1 c : Int) - c).toNat = max bounds.1 c - c := by omega
      have hlast : ((min bounds.2 (c + m) : Int) - c).toNat = min bounds.2 (c + m) - c := by omega
      have hlt : max bounds.1 c < min bounds.2 (c + m) := by
        simp only [bounds]
        omega
      have hslice : filtered = (((List.range' c m).map page).take (min bounds.2 (c + m) - c) |>.drop
          (max bounds.1 c - c), (max bounds.1 c, min bounds.2 (c + m))) := by
        rw [hfiltered]
        refine Prod.ext ?_ (Prod.ext ?_ ?_)
        · change List.drop _ (List.take _ _) = _
          rw [← hfirst, ← hlast]
          push_cast
          rfl
        · simp only [bounds] at hlt ⊢
          omega
        · simp only [bounds] at hlt ⊢
          omega
      have htake : (((List.range' c m).map page).take (min bounds.2 (c + m) - c)).drop
          (max bounds.1 c - c) =
            (List.range' (max bounds.1 c) (min bounds.2 (c + m) - max bounds.1 c)).map page := by
        rw [← map_take, ← map_drop, take_range', drop_range', Nat.mul_one]
        congr 2
        · omega
        · omega
      rw [hslice, TransferKVChunk.pairs, htake, hzip]

theorem length_filter (cpRank cpSize totalPages c : Nat) (kvIndices : List Nat) :
    let filtered := filterKvIndicesForCpRank cpRank cpSize kvIndices (c, c + kvIndices.length)
      totalPages
    filtered.1.length = filtered.2.2 - filtered.2.1 := by
  intro filtered
  simp only [filtered, filterKvIndicesForCpRank]
  split
  · simp
  · split
    · simp
    · simp only [length_drop, length_take]
      omega

/-! ## Section 5: The two cursors -/

section Run

variable {cfg : SendConfig} {n d : Nat} {row : Nat → Nat}

/-- The page at position `k` of the index list of the decode side. -/
def pageAt (pageSize : Nat) (row : Nat → Nat) (d k : Nat) : Nat := row (d + k * pageSize) / pageSize

/-- What this rank hands over of the first `c` pages. -/
def share (cfg : SendConfig) (total : Nat) (page : Nat → Nat) (c : Nat) : List (Nat × Nat) :=
  let bounds := getCpRankPageBounds total cfg.cpRank cfg.cpSize
  (List.range' bounds.1 (min bounds.2 c - bounds.1)).map fun k => (page k, k)

theorem share_zero (cfg : SendConfig) (total : Nat) (page : Nat → Nat) :
    share cfg total page 0 = [] := by
  simp [share]

theorem share_add (cfg : SendConfig) (total : Nat) (page : Nat → Nat) (c m : Nat) :
    let bounds := getCpRankPageBounds total cfg.cpRank cfg.cpSize
    share cfg total page (c + m) = share cfg total page c ++
      (List.range' (max bounds.1 c) (min bounds.2 (c + m) - max bounds.1 c)).map
        fun k => (page k, k) := by
  intro bounds
  have hle : bounds.1 ≤ bounds.2 := bounds_le total cfg.cpRank cfg.cpSize
  simp only [share]
  rw [← map_append]
  congr 1
  change List.range' bounds.1 _ = List.range' bounds.1 _ ++ _
  by_cases hbefore : c ≤ bounds.1
  · -- nothing of the share has been reached before
    rw [show min bounds.2 c - bounds.1 = 0 by omega, Nat.max_eq_left hbefore]
    rfl
  · by_cases hafter : bounds.2 ≤ c
    · rw [show min bounds.2 (c + m) - max bounds.1 c = 0 by omega,
        show min bounds.2 (c + m) = min bounds.2 c by omega]
      exact (append_nil _).symm
    · rw [show max bounds.1 c = bounds.1 + (min bounds.2 c - bounds.1) by omega,
        range'_append_1]
      congr 1
      simp only [bounds] at hle hbefore hafter ⊢
      omega

/-- The token cursor and the page cursor agree, and this rank has handed over its share of the first
`c` pages in chunks that are not marked as the last. -/
structure Sent (cfg : SendConfig) (n d : Nat) (row : Nat → Nat) (c : Nat) (req : PrefillReq) :
    Prop where
  inputLen : req.inputLen = n
  reqToToken : req.reqToToken = row
  startSendIdx : req.startSendIdx = d + c * cfg.pageSize
  currIdx : req.sender.currIdx = c
  numKvIndices : req.sender.numKvIndices = kvToPageNum (n - d) cfg.pageSize
  inside : d + c * cfg.pageSize ≤ n
  pairs : req.sender.queue.flatMap (·.pairs) =
    share cfg (kvToPageNum (n - d) cfg.pageSize) (pageAt cfg.pageSize row d) c
  sized : ∀ chunk ∈ req.sender.queue,
    chunk.prefillKvIndices.length = chunk.indexSlice.2 - chunk.indexSlice.1
  notLast : ∀ chunk ∈ req.sender.queue, chunk.isLastChunk = false

theorem sent_finalizeBootstrap (cfg : SendConfig) (row : Nat → Nat) (h : d ≤ n) :
    Sent cfg n d row 0 (finalizeBootstrap cfg n row d) where
  inputLen := rfl
  reqToToken := rfl
  startSendIdx := by simp [finalizeBootstrap]
  currIdx := rfl
  numKvIndices := rfl
  inside := by omega
  pairs := (share_zero _ _ _).symm
  sized := by simp [finalizeBootstrap]
  notLast := by simp [finalizeBootstrap]

theorem kvToPageNum_mul {pageSize : Nat} (h : 0 < pageSize) (m : Nat) :
    kvToPageNum (m * pageSize) pageSize = m := by
  unfold kvToPageNum
  rw [Nat.add_sub_assoc h, Nat.add_comm, Nat.add_mul_div_right _ _ h,
    Nat.div_eq_of_lt (Nat.sub_lt h Nat.one_pos), Nat.zero_add]

theorem kvToPageNum_rest {pageSize : Nat} (h : 0 < pageSize) {len c : Nat}
    (hc : c * pageSize ≤ len) :
    c + kvToPageNum (len - c * pageSize) pageSize = kvToPageNum len pageSize := by
  unfold kvToPageNum
  rw [show len + pageSize - 1 = len - c * pageSize + pageSize - 1 + c * pageSize by omega,
    Nat.add_mul_div_right _ _ h, Nat.add_comm]

theorem lt_kvToPageNum {pageSize : Nat} (h : 0 < pageSize) {len c : Nat} (hc : c * pageSize < len) :
    c < kvToPageNum len pageSize := by
  have hrest : 0 < kvToPageNum (len - c * pageSize) pageSize :=
    Nat.div_pos (by omega) h
  have := kvToPageNum_rest h hc.le
  omega

variable (hpage : 0 < cfg.pageSize) (hrank : cfg.cpRank < cfg.cpSize)

include hrank in
theorem Sent.send {c : Nat} {req : PrefillReq} (h : Sent cfg n d row c req) {m : Nat}
    (hm : c + m ≤ kvToPageNum (n - d) cfg.pageSize) :
    let pages :=
      (List.range m).map fun k => row (d + c * cfg.pageSize + k * cfg.pageSize) / cfg.pageSize
    ∃ chunk : TransferKVChunk,
      req.sender.send cfg pages =
      ⟨c + m, kvToPageNum (n - d) cfg.pageSize, req.sender.queue ++ [chunk]⟩ ∧
      (req.sender.queue ++ [chunk]).flatMap (·.pairs) =
        share cfg (kvToPageNum (n - d) cfg.pageSize) (pageAt cfg.pageSize row d) (c + m) ∧
      chunk.prefillKvIndices.length = chunk.indexSlice.2 - chunk.indexSlice.1 ∧
      chunk.isLastChunk = decide (c + m = kvToPageNum (n - d) cfg.pageSize) := by
  intro pages
  have hlength : pages.length = m := by simp [pages]
  have hpages : pages = (List.range' c m).map (pageAt cfg.pageSize row d) := by
    rw [range'_eq_map_range, map_map]
    apply map_congr_left
    intro k _
    simp only [Function.comp, pageAt, Nat.add_mul, Nat.add_assoc]
  have hpairs := pairs_filter hrank hm (pageAt cfg.pageSize row d)
    (decide (c + m = kvToPageNum (n - d) cfg.pageSize))
  have hsized := length_filter cfg.cpRank cfg.cpSize (kvToPageNum (n - d) cfg.pageSize) c pages
  rw [hlength] at hsized
  rw [← hpages] at hpairs
  obtain ⟨filtered, hfiltered⟩ : ∃ filtered,
    filtered = filterKvIndicesForCpRank cfg.cpRank cfg.cpSize
    pages (c, c + m) (kvToPageNum (n - d) cfg.pageSize) := ⟨_, rfl⟩
  rw [← hfiltered] at hpairs hsized
  refine ⟨⟨filtered.1, filtered.2, decide (c + m = kvToPageNum (n - d) cfg.pageSize)⟩, ?_, ?_,
    hsized, rfl⟩
  · simp only [KVSender.send, h.currIdx, h.numKvIndices, hlength, ← hfiltered]
  · rw [flatMap_append, h.pairs, flatMap_singleton, hpairs, share_add]

include hpage hrank in
theorem Sent.chunk {c : Nat} {req : PrefillReq} (h : Sent cfg n d row c req)
    (haligned : cfg.pageSize ∣ d) (extendRangeEnd : Nat) (endIdx : Option Nat)
    (hend : endIdx.getD extendRangeEnd < n) :
    ∃ c', Sent cfg n d row c' (sendKvChunk cfg req extendRangeEnd false endIdx) := by
  obtain ⟨e, he⟩ : ∃ e, e = endIdx.getD (min extendRangeEnd req.inputLen) := ⟨_, rfl⟩
  have hlt : e < n := by
    cases endIdx with
    | none =>
      simp only [Option.getD_none] at he hend
      omega
    | some e' =>
      simp only [Option.getD_some] at he hend
      omega
  simp only [sendKvChunk, ← he, Bool.false_eq_true, if_false, or_false, h.startSendIdx,
    h.reqToToken]
  split
  · exact ⟨c, h⟩
  · next hstart =>
    -- both cursors are at a page boundary, so that the chunk has whole pages only
    obtain ⟨m, hm⟩ : ∃ m, e - e % cfg.pageSize = d + c * cfg.pageSize + m * cfg.pageSize := by
      have hdvd : cfg.pageSize ∣ e - e % cfg.pageSize - (d + c * cfg.pageSize) :=
        Nat.dvd_sub (Nat.dvd_sub_mod e) (Nat.dvd_add haligned (Nat.dvd_mul_left _ _))
      obtain ⟨m, hm⟩ := hdvd
      refine ⟨m, ?_⟩
      rw [Nat.mul_comm m, ← hm]
      omega
    have hwhole : e - e % cfg.pageSize - (d + c * cfg.pageSize) = m * cfg.pageSize := by omega
    rw [hwhole, kvToPageIndices_range' hpage, kvToPageNum_mul hpage]
    split
    · have hinside : (c + m) * cfg.pageSize < n - d := by
        rw [Nat.add_mul]
        omega
      have hopen := lt_kvToPageNum hpage hinside
      obtain ⟨chunk, hsend, hpairs, hsized, hlast⟩ := h.send hrank hopen.le
      rw [decide_eq_false hopen.ne] at hlast
      refine ⟨c + m, ?_⟩
      rw [hsend, hm]
      refine ⟨h.inputLen, rfl, ?_, rfl, rfl, ?_, hpairs, ?_, ?_⟩
      · simp only [Nat.add_mul, Nat.add_assoc]
      · omega
      · intro chunk' hmem
        rcases mem_append.mp hmem with hmem | hmem
        · exact h.sized chunk' hmem
        · obtain rfl := mem_singleton.mp hmem
          exact hsized
      · intro chunk' hmem
        rcases mem_append.mp hmem with hmem | hmem
        · exact h.notLast chunk' hmem
        · obtain rfl := mem_singleton.mp hmem
          exact hlast
    · exact ⟨c, h⟩

/-- A call before the last chunk: it ends inside the prompt, and a cached prefix ends with a
page. -/
def SendCall.Inside (pageSize n : Nat) : SendCall → Prop
  | .chunk extendRangeEnd => extendRangeEnd < n
  | .overlapped tmpEndIdx => tmpEndIdx < n
  | .cachedPrefix cachedEnd => cachedEnd < n ∧ cachedEnd % pageSize = 0

include hpage hrank in
theorem Sent.call {c : Nat} {req : PrefillReq} (h : Sent cfg n d row c req)
    (haligned : cfg.pageSize ∣ d) (enabled : Bool) {call : SendCall}
    (hcall : call.Inside cfg.pageSize n) :
    ∃ c' req', sendCall cfg enabled req call = some req' ∧ Sent cfg n d row c' req' := by
  cases call with
  | chunk extendRangeEnd =>
    obtain ⟨c', hc'⟩ := h.chunk hpage hrank haligned extendRangeEnd none hcall
    exact ⟨c', _, rfl, hc'⟩
  | overlapped tmpEndIdx =>
    obtain ⟨c', hc'⟩ := h.chunk hpage hrank haligned 0 (some tmpEndIdx) hcall
    exact ⟨c', _, rfl, hc'⟩
  | cachedPrefix cachedEnd =>
    obtain ⟨hlt, hmod⟩ := hcall
    simp only [sendCall, maybeSendCachedPrefixChunk]
    split
    · exact ⟨c, req, rfl, h⟩
    · split
      · exact ⟨c, req, rfl, h⟩
      · obtain ⟨c', hc'⟩ := h.chunk hpage hrank haligned 0 (some cachedEnd) hlt
        exact ⟨c', _, rfl, hc'⟩

include hpage hrank in
theorem Sent.calls (haligned : cfg.pageSize ∣ d) (enabled : Bool) (calls : List SendCall) :
    ∀ {c : Nat} {req : PrefillReq}, Sent cfg n d row c req →
      (∀ call ∈ calls, call.Inside cfg.pageSize n) →
        ∃ c' req', calls.foldlM (sendCall cfg enabled) req = some req' ∧
        Sent cfg n d row c' req' := by
  induction calls with
  | nil =>
    intro c req h _
    exact ⟨c, req, rfl, h⟩
  | cons call calls ih =>
    intro c req h hcalls
    obtain ⟨c₁, req₁, hstep, h₁⟩ := h.call hpage hrank haligned enabled (hcalls call (by simp))
    obtain ⟨c₂, req₂, hrun, h₂⟩ := ih h₁ fun call' hmem => hcalls call' (mem_cons_of_mem _ hmem)
    refine ⟨c₂, req₂, ?_, h₂⟩
    rw [foldlM_cons, hstep]
    exact hrun

include hpage hrank in
theorem Sent.last {c : Nat} {req : PrefillReq} (h : Sent cfg n d row c req) {extendRangeEnd : Nat}
    (hend : n ≤ extendRangeEnd) :
    ∃ last : TransferKVChunk,
      (sendKvChunk cfg req extendRangeEnd true none).sender.queue = req.sender.queue ++ [last] ∧
      (req.sender.queue ++ [last]).flatMap (·.pairs) =
        share cfg (kvToPageNum (n - d) cfg.pageSize) (pageAt cfg.pageSize row d)
          (kvToPageNum (n - d) cfg.pageSize) ∧
      last.prefillKvIndices.length = last.indexSlice.2 - last.indexSlice.1 ∧
      last.isLastChunk = true := by
  have hinside := h.inside
  have hrest := kvToPageNum_rest hpage (show c * cfg.pageSize ≤ n - d by omega)
  obtain ⟨last, hsend, hpairs, hsized, hlast⟩ := h.send hrank hrest.le
  rw [hrest, decide_eq_true rfl] at hlast
  rw [hrest] at hpairs
  refine ⟨last, ?_, hpairs, hsized, hlast⟩
  simp only [sendKvChunk, Option.getD_none, h.inputLen, Nat.min_eq_right hend, if_true,
    h.startSendIdx, h.reqToToken, or_true]
  rw [if_neg (by omega), kvToPageIndices_range' hpage,
    show n - (d + c * cfg.pageSize) = n - d - c * cfg.pageSize by omega, hsend]

end Run

/-! ## Section 6: All ranks -/

/-- The pairs of a page and its position that were handed to the transfer queue. -/
def handedOver (queue : List TransferKVChunk) : List (Nat × Nat) := queue.flatMap (·.pairs)

/-- Over the queues of the ranks each of the pages at the positions from `d` to `n` is handed over
once, with its own position in the index list of the decode side. -/
structure CoversOnce (pageSize n d cpSize : Nat) (rows : Nat → Nat → Nat)
    (queues : Nat → List TransferKVChunk) : Prop where
  sized : ∀ r < cpSize, ∀ chunk ∈ queues r,
    chunk.prefillKvIndices.length = chunk.indexSlice.2 - chunk.indexSlice.1
  disjoint : ∀ r < cpSize, ∀ r' < cpSize, r ≠ r' →
    (handedOver (queues r)).Disjoint (handedOver (queues r'))
  once : ∀ r < cpSize, (handedOver (queues r)).Nodup
  own : ∀ r < cpSize, ∀ p k, (p, k) ∈ handedOver (queues r) →
    k < kvToPageNum (n - d) pageSize ∧ p = pageAt pageSize (rows r) d k
  covered : ∀ k < kvToPageNum (n - d) pageSize,
    ∃! r, r < cpSize ∧ (pageAt pageSize (rows r) d k, k) ∈ handedOver (queues r)

/-- The final send is marked as the last, and no earlier one is. -/
def OnlyFinalMarked (queue : List TransferKVChunk) : Prop :=
  ∃ front last, queue = front ++ [last] ∧ last.isLastChunk = true ∧
    ∀ chunk ∈ front, chunk.isLastChunk = false

theorem mem_share {cfg : SendConfig} {total : Nat} {page : Nat → Nat} {p k : Nat}
    (hrank : cfg.cpRank < cfg.cpSize) :
    (p, k) ∈ share cfg total page total ↔ p = page k ∧
      (getCpRankPageBounds total cfg.cpRank cfg.cpSize).1 ≤ k ∧
        k < (getCpRankPageBounds total cfg.cpRank cfg.cpSize).2 := by
  have hend : (getCpRankPageBounds total cfg.cpRank cfg.cpSize).2 ≤ total := by
    rw [bounds_next]
    conv_rhs => rw [← bounds_last total (Nat.zero_lt_of_lt hrank)]
    exact bounds_mono _ _ hrank
  simp only [share, mem_map, mem_range'_1, Prod.mk.injEq]
  constructor
  · rintro ⟨k', ⟨hfrom, hto⟩, rfl, rfl⟩
    exact ⟨rfl, hfrom, by omega⟩
  · rintro ⟨rfl, hfrom, hto⟩
    exact ⟨k, ⟨hfrom, by omega⟩, rfl, rfl⟩

theorem exists_share {total cpSize k : Nat} (h : k < total) (hsize : 0 < cpSize) :
    ∃ r < cpSize,
    (getCpRankPageBounds total r cpSize).1 ≤ k ∧ k < (getCpRankPageBounds total r cpSize).2 := by
  -- otherwise every share begins no later than `k`, also the one after the last rank
  by_contra hnone
  push Not at hnone
  have hbegin : ∀ r ≤ cpSize, (getCpRankPageBounds total r cpSize).1 ≤ k := by
    intro r
    induction r with
    | zero =>
      intro _
      rw [bounds_first]
      exact Nat.zero_le k
    | succ r ih =>
      intro hr
      rw [← bounds_next]
      exact hnone r hr (ih (Nat.le_of_succ_le hr))
  have hlast := hbegin cpSize le_rfl
  rw [bounds_last total hsize] at hlast
  omega

theorem share_unique {total cpSize k r r' : Nat}
    (h : (getCpRankPageBounds total r cpSize).1 ≤ k ∧ k < (getCpRankPageBounds total r cpSize).2)
    (h' : (getCpRankPageBounds total r' cpSize).1 ≤ k ∧
      k < (getCpRankPageBounds total r' cpSize).2) :
    r = r' := by
  rcases Nat.lt_trichotomy r r' with hlt | heq | hlt
  · have hle := bounds_mono total cpSize (Nat.succ_le_of_lt hlt)
    rw [← bounds_next] at hle
    omega
  · exact heq
  · have hle := bounds_mono total cpSize (Nat.succ_le_of_lt hlt)
    rw [← bounds_next] at hle
    omega

/-- For every prompt, decode prefix, sequence of chunks and number of context-parallel ranks, each
page is handed over once, and the last chunk is the one that is marked. -/
theorem chunked_send_covers {pageSize n d cpSize extendRangeEnd : Nat} (hpage : 0 < pageSize)
    (hsize : 0 < cpSize) (haligned : pageSize ∣ d) (hstarts : d ≤ n) (rows : Nat → Nat → Nat)
    (enabled : Bool) (calls : List SendCall) (hcalls : ∀ call ∈ calls, call.Inside pageSize n)
    (hend : n ≤ extendRangeEnd) :
    ∃ queues : Nat → List TransferKVChunk,
      (∀ r < cpSize,
        sendAll ⟨pageSize, r, cpSize⟩ enabled (finalizeBootstrap ⟨pageSize, r, cpSize⟩ n
        (rows r) d) calls extendRangeEnd = some (queues r)) ∧
      CoversOnce pageSize n d cpSize rows queues ∧ ∀ r < cpSize, OnlyFinalMarked (queues r) := by
  obtain ⟨total, htotal⟩ : ∃ total, total = kvToPageNum (n - d) pageSize := ⟨_, rfl⟩
  have hrun : ∀ r : Nat, ∃ queue : List TransferKVChunk, r < cpSize →
      sendAll ⟨pageSize, r, cpSize⟩ enabled (finalizeBootstrap ⟨pageSize, r, cpSize⟩ n (rows r) d)
        calls extendRangeEnd = some queue ∧
      handedOver queue = share ⟨pageSize, r, cpSize⟩ total (pageAt pageSize (rows r) d) total ∧
      (∀ chunk ∈ queue, chunk.prefillKvIndices.length = chunk.indexSlice.2 - chunk.indexSlice.1) ∧
      OnlyFinalMarked queue := by
    intro r
    have hstart := sent_finalizeBootstrap ⟨pageSize, r, cpSize⟩ (rows r) hstarts
    by_cases hr : r < cpSize
    · obtain ⟨c, req, hcallsRun, hsent⟩ := Sent.calls hpage hr haligned enabled calls hstart hcalls
      obtain ⟨last, hqueue, hpairs, hsized, hlast⟩ := hsent.last hpage hr hend
      refine ⟨req.sender.queue ++ [last], fun _ => ⟨?_, ?_, ?_, ?_⟩⟩
      · simp only [sendAll, hcallsRun, ← hqueue]
        rfl
      · rw [htotal]
        exact hpairs
      · intro chunk hmem
        rcases mem_append.mp hmem with hmem | hmem
        · exact hsent.sized chunk hmem
        · obtain rfl := mem_singleton.mp hmem
          exact hsized
      · exact ⟨_, last, rfl, hlast, hsent.notLast⟩
    · exact ⟨[], fun h => absurd h hr⟩
  -- the ranks send shares of the same pages, bounded as `getCpRankPageBounds` says
  choose queues hqueues using hrun
  have hmem : ∀ r, r < cpSize → ∀ p k, (p, k) ∈ handedOver (queues r) ↔
      p = pageAt pageSize (rows r) d k ∧ (getCpRankPageBounds total r cpSize).1 ≤ k ∧
        k < (getCpRankPageBounds total r cpSize).2 := by
    intro r hr p k
    rw [(hqueues r hr).2.1]
    exact mem_share hr
  refine ⟨queues, fun r hr => (hqueues r hr).1, ⟨fun r hr => (hqueues r hr).2.2.1, ?_, ?_, ?_, ?_⟩,
    fun r hr => (hqueues r hr).2.2.2⟩
  · intro r hr r' hr' hne ⟨p, k⟩ hin hin'
    exact hne (share_unique ((hmem r hr p k).mp hin).2 ((hmem r' hr' p k).mp hin').2)
  · intro r hr
    rw [(hqueues r hr).2.1]
    apply List.Nodup.map
    · intro k k' heq
      exact (Prod.mk.inj heq).2
    · exact nodup_range'
  · intro r hr p k hin
    obtain ⟨hp, _, hto⟩ := (hmem r hr p k).mp hin
    refine ⟨?_, hp⟩
    have hle := bounds_mono total cpSize (Nat.succ_le_of_lt hr)
    rw [← bounds_next, bounds_last total hsize] at hle
    omega
  · intro k hk
    rw [← htotal] at hk
    obtain ⟨r, hr, hbounds⟩ := exists_share hk hsize
    refine ⟨r, ⟨hr, (hmem r hr _ k).mpr ⟨rfl, hbounds⟩⟩, ?_⟩
    rintro r' ⟨hr', hin⟩
    exact share_unique ((hmem r' hr' _ k).mp hin).2 hbounds

/-- Two ranks share five pages of a prompt whose last page is partial. -/
theorem partial_page_covered :
    ∃ queues : Nat → List TransferKVChunk,
      (∀ r < 2, sendAll ⟨4, r, 2⟩ true (finalizeBootstrap ⟨4, r, 2⟩ 22 (fun i => i + 40) 4)
        [.cachedPrefix 8, .chunk 11, .overlapped 14] 22 = some (queues r)) ∧
      CoversOnce 4 22 4 2 (fun _ i => i + 40) queues ∧ ∀ r < 2, OnlyFinalMarked (queues r) := by
  apply chunked_send_covers (by decide) (by decide) (by decide) (by decide) (fun _ i => i + 40)
  · intro call hmem
    simp only [mem_cons, not_mem_nil, or_false] at hmem
    obtain rfl | rfl | rfl := hmem <;> simp [SendCall.Inside]
  · exact le_rfl

end Sglang.Disaggregation
