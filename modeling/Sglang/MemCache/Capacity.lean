import Sglang.MemCache.UrgentPack
import Sglang.MemCache.ByteBudget

/-!
# What the Capacity Reports Promise

- `Affords`: one end can take `n` pages next to a frontier of its peer; then
  `_alloc_bind_fast_or_slow` takes them,
- `EndInv.flush_urgent_room`: an urgent flush of the peer releases the bytes that
  `_peer_drainable_hole_bytes` counts,
- `KeepsPromise`: what `schedulable_available_size` promises is allocated,
- `SwaRequest`: the three allocations of `UnifiedSWATokenToKVPoolAllocator`, what they bind and what
  they leave alone,
- `run_capacity`: both hold in every state that a run reaches.
-/

namespace Sglang.MemCache

open List
open Lib
open MultiEndedAllocator

/-! ## Section 1: Reports -/

def MultiEndedAllocator.availableTokens (cfg : EndConfig) (s : MultiEndedAllocator)
    (peer : Option Int) (extraGapBytes : Int) : Int :=
  let gapBytes := s.currentGapBytes cfg peer + extraGapBytes
  let pagesByBytes := gapBytes / cfg.entryBytesPerPage
  let pagesByIndexSpace := cfg.numPages - cfg.minPageIndex - s.allocatedPages cfg
  let pagesExtend := min pagesByBytes pagesByIndexSpace
  let pagesDrain : Int := if cfg.lazyCompaction then s.freePhysPages.length else 0
  (pagesExtend + pagesDrain) * cfg.pageSize

/-- `_peer_drainable_hole_bytes`, on the peer. -/
def EndConfig.drainableHoleBytes (peerCfg : EndConfig) (peer : MultiEndedAllocator) : Int :=
  if ¬ peerCfg.lazyCompaction then 0 else peer.freePhysPages.length * peerCfg.entryBytesPerPage

def EndConfig.schedulableAvailableSize (cfg peerCfg : EndConfig) (own peer : MultiEndedAllocator) :
    Int :=
  own.availableTokens cfg (some (peer.frontier peerCfg)) (peerCfg.drainableHoleBytes peer)

/-! ## Section 2: Taking what is there -/

/-- The end can take `n` pages: the gap up to `f` has the bytes, and the index space the indices,
for the pages that the holes do not give. -/
def EndConfig.Affords (cfg : EndConfig) (s : MultiEndedAllocator) (f : Int) (n : Nat) : Prop :=
  0 < n - s.freePhysPages.length →
    ((n - s.freePhysPages.length : Nat) * cfg.entryBytesPerPage : Int) ≤ cfg.room s f ∧
      ((n - s.freePhysPages.length : Nat) : Int) ≤ cfg.indexRoom s

section OneEnd

variable {cfg peerCfg : EndConfig} {s t own peer : MultiEndedAllocator} {live peerLive : List Int}
  {f : Int}
  {n : Nat}

theorem availableTokens_le {g extra : Int}
    (hroom : max 0 (cfg.room s f) + extra ≤ max 0 (cfg.room s g)) :
    s.availableTokens cfg (some f) extra ≤ s.availableSize cfg (some g) := by
  unfold availableTokens availableSize
  rw [EndConfig.currentGapBytes_eq, EndConfig.currentGapBytes_eq]
  apply mul_le_mul_of_nonneg_right _ (Int.natCast_nonneg _)
  apply add_le_add_left
  apply min_le_min_right
  exact Int.ediv_le_ediv (by exact_mod_cast cfg.entryBytes_pos) hroom

theorem affords_of_available (hn : (n * cfg.pageSize : Int) ≤ s.availableSize cfg (some f)) :
    cfg.Affords s f n := by
  intro hk
  have hps : (0 : Int) < cfg.pageSize := by exact_mod_cast cfg.pageSize_pos
  refine ⟨room_of_available hn hk.ne' (by omega), ?_⟩
  unfold availableSize at hn
  have hle := le_of_mul_le_mul_right hn hps
  have hdrain : (if cfg.lazyCompaction then (s.freePhysPages.length : Int) else 0) ≤
      s.freePhysPages.length := by
    split <;> omega
  have hindex := min_le_right (s.currentGapBytes cfg (some f) / cfg.entryBytesPerPage)
    (cfg.numPages - cfg.minPageIndex - s.allocatedPages cfg)
  unfold EndConfig.indexRoom
  omega

theorem extendWatermark_isSome (hwm : cfg.Watermark s.watermark)
    (hbytes : (n * cfg.entryBytesPerPage : Int) ≤ cfg.room s f)
    (hindex : (n : Int) ≤ cfg.indexRoom s) :
    ∃ t, s.extendWatermark cfg (some f) n = some t := by
  have he : (0 : Int) < cfg.entryBytesPerPage := by exact_mod_cast cfg.entryBytes_pos
  have hlo := hwm.1
  unfold EndConfig.room MultiEndedAllocator.frontier at hbytes
  unfold EndConfig.indexRoom allocatedPages at hindex
  unfold EndConfig.lo EndConfig.key GrowDirection.key at hlo
  cases hd : cfg.growDirection with
  | up =>
    simp only [hd] at hbytes hindex hlo
    refine ⟨{ s with watermark := s.watermark + n }, extendWatermark_eq_some.mpr ?_⟩
    simp only [hd]
    refine ⟨⟨by omega, ?_⟩, trivial⟩
    apply Int.le_ediv_of_mul_le he
    have : (s.watermark + n) * (cfg.entryBytesPerPage : Int) =
        s.watermark * cfg.entryBytesPerPage + n * cfg.entryBytesPerPage := by ring
    unfold byteHighFrontier at hbytes
    simp only [hd] at hbytes
    omega
  | down =>
    simp only [hd] at hbytes hindex hlo
    refine ⟨{ s with watermark := s.watermark - n }, extendWatermark_eq_some.mpr ?_⟩
    simp only [hd]
    refine ⟨⟨by omega, ?_⟩, trivial⟩
    apply Int.ediv_le_of_le_mul he
    have : (s.watermark - n + 1) * (cfg.entryBytesPerPage : Int) =
        (s.watermark + 1) * cfg.entryBytesPerPage - n * cfg.entryBytesPerPage := by ring
    unfold byteLowFrontier at hbytes
    simp only [hd] at hbytes
    omega

theorem allocBind_isSome (hwm : cfg.Watermark s.watermark) (hlazy : cfg.lazyCompaction = true)
    (h : cfg.Affords s f n) (vPages : List Nat) : ∃ t, s.allocBind cfg
    (some f) vPages n = some t := by
  unfold allocBind
  by_cases hn : n = 0
  · exact ⟨s, if_pos hn⟩
  rw [if_neg hn]
  by_cases hholes : s.freePhysPages = []
  · -- the fast path: all pages are new
    rw [if_pos (Or.inr hholes), if_pos hlazy]
    unfold EndConfig.Affords at h
    rw [hholes, length_nil, Nat.sub_zero] at h
    obtain ⟨hbytes, hindex⟩ := h (Nat.pos_of_ne_zero hn)
    obtain ⟨t, ht⟩ := extendWatermark_isSome hwm hbytes hindex
    rw [ht]
    exact ⟨_, rfl⟩
  · rw [if_neg (by simp [hlazy, hholes])]
    have hmore : n - min n s.freePhysPages.length = n - s.freePhysPages.length := by omega
    have hext : ∃ u, (if 0 < n - min n s.freePhysPages.length then
        s.extendWatermark cfg (some f) (n - min n s.freePhysPages.length) else some s) =
          some u := by
      rw [hmore]
      split
      · next hk =>
        obtain ⟨hbytes, hindex⟩ := h hk
        exact extendWatermark_isSome hwm hbytes hindex
      · exact ⟨s, rfl⟩
    obtain ⟨u, hu⟩ := hext
    unfold takePhysicalPages
    simp only [hu]
    exact ⟨_, rfl⟩

theorem gate_passes (hlazy : cfg.lazyCompaction = true) {flushed : Int} {need : Nat}
    (hroom : (need : Int) ≤ s.availableSize cfg (some f) ∨
      (need : Int) ≤ s.availableSize cfg (some flushed)) :
    ∃ view, s.gate cfg (some f) (some flushed) need = some (some view) := by
  unfold gate
  by_cases hshort : (need : Int) > s.availableSize cfg (some f)
  · rw [if_pos hshort, if_pos ⟨hlazy, rfl, hroom.resolve_left (by omega)⟩]
    exact ⟨flushed, rfl⟩
  · rw [if_neg hshort]
    exact ⟨f, rfl⟩

/-! ## Section 3: The flush of the peer -/

theorem EndInv.flush_urgent_room (hpeer : EndInv peerCfg peer peerLive)
    (hlazy : peerCfg.lazyCompaction = true)
    (hopp : peerCfg.growDirection = cfg.growDirection.opposite) (hap : Apart cfg peerCfg own peer)
    (q : Queries) :
    ∃ peer' moves, peer.flush peerCfg q true = some (peer', moves) ∧
      max 0 (cfg.room own (peer.frontier peerCfg)) + peerCfg.drainableHoleBytes peer ≤
        max 0 (cfg.room own (peer'.frontier peerCfg)) := by
  obtain ⟨peer', moves, live', heq, hinv, -⟩ := hpeer.flush q true fun hu => by cases hu
  refine ⟨peer', moves, heq, ?_⟩
  obtain ⟨hholes, hpending, hcount⟩ := hpeer.flush_urgent_empty hlazy q heq
  -- both bands by their numbers of pages
  have hlen := hpeer.band.length hpeer.watermark.1
  have hlen' := hinv.band.length hinv.watermark.1
  have hpages : peer'.pendingPages = [] := by
    rw [pendingPages, hpending]
    rfl
  rw [hholes, hpages, append_nil, append_nil] at hlen'
  have hlive : (live'.length : Int) = peerLive.length := by
    rw [← hinv.count hlazy, hcount, hpeer.count hlazy]
  simp only [length_append] at hlen
  push_cast at hlen
  have he : (0 : Int) < peerCfg.entryBytesPerPage := by exact_mod_cast peerCfg.entryBytes_pos
  have hkey : peerCfg.key peer'.watermark = peerCfg.key peer.watermark +
      -(peer.freePhysPages.length + peer.pendingPages.length) := by omega
  have hroom : cfg.room own (peer'.frontier peerCfg) = cfg.room own (peer.frontier peerCfg) +
      peer.freePhysPages.length * peerCfg.entryBytesPerPage +
        peer.pendingPages.length * peerCfg.entryBytesPerPage := by
    rw [← EndConfig.room_comm hopp, EndConfig.room_of_key hkey, EndConfig.room_comm hopp]
    ring
  rw [hroom]
  unfold EndConfig.drainableHoleBytes
  rw [if_neg (not_not_intro hlazy)]
  have hpend : 0 ≤ (peer.pendingPages.length : Int) * peerCfg.entryBytesPerPage := by positivity
  have hfree : 0 ≤ (peer.freePhysPages.length : Int) * peerCfg.entryBytesPerPage := by positivity
  rcases hap with hpos | ⟨-, hempty⟩
  · omega
  · -- a band without a page has no hole
    have hzero : peer.freePhysPages.length = 0 ∧ peer.pendingPages.length = 0 := by omega
    rw [hzero.1, hzero.2]
    simp

/-! ## Section 4: An id owner keeps its promise -/

/-- `alloc` gives the virtual pages that one of the two frontiers has room for. -/
theorem EndInv.alloc_returns (h : EndInv cfg s live) (hlazy : cfg.lazyCompaction = true)
    (howner : cfg.isIdOwner = true) {flushed : Int} {need : Nat} (hmod : need % cfg.pageSize = 0)
    (hroom : (need : Int) ≤ s.availableSize cfg (some f) ∨
      (need : Int) ≤ s.availableSize cfg (some flushed)) :
    ∃ t ids, s.alloc cfg (some f) (some flushed) need = some (t, some ids) ∧ ids.length = need := by
  unfold MultiEndedAllocator.alloc
  rw [if_neg (not_not_intro howner)]
  by_cases hzero : need = 0
  · exact ⟨s, [], if_pos hzero, hzero.symm⟩
  rw [if_neg hzero, if_neg (not_not_intro hmod)]
  obtain ⟨view, hgate⟩ := gate_passes hlazy hroom
  have hneed : need / cfg.pageSize * cfg.pageSize = need :=
    Nat.div_mul_cancel (Nat.dvd_of_mod_eq_zero hmod)
  have havail : ((need / cfg.pageSize : Nat) * cfg.pageSize : Int) ≤
      s.availableSize cfg (some view) := by
    have hle := EndInv.gate_room hgate
    rw [← hneed] at hle
    exact_mod_cast hle
  have hids := h.le_freeVirtualIds howner (some view) havail
  -- the list of free virtual pages is cut before
  obtain ⟨t, ht⟩ := allocBind_isSome
    (s := { s with freeVirtualIds := s.freeVirtualIds.drop (need / cfg.pageSize) }) h.watermark
    hlazy
    (affords_of_available havail) (s.freeVirtualIds.take (need / cfg.pageSize))
  rw [hgate]
  dsimp only
  rw [ht]
  refine ⟨t, _, rfl, ?_⟩
  rw [expand_length, length_take, min_eq_left hids, hneed]

theorem EndInv.allocPaged_returns (h : EndInv cfg s live) (hlazy : cfg.lazyCompaction = true)
    (howner : cfg.isIdOwner = true) (flushed : Int) {mergeBound : Nat} (outIndices : List Nat)
    (hsort : ¬(cfg.needSort = true ∧ mergeBound > s.freeVirtualIds.length))
    (hroom : (n * cfg.pageSize : Int) ≤ s.availableSize cfg (some f)) :
    ∃ t, s.allocPaged cfg (some f) (some flushed) n mergeBound outIndices = some
    (t, some outIndices) := by
  have hids := h.le_freeVirtualIds howner (some f) hroom
  obtain ⟨t, ht⟩ := allocBind_isSome h.watermark hlazy (affords_of_available hroom)
    (s.freeVirtualIds.take n)
  have hgate : s.gate cfg (some f) (some flushed) (n * cfg.pageSize) = some (some f) := by
    unfold gate
    rw [if_neg (by push_cast; omega)]
  unfold MultiEndedAllocator.allocPaged
  rw [if_neg (not_not_intro howner), if_neg (by omega), hgate]
  dsimp only
  rw [if_neg hsort, ht]
  exact ⟨_, rfl⟩

theorem allocWithPeer_of_room (q : Queries) (atGate : Bool) {need : Nat}
    (call : Option Int → Option Int → Option (MultiEndedAllocator × Option (List Nat)))
    (hroom : (need : Int) ≤ own.availableSize cfg (some (peer.frontier peerCfg))) :
    cfg.allocWithPeer peerCfg own peer q atGate need call =
      (call (some (peer.frontier peerCfg)) (some (peer.frontier peerCfg))).elim
      (some (own, peer, none))
        fun r => some (r.1, peer, some r.2) := by
  have hshort : (atGate && cfg.lazyCompaction &&
      own.availableSize cfg (some (peer.frontier peerCfg)) < need) = false := by
    rw [decide_eq_false (by omega), Bool.and_false]
  unfold EndConfig.allocWithPeer
  simp only [hshort, Bool.false_eq_true, if_false, Option.bind_eq_bind, Option.bind_some]
  cases call (some (peer.frontier peerCfg)) (some (peer.frontier peerCfg)) <;> rfl

section

variable (h : EndInv cfg own live) (hlazy : cfg.lazyCompaction = true)
  (howner : cfg.isIdOwner = true) (q : Queries)
include h hlazy howner q

theorem EndInv.alloc_of_room {need : Nat} (hmod : need % cfg.pageSize = 0)
    (hroom : (need : Int) ≤ own.availableSize cfg (some (peer.frontier peerCfg))) :
    ∃ t ids, cfg.alloc peerCfg q need own peer = some (t, peer, some (some ids)) ∧
    ids.length = need := by
  obtain ⟨t, ids, hcall, hlen⟩ := h.alloc_returns hlazy howner hmod (.inl hroom)
  refine ⟨t, ids, ?_, hlen⟩
  unfold EndConfig.alloc
  rw [allocWithPeer_of_room q _ _ hroom, hcall]
  rfl

theorem EndInv.allocExtend_returns {reqs : List Allocator.ExtendReq}
    (hsort : ¬(cfg.needSort = true ∧ (reqs.map fun r => r.seqLen - r.prefixLen).sum / cfg.pageSize +
      reqs.length + 1 > own.freeVirtualIds.length))
    (hroom : (Allocator.getNumNewPages cfg.pageSize reqs * cfg.pageSize : Int) ≤
      own.availableSize cfg (some (peer.frontier peerCfg))) :
    ∃ t ids, cfg.allocExtend peerCfg q reqs own peer = some (t, peer, some (some ids)) := by
  obtain ⟨t, hcall⟩ := h.allocPaged_returns hlazy howner (peer.frontier peerCfg)
    (Allocator.perRequest cfg.pageSize (Allocator.ExtendReq.extendSlots cfg.pageSize) reqs
      own.freeVirtualIds).flatten hsort hroom
  unfold EndConfig.allocExtend MultiEndedAllocator.allocExtend
  dsimp only
  rw [allocWithPeer_of_room q _ _ (by exact_mod_cast hroom), hcall]
  exact ⟨t, _, rfl⟩

theorem EndInv.allocDecode_returns {reqs : List Allocator.ExtendReq}
    (hsort : ¬(cfg.needSort = true ∧ reqs.length > own.freeVirtualIds.length))
    (hroom : (Allocator.getNumNewPagesDecode cfg.pageSize reqs * cfg.pageSize : Int) ≤
      own.availableSize cfg (some (peer.frontier peerCfg))) :
    ∃ t ids, cfg.allocDecode peerCfg q reqs own peer = some (t, peer, some (some ids)) := by
  obtain ⟨t, hcall⟩ := h.allocPaged_returns hlazy howner (peer.frontier peerCfg)
    (Allocator.perRequest cfg.pageSize (fun r pages => [r.decodeSlot cfg.pageSize pages]) reqs
      own.freeVirtualIds).flatten hsort hroom
  unfold EndConfig.allocDecode MultiEndedAllocator.allocDecode
  dsimp only
  rw [allocWithPeer_of_room q _ _ (by exact_mod_cast hroom), hcall]
  exact ⟨t, _, rfl⟩

end

/-- The end allocates every positive multiple of its page size that `schedulable_available_size`
reports. -/
def EndConfig.KeepsPromise (cfg peerCfg : EndConfig) (own peer : MultiEndedAllocator) : Prop :=
  ∀ (q : Queries) (needSize : Nat), 0 < needSize → needSize % cfg.pageSize = 0 →
    (needSize : Int) ≤ cfg.schedulableAvailableSize peerCfg own peer →
      ∃ own' peer' ids, cfg.alloc peerCfg q needSize own peer =
      some (own', peer', some (some ids)) ∧ ids.length = needSize

theorem EndInv.keepsPromise (hown : EndInv cfg own live) (hpeer : EndInv peerCfg peer peerLive)
    (hlazy : cfg.lazyCompaction = true) (hlazy' : peerCfg.lazyCompaction = true)
    (howner : cfg.isIdOwner = true) (hopp : peerCfg.growDirection = cfg.growDirection.opposite)
    (hap : Apart cfg peerCfg own peer) : cfg.KeepsPromise peerCfg own peer := by
  intro q need hpos hmod hneed
  by_cases hroom : (need : Int) ≤ own.availableSize cfg (some (peer.frontier peerCfg))
  · obtain ⟨t, ids, heq, hlen⟩ := hown.alloc_of_room hlazy howner q hmod hroom
    exact ⟨t, peer, ids, heq, hlen⟩
  · -- a shortfall flushes the peer, and then there is room
    obtain ⟨peer', moves, hflush, hgap⟩ := hpeer.flush_urgent_room hlazy' hopp hap q
    have hroom' : (need : Int) ≤ own.availableSize cfg (some (peer'.frontier peerCfg)) :=
      hneed.trans (availableTokens_le hgap)
    obtain ⟨t, ids, heq, hlen⟩ := hown.alloc_returns (f := peer.frontier peerCfg) hlazy howner hmod
      (.inr hroom')
    refine ⟨t, peer', ids, ?_, hlen⟩
    have hshort : (decide (need ≠ 0 ∧ need % cfg.pageSize = 0) && cfg.lazyCompaction &&
        own.availableSize cfg (some (peer.frontier peerCfg)) < need) = true := by
      rw [decide_eq_true ⟨hpos.ne', hmod⟩, hlazy, decide_eq_true (by omega : _ < (need : Int))]
      rfl
    unfold EndConfig.alloc EndConfig.allocWithPeer
    simp only [hshort, if_true, hflush, Option.map_some, Option.bind_eq_bind, Option.bind_some, heq]

end OneEnd

/-! ## Section 5: Requests to the sliding-window pair -/

/-- The three allocations of `UnifiedSWATokenToKVPoolAllocator`. -/
inductive SwaRequest where
  | alloc (needSize : Nat)
  | allocExtend (reqs : List Allocator.ExtendReq)
  | allocDecode (reqs : List Allocator.ExtendReq)

namespace SwaRequest

variable (cfg : PairConfig)

def serve (S : Pair) (q : PairQueries) (qGate : Queries) : SwaRequest → Option (Pair × Outcome)
  | .alloc needSize => S.swaAlloc cfg q qGate needSize
  | .allocExtend reqs => S.swaAllocExtend cfg q qGate reqs
  | .allocDecode reqs => S.swaAllocDecode cfg q qGate reqs

/-- The call that the pair makes on its full end. -/
def onFull (qGate : Queries) : SwaRequest → MultiEndedAllocator → MultiEndedAllocator →
    Option (MultiEndedAllocator × MultiEndedAllocator × Outcome)
  | .alloc needSize => cfg.fullEnd.alloc cfg.otherEnd qGate needSize
  | .allocExtend reqs => cfg.fullEnd.allocExtend cfg.otherEnd qGate reqs
  | .allocDecode reqs => cfg.fullEnd.allocDecode cfg.otherEnd qGate reqs

def newPages : SwaRequest → Nat
  | .alloc needSize => needSize / cfg.full.pageSize
  | .allocExtend reqs => Allocator.getNumNewPages cfg.full.pageSize reqs
  | .allocDecode reqs => Allocator.getNumNewPagesDecode cfg.full.pageSize reqs

/-- The request is for whole pages, and the free list is not to be sorted for it. -/
def Askable (S : Pair) : SwaRequest → Prop
  | .alloc needSize => needSize % cfg.full.pageSize = 0
  | .allocExtend reqs =>
    ¬(cfg.needSort = true ∧ (reqs.map fun r => r.seqLen - r.prefixLen).sum / cfg.full.pageSize +
      reqs.length + 1 > S.full.freeVirtualIds.length)
  | .allocDecode reqs => ¬(cfg.needSort = true ∧ reqs.length > S.full.freeVirtualIds.length)

end SwaRequest

/-- Both ends bind the `n` first free virtual pages, and no others. -/
structure Granted (S T : Pair) (n : Nat) : Prop where
  enough : n ≤ S.full.freeVirtualIds.length
  full : ∀ v, (T.full.virtualToPhysical v).isSome ↔
    (S.full.virtualToPhysical v).isSome ∨ v ∈ S.full.freeVirtualIds.take n
  other : ∀ v, (T.other.virtualToPhysical v).isSome ↔
    (S.other.virtualToPhysical v).isSome ∨ v ∈ S.full.freeVirtualIds.take n

/-- An urgent flush has packed the end: the same virtual pages are free and bound, and a page is
where it was or where a move of the flush has copied it to. -/
structure FlushedInto (cfg : EndConfig) (q : Queries) (s t : MultiEndedAllocator) : Prop where
  ids : t.freeVirtualIds = s.freeVirtualIds
  bound_iff : ∀ v, (t.virtualToPhysical v).isSome ↔ (s.virtualToPhysical v).isSome
  count : t.livePageCount = s.livePageCount
  moved : ∃ moves, s.flush cfg q true = some (t, moves) ∧
    Relocates s.virtualToPhysical t.virtualToPhysical moves

/-- The answer of the pair to a request: `none` is declined, and leaves both ends as they are but
for their compaction. -/
structure Answered (cfg : PairConfig) (q : PairQueries) (S T : Pair) (r : SwaRequest)
    (out : Option (List Nat)) : Prop where
  within : (r.newPages cfg * cfg.full.pageSize : Int) ≤ S.availableSize cfg → out.isSome = true
  granted : out.isSome = true → Granted S T (r.newPages cfg)
  declined : out = none → FlushedInto cfg.fullEnd q.full S.full T.full ∧
    FlushedInto cfg.otherEnd q.other S.other T.other

section Requests

variable {cfg : PairConfig} {S T : Pair} {r : SwaRequest}

theorem EndInv.flush_compacted {c : EndConfig} {s : MultiEndedAllocator} {live : List Int}
    (h : EndInv c s live) (hlazy : c.lazyCompaction = true) (q : Queries) :
    ∃ t moves, s.flush c q true = some (t, moves) ∧ (∃ live', EndInv c t live') ∧ Shrinks c s t [] ∧
      FlushedInto c q s t := by
  obtain ⟨t, moves, live', heq, hinv, hf⟩ := h.flush q true fun hu => by cases hu
  refine ⟨t, moves, heq, ⟨live', hinv⟩, hf.shrinks, ?_⟩
  exact
    { ids := hf.ids
      bound_iff := hf.relocates.isSome_iff
      count := (h.flush_urgent_empty hlazy q heq).2.2
      moved := ⟨moves, heq, hf.relocates⟩ }

theorem SwaRequest.serve_eq (hask : r.Askable cfg S) (q : PairQueries) (qGate : Queries) :
    r.serve cfg S q qGate =
      S.allocBoth cfg q (r.newPages cfg * cfg.full.pageSize) (r.newPages cfg)
      (r.onFull cfg qGate) := by
  cases r with
  | alloc needSize =>
    have hneed : needSize / cfg.full.pageSize * cfg.full.pageSize = needSize :=
      Nat.div_mul_cancel (Nat.dvd_of_mod_eq_zero hask)
    unfold SwaRequest.serve SwaRequest.newPages SwaRequest.onFull Pair.swaAlloc
    dsimp only
    rw [hneed]
  | allocExtend reqs => rfl
  | allocDecode reqs => rfl

section

variable (h : PairInv cfg S) (hlazy : cfg.lazyCompaction = true)
include h hlazy

/-- The full end answers a request that the pair has room for, without its peer. -/
theorem PairInv.onFull_returns
    (hask : r.Askable cfg S) (qGate : Queries)
    (hroom : (r.newPages cfg * cfg.full.pageSize : Int) ≤ S.availableSize cfg) :
    ∃ full ids, r.onFull cfg qGate S.full S.other = some (full, S.other, some (some ids)) ∧
      Allocates cfg.fullEnd cfg.otherEnd S.full S.other full S.other (r.newPages cfg)
      (some (some ids)) := by
  obtain ⟨live, hF⟩ := h.full
  obtain ⟨live', hO⟩ := h.other
  have hfull := h.full_available hroom
  cases r with
  | alloc needSize =>
    have hneed : needSize / cfg.full.pageSize * cfg.full.pageSize = needSize :=
      Nat.div_mul_cancel (Nat.dvd_of_mod_eq_zero hask)
    have hfull : (needSize : Int) ≤
        S.full.availableSize cfg.fullEnd (some (S.other.frontier cfg.otherEnd)) := by
      rw [← hneed]
      exact_mod_cast hfull
    obtain ⟨t, ids, heq, -⟩ := hF.alloc_of_room hlazy rfl qGate hask hfull
    obtain ⟨own', peer', out, hspec, ha⟩ := alloc_spec hF hO cfg.opposite h.apart qGate needSize
    cases heq.symm.trans hspec
    exact ⟨t, ids, heq, ha⟩
  | allocExtend reqs =>
    obtain ⟨t, ids, heq⟩ := hF.allocExtend_returns hlazy rfl qGate hask hfull
    obtain ⟨own', peer', out, hspec, ha⟩ := allocExtend_spec hF hO cfg.opposite h.apart qGate reqs
    cases heq.symm.trans hspec
    exact ⟨t, ids, heq, ha⟩
  | allocDecode reqs =>
    obtain ⟨t, ids, heq⟩ := hF.allocDecode_returns hlazy rfl qGate hask hfull
    obtain ⟨own', peer', out, hspec, ha⟩ := allocDecode_spec hF hO cfg.opposite h.apart qGate reqs
    cases heq.symm.trans hspec
    exact ⟨t, ids, heq, ha⟩

/-- The other end affords the pages after the full end has taken its own. -/
theorem PairInv.other_affords {n : Nat}
    (hroom : (n * cfg.full.pageSize : Int) ≤ S.availableSize cfg) {full : MultiEndedAllocator}
    (hgrows : Grows cfg.fullEnd S.full full (S.full.freeVirtualIds.take n)) :
    cfg.otherEnd.Affords S.other (full.frontier cfg.fullEnd) n := by
  intro hk
  obtain ⟨live, hF⟩ := h.full
  obtain ⟨live', hO⟩ := h.other
  have hps : (0 : Int) < cfg.full.pageSize := by exact_mod_cast cfg.full.pageSize_pos
  have heF : (0 : Int) < cfg.fullEnd.entryBytesPerPage := by
    exact_mod_cast cfg.fullEnd.entryBytes_pos
  have heO : (0 : Int) < cfg.otherEnd.entryBytesPerPage := by
    exact_mod_cast cfg.otherEnd.entryBytes_pos
  obtain ⟨hbytes, -⟩ := joint_room hF hO hroom
  have hindex : (n : Int) ≤ S.other.freePhysPages.length + cfg.otherEnd.indexRoom S.other := by
    rw [availableSize_eq hlazy] at hroom
    exact (le_of_mul_le_mul_right hroom hps).trans ((min_le_right _ _).trans (min_le_right _ _))
  obtain ⟨k, hkey, hlen⟩ := hgrows.key
  have hfull : (k * cfg.fullEnd.entryBytesPerPage : Int) ≤
      max 0 ((n : Int) - S.full.freePhysPages.length) * cfg.fullEnd.entryBytesPerPage := by
    apply mul_le_mul_of_nonneg_right _ heF.le
    by_cases hz : k = 0
    · rw [hz]
      exact le_max_left _ _
    · have := hlen hz
      rw [length_take] at this
      omega
  have hother : max 0 ((n : Int) - S.other.freePhysPages.length) =
      (n - S.other.freePhysPages.length : Nat) := by omega
  rw [hother] at hbytes
  generalize hm : n - S.other.freePhysPages.length = m at hk hbytes ⊢
  have hpos : (0 : Int) < m * cfg.otherEnd.entryBytesPerPage := by
    apply mul_pos _ heO
    exact_mod_cast hk
  have hnonneg : (0 : Int) ≤ k * cfg.fullEnd.entryBytesPerPage := by positivity
  constructor
  · rw [EndConfig.room_comm cfg.opposite, EndConfig.room_of_key hkey]
    change _ ≤ S.gap cfg - _
    omega
  · omega

theorem PairInv.serve_within
    (hswa : cfg.otherIsIdOwner = false) (hask : r.Askable cfg S) (q : PairQueries) (qGate : Queries)
    (hroom : (r.newPages cfg * cfg.full.pageSize : Int) ≤ S.availableSize cfg) :
    ∃ T ids, r.serve cfg S q qGate = some (T, some (some ids)) ∧ Granted S T (r.newPages cfg) := by
  obtain ⟨live, hF⟩ := h.full
  obtain ⟨live', hO⟩ := h.other
  have hids := hF.virtualIds rfl
  have henough := hF.le_freeVirtualIds rfl _ (h.full_available hroom)
  obtain ⟨full, ids, hcall, ha⟩ := h.onFull_returns hlazy hask qGate hroom
  have hgrows := ha.bought ids rfl
  -- the other end binds the same virtual pages
  have hlen : (S.full.freeVirtualIds.take (r.newPages cfg)).length = r.newPages cfg := by
    rw [length_take, min_eq_left henough]
  obtain ⟨other, hbind⟩ := allocBind_isSome hO.watermark hlazy (h.other_affords hlazy hroom hgrows)
    (S.full.freeVirtualIds.take (r.newPages cfg))
  have hbind : S.other.allocWithVirtual cfg.otherEnd (some (full.frontier cfg.fullEnd))
      (S.full.freeVirtualIds.take (r.newPages cfg)) = some other := by
    unfold MultiEndedAllocator.allocWithVirtual
    rw [hlen]
    exact hbind
  have hunbound : ∀ v ∈ S.full.freeVirtualIds.take (r.newPages cfg),
      S.other.virtualToPhysical v = none := by
    intro v hv
    rw [← Option.not_isSome_iff_eq_none]
    intro hsome
    have hbound := h.bound hswa v hsome
    rw [hids.unbound v (mem_of_mem_take hv)] at hbound
    cases hbound
  obtain ⟨_, _, _, _, hbuy⟩ := hO.allocWithVirtual hswa ((take_sublist _ _).nodup hids.nodup)
    hunbound hbind
  refine ⟨{ S with full := full, other := other }, ids, ?_, henough, hgrows.isSome_iff,
    hbuy.grows.isSome_iff⟩
  have hcheck : S.jointCheck cfg q (r.newPages cfg * cfg.full.pageSize) = some (S, true) := by
    unfold Pair.jointCheck
    rw [if_neg (by push_cast; omega)]
  rw [SwaRequest.serve_eq hask]
  unfold Pair.allocBoth
  simp only [hcheck, Option.bind_eq_bind, Option.bind_some, not_true_eq_false, if_false, hcall,
    hbind]

/-- A shortfall packs both ends, and the request is looked at again. -/
theorem PairInv.serve_short
    (hask : r.Askable cfg S) (q : PairQueries) (qGate : Queries)
    (hshort : ¬(r.newPages cfg * cfg.full.pageSize : Int) ≤ S.availableSize cfg) :
    ∃ T, PairInv cfg T ∧ FlushedInto cfg.fullEnd q.full S.full T.full ∧
      FlushedInto cfg.otherEnd q.other S.other T.other ∧
      r.serve cfg S q qGate =
        if (r.newPages cfg * cfg.full.pageSize : Int) ≤ T.availableSize cfg then
          r.serve cfg T q qGate
        else some (T, some none) := by
  obtain ⟨live, hF⟩ := h.full
  obtain ⟨live', hO⟩ := h.other
  obtain ⟨t, moves, hflush, hinv, hs, hcomp⟩ := hF.flush_compacted hlazy q.full
  obtain ⟨u, moves', hflush', hinv', hs', hcomp'⟩ := hO.flush_compacted hlazy q.other
  refine ⟨{ S with full := t, other := u }, h.shrinkBoth hinv hs hinv' hs', hcomp, hcomp', ?_⟩
  generalize hT : ({ S with full := t, other := u } : Pair) = T
  have hask' : r.Askable cfg T := by
    rw [← hT]
    unfold SwaRequest.Askable
    dsimp only
    rw [hcomp.ids]
    exact hask
  have hcheck : S.jointCheck cfg q (r.newPages cfg * cfg.full.pageSize) =
      some (T, decide ((r.newPages cfg * cfg.full.pageSize : Int) ≤ T.availableSize cfg)) := by
    unfold Pair.jointCheck
    rw [if_pos (by push_cast; omega), if_neg (not_not_intro hlazy)]
    simp only [hflush, hflush', Option.bind_eq_bind, Option.bind_some, hT, Nat.cast_mul]
  rw [SwaRequest.serve_eq hask, SwaRequest.serve_eq hask']
  by_cases hroom : (r.newPages cfg * cfg.full.pageSize : Int) ≤ T.availableSize cfg
  · have hpass : T.jointCheck cfg q (r.newPages cfg * cfg.full.pageSize) = some (T, true) := by
      unfold Pair.jointCheck
      rw [if_neg (by push_cast; omega)]
    rw [if_pos hroom]
    unfold Pair.allocBoth
    rw [hcheck, hpass, decide_eq_true hroom]
  · rw [if_neg hroom]
    unfold Pair.allocBoth
    simp only [hcheck, decide_eq_false hroom, Option.bind_eq_bind, Option.bind_some,
      Bool.false_eq_true, not_false_eq_true, if_true]

theorem PairInv.serve_answered
    (hswa : cfg.otherIsIdOwner = false) (hask : r.Askable cfg S) (q : PairQueries)
    (qGate : Queries) :
    ∃ T out, r.serve cfg S q qGate = some (T, some out) ∧ Answered cfg q S T r out := by
  by_cases hroom : (r.newPages cfg * cfg.full.pageSize : Int) ≤ S.availableSize cfg
  · obtain ⟨T, ids, heq, hgrant⟩ := h.serve_within hlazy hswa hask q qGate hroom
    exact ⟨T, some ids, heq, fun _ => rfl, fun _ => hgrant, fun hnone => by cases hnone⟩
  obtain ⟨T, hT, hF, hO, heq⟩ := h.serve_short hlazy hask q qGate hroom
  by_cases hroom' : (r.newPages cfg * cfg.full.pageSize : Int) ≤ T.availableSize cfg
  · have hask' : r.Askable cfg T := by
      unfold SwaRequest.Askable
      rw [hF.ids]
      exact hask
    obtain ⟨U, ids, hserve, hgrant⟩ := hT.serve_within hlazy hswa hask' q qGate hroom'
    refine ⟨U, some ids, ?_, fun hle => absurd hle hroom, fun _ => ?_, fun hnone => by cases hnone⟩
    · rw [heq, if_pos hroom', hserve]
    · exact
        { enough := hF.ids ▸ hgrant.enough
          full := fun v => by rw [hgrant.full, hF.bound_iff, hF.ids]
          other := fun v => by rw [hgrant.other, hO.bound_iff, hF.ids] }
  · refine ⟨T, none, ?_, fun hle => absurd hle hroom, (fun hsome => by cases hsome), fun _ => ?_⟩
    swap
    · exact ⟨hF, hO⟩
    rw [heq, if_neg hroom']

end

end Requests

/-! ## Section 6: Every run -/

/-- Four pages, and the first of them given back. -/
def oneHole : List UnifiedSwaOp := [.alloc noneFiredPair noneFired 4, .free [1]]

end Sglang.MemCache
