import Sglang.MemCache.Allocator
import Sglang.Lib.Scatter

/-!
# One End of a Two-Ended Pool

Model of `MultiEndedAllocator` (`mem_cache/multi_ended_allocator.py`): virtual pages are bound to
physical pages of a band that grows up from the bottom or down from the top of a shared byte
buffer. Eager mode compacts on every `free`; lazy mode keeps a list of holes and compacts in
`_flush`.

## Conventions

- Physical pages are integers, virtual pages natural numbers. `-1` in one of the two tables is
  `none`. Virtual page 0 is bound to physical page 0, the padding sink.
- The peer is seen through its byte frontier; a first frontier is that before, a second one that
  after the urgent flush of the peer that a shortfall triggers.
- `event.query()` is answered from outside (`Queries`), separately at each of the three places
  where `_flush` asks.
- Operations that copy pages return the `Move`s they hand to `move_kv_cache`.
- The outer `none` of an operation is an assertion that fails.
-/

namespace Sglang.MemCache

open Lib

/-! ## Section 1: Parameters and state -/

inductive GrowDirection where
  | up | down
deriving DecidableEq, Repr

namespace GrowDirection

/-- The next page away from the frontier. -/
def inward : GrowDirection → Int → Int
  | .up, p => p - 1
  | .down, p => p + 1

/-- `a` lies nearer to the frontier than `b`. -/
def outer : GrowDirection → Int → Int → Bool
  | .up, a, b => b < a
  | .down, a, b => a < b

def frontierPage : GrowDirection → Int → Int
  | .up, wm => wm - 1
  | .down, wm => wm + 1

/-- The watermark moved back by `n` pages. -/
def retreat : GrowDirection → Int → Nat → Int
  | .up, wm, n => wm - n
  | .down, wm, n => wm + n

/-- An ascending list of pages, from the frontier on. -/
def outerFirst : GrowDirection → List Int → List Int
  | .up, l => l.reverse
  | .down, l => l

/-- An ascending list of pages, towards the frontier. -/
def innerFirst : GrowDirection → List Int → List Int
  | .up, l => l
  | .down, l => l.reverse

/-- An ascending list without its `n` outermost pages. -/
def cutOuter : GrowDirection → Nat → List Int → List Int
  | .up, n, l => l.take (l.length - n)
  | .down, n, l => l.drop n

/-- An ascending list without its `n` innermost pages. -/
def cutInner : GrowDirection → Nat → List Int → List Int
  | .up, n, l => l.drop n
  | .down, n, l => l.take (l.length - n)

end GrowDirection

/-- A `forward_done` event. -/
abbrev Event := Nat

/-- Constructor parameters. -/
structure EndConfig where
  growDirection : GrowDirection
  totalBytes : Nat
  numPages : Nat
  minPageIndex : Nat
  minPage_pos : 0 < minPageIndex
  pageSize : Nat
  pageSize_pos : 0 < pageSize
  entryBytesPerPage : Nat
  entryBytes_pos : 0 < entryBytesPerPage
  isIdOwner : Bool
  lazyCompaction : Bool
  needSort : Bool := false
  /-- `SGLANG_SORT_FREE_LIST_AFTER_MERGE`. -/
  sortAfterMerge : Bool := false
  /-- `SGLANG_LAZY_COMPACTION_MAX_MOVES_PER_CALL`. -/
  maxMovesPerCall : Nat := 4096

/-- The mutable state. -/
structure MultiEndedAllocator where
  watermark : Int
  virtualToPhysical : Nat → Option Int
  physicalToVirtual : Int → Option Nat
  freeVirtualIds : List Nat
  freePhysPages : List Int
  /-- A dictionary in insertion order, one entry a batch of moved pages. -/
  pendingReuse : List (Event × List Int)
  pendingReusePagesCpu : Finset Int
  livePageCount : Int
  latestForwardDoneEvent : Option Event
  /-- The event and the virtual token ids the forward writes. -/
  inflightForward : Option (Event × List Nat)
  inFreeGroup : Bool
  freeGroup : List (List Nat)

/-- One page copied from `src` to `dst`, which backs the virtual page `virt` from then on. -/
structure Move where
  src : Int
  dst : Int
  virt : Nat
deriving DecidableEq, Repr

/-- The answers to `event.query()` during one flush. -/
structure Queries where
  drain : Event → Bool
  write : Event → Bool
  commit : Event → Bool

/-- `torch.arange(start, start + n)`. -/
def pageRange (start : Int) (n : Nat) : List Int := (List.range n).map fun k : Nat => start + k

/-- `d[k] = v`: an entry keeps its place in the dictionary. -/
def dictSet {α : Type} (d : List (Event × α)) (k : Event) (v : α) : List (Event × α) :=
  if k ∈ d.map Prod.fst then d.map fun e => if e.1 = k then (k, v) else e else d ++ [(k, v)]

namespace MultiEndedAllocator

variable (cfg : EndConfig)

def clear : MultiEndedAllocator where
  watermark :=
    match cfg.growDirection with
    | .up => cfg.minPageIndex
    | .down => (cfg.numPages : Int) - 1
  virtualToPhysical := fun v => if v = 0 then some 0 else none
  physicalToVirtual := fun p => if p = 0 then some 0 else none
  freeVirtualIds :=
    if cfg.isIdOwner then List.range' cfg.minPageIndex (cfg.numPages - cfg.minPageIndex) else []
  freePhysPages := []
  pendingReuse := []
  pendingReusePagesCpu := ∅
  livePageCount := 0
  latestForwardDoneEvent := none
  inflightForward := none
  inFreeGroup := false
  freeGroup := []

/-! ## Section 2: Sizes -/

def allocatedPages (s : MultiEndedAllocator) : Int :=
  match cfg.growDirection with
  | .up => max 0 (s.watermark - cfg.minPageIndex)
  | .down => max 0 (cfg.numPages - 1 - s.watermark)

def byteHighFrontier (s : MultiEndedAllocator) : Int :=
  match cfg.growDirection with
  | .up => s.watermark * cfg.entryBytesPerPage
  | .down => cfg.numPages * cfg.entryBytesPerPage

def byteLowFrontier (s : MultiEndedAllocator) : Int :=
  match cfg.growDirection with
  | .up => cfg.minPageIndex * cfg.entryBytesPerPage
  | .down => (s.watermark + 1) * cfg.entryBytesPerPage

/-- The frontier that the other end looks at. -/
def frontier (s : MultiEndedAllocator) : Int :=
  match cfg.growDirection with
  | .up => s.byteHighFrontier cfg
  | .down => s.byteLowFrontier cfg

def currentGapBytes (s : MultiEndedAllocator) (peer : Option Int) : Int :=
  match cfg.growDirection with
  | .up => max 0 (peer.getD cfg.totalBytes - s.byteHighFrontier cfg)
  | .down => max 0 (s.byteLowFrontier cfg - peer.getD 0)

/-- `available_size`, in tokens. -/
def availableSize (s : MultiEndedAllocator) (peer : Option Int) : Int :=
  let pagesByBytes := s.currentGapBytes cfg peer / cfg.entryBytesPerPage
  let pagesByIndexSpace := cfg.numPages - cfg.minPageIndex - s.allocatedPages cfg
  let pagesExtend := min pagesByBytes pagesByIndexSpace
  let pagesDrain : Int := if cfg.lazyCompaction then s.freePhysPages.length else 0
  (pagesExtend + pagesDrain) * cfg.pageSize

/-- The shortfall gate of the allocations: the frontier of the peer to go on with, if there is
room, where `flushed` is its frontier after `_flush_peer_for_alloc`. -/
def gate (s : MultiEndedAllocator) (peer flushed : Option Int) (needTokens : Nat) :
    Option (Option Int) :=
  if (needTokens : Int) > s.availableSize cfg peer then
    if cfg.lazyCompaction ∧ peer.isSome ∧ (needTokens : Int) ≤ s.availableSize cfg flushed then
      some flushed
    else none
  else some peer

/-! ## Section 3: Taking and binding physical pages -/

/-- `_extend_watermark`; `none` for `False`. -/
def extendWatermark (s : MultiEndedAllocator) (peer : Option Int) (n : Nat) :
    Option MultiEndedAllocator :=
  match cfg.growDirection with
  | .up =>
    let newWm := s.watermark + n
    if newWm > cfg.numPages then none
    else if ∃ f ∈ peer, newWm > f / cfg.entryBytesPerPage then none
    else some { s with watermark := newWm }
  | .down =>
    let newWm := s.watermark - n
    if newWm < (cfg.minPageIndex : Int) - 1 then none
    else if ∃ f ∈ peer, newWm + 1 < f / cfg.entryBytesPerPage then none
    else some { s with watermark := newWm }

/-- The watermark advance of eager mode: the index space is all it looks at. -/
def extendEager (s : MultiEndedAllocator) (n : Nat) : Option MultiEndedAllocator :=
  match cfg.growDirection with
  | .up =>
    if s.watermark + n > cfg.numPages then none else some { s with watermark := s.watermark + n }
  | .down =>
    if s.watermark - n < (cfg.minPageIndex : Int) - 1 then none
    else some { s with watermark := s.watermark - n }

/-- `take_physical` in lazy mode: holes first, then new pages at the frontier. -/
def takePhysicalPages (s : MultiEndedAllocator) (peer : Option Int) (n : Nat) :
    Option (MultiEndedAllocator × List Int) :=
  let nDrain := min n s.freePhysPages.length
  let needMore := n - nDrain
  match if 0 < needMore then s.extendWatermark cfg peer needMore else some s with
  | none => none
  | some s =>
    let (drained, rest) :=
      match cfg.sortAfterMerge, cfg.growDirection with
      | true, .down =>
        ((s.freePhysPages.drop (s.freePhysPages.length - nDrain)).reverse,
          s.freePhysPages.take (s.freePhysPages.length - nDrain))
      | _, _ => (s.freePhysPages.take nDrain, s.freePhysPages.drop nDrain)
    let extended :=
      match cfg.growDirection with
      | .up => pageRange (s.watermark - needMore) needMore
      | .down =>
        -- descending behind drained holes, ascending on their own
        if nDrain = 0 then pageRange (s.watermark + 1) needMore
        else (pageRange (s.watermark + 1) needMore).reverse
    some ({ s with freePhysPages := rest, livePageCount := s.livePageCount + n },
      drained ++ extended)

def bind (s : MultiEndedAllocator) (virtualIds : List Nat) (physicalIds : List Int) :
    MultiEndedAllocator :=
  { s with
    virtualToPhysical := scatter s.virtualToPhysical (virtualIds.zip (physicalIds.map some))
    physicalToVirtual := scatter s.physicalToVirtual (physicalIds.zip (virtualIds.map some)) }

/-- `_alloc_bind_fast_or_slow`; `none` on shortfall. -/
def allocBind (s : MultiEndedAllocator) (peer : Option Int) (vPages : List Nat) (n : Nat) :
    Option MultiEndedAllocator :=
  if n = 0 then some s
  else if ¬ cfg.lazyCompaction ∨ s.freePhysPages = [] then
    match if cfg.lazyCompaction then s.extendWatermark cfg peer n else s.extendEager cfg n with
    | none => none
    | some t =>
      let startPhys :=
        match cfg.growDirection with
        | .up => s.watermark
        | .down => s.watermark - n + 1
      let t := t.bind vPages (pageRange startPhys n)
      some (if cfg.lazyCompaction then { t with livePageCount := t.livePageCount + n } else t)
  else
    match s.takePhysicalPages cfg peer n with
    | none => none
    | some (s, physPages) => some (s.bind vPages physPages)

/-! ## Section 4: Allocation -/

def alloc (s : MultiEndedAllocator) (peer flushed : Option Int) (needSize : Nat) :
    Option (MultiEndedAllocator × Option (List Nat)) :=
  if ¬ cfg.isIdOwner then none
  else if needSize = 0 then some (s, some [])
  else if needSize % cfg.pageSize ≠ 0 then none
  else
    match s.gate cfg peer flushed needSize with
    | none => some (s, none)
    | some view =>
      let numPages := needSize / cfg.pageSize
      let vPages := s.freeVirtualIds.take numPages
      match { s with freeVirtualIds := s.freeVirtualIds.drop numPages }.allocBind cfg view vPages
        numPages with
      | none => some (s, none)
      | some t => some (t, some (expand cfg.pageSize vPages))

def allocWithVirtual (s : MultiEndedAllocator) (peer : Option Int) (virtualPages : List Nat) :
    Option MultiEndedAllocator :=
  s.allocBind cfg peer virtualPages virtualPages.length

/-- The common part of `alloc_extend` and `alloc_decode`: `numNewPages` virtual pages for a kernel
that fills `outIndices`. With `need_sort`, `merge_and_sort_free` reads `release_pages`, which this
class leaves at `None`. -/
def allocPaged (s : MultiEndedAllocator) (peer flushed : Option Int) (numNewPages mergeBound : Nat)
    (outIndices : List Nat) : Option (MultiEndedAllocator × Option (List Nat)) :=
  if ¬ cfg.isIdOwner then none
  else if numNewPages > s.freeVirtualIds.length then some (s, none)
  else
    match s.gate cfg peer flushed (numNewPages * cfg.pageSize) with
    | none => some (s, none)
    | some view =>
      if cfg.needSort ∧ mergeBound > s.freeVirtualIds.length then none
      else
        match s.allocBind cfg view (s.freeVirtualIds.take numNewPages) numNewPages with
        | none => some (s, none)
        | some t =>
          some ({ t with freeVirtualIds := t.freeVirtualIds.drop numNewPages }, some outIndices)

def allocExtend (s : MultiEndedAllocator) (peer flushed : Option Int)
    (reqs : List Allocator.ExtendReq) : Option (MultiEndedAllocator × Option (List Nat)) :=
  let extendNumTokens := (reqs.map fun r => r.seqLen - r.prefixLen).sum
  s.allocPaged cfg peer flushed (Allocator.getNumNewPages cfg.pageSize reqs)
    (extendNumTokens / cfg.pageSize + reqs.length + 1)
    (Allocator.perRequest cfg.pageSize (Allocator.ExtendReq.extendSlots cfg.pageSize) reqs
      s.freeVirtualIds).flatten

def allocDecode (s : MultiEndedAllocator) (peer flushed : Option Int)
    (reqs : List Allocator.ExtendReq) : Option (MultiEndedAllocator × Option (List Nat)) :=
  s.allocPaged cfg peer flushed (Allocator.getNumNewPagesDecode cfg.pageSize reqs) reqs.length
    (Allocator.perRequest cfg.pageSize (fun r pages => [r.decodeSlot cfg.pageSize pages]) reqs
      s.freeVirtualIds).flatten

/-! ## Section 5: Translation -/

/-- `translate_kv_loc` for one virtual token: the sink for an unbound page. -/
def translateKvLoc (s : MultiEndedAllocator) (token : Nat) : Int :=
  match s.virtualToPhysical (token / cfg.pageSize) with
  | none => 0
  | some p => p * cfg.pageSize + (token % cfg.pageSize : Nat)

/-- `_materialize_inflight_write_set`, with the forward that is still in flight after it. -/
def materializeInflightWriteSet (s : MultiEndedAllocator) (query : Event → Bool) :
    List Int × Option (Event × List Nat) :=
  match s.inflightForward with
  | none => ([], none)
  | some (event, tokens) =>
    if query event then ([], none)
    else (tokens.map fun v => s.translateKvLoc cfg v / cfg.pageSize, some (event, tokens))

/-! ## Section 6: Freeing -/

/-- Sort the free list if it is kept sorted. -/
def mergeFree (pages : List Int) : List Int :=
  if cfg.sortAfterMerge then sortPages pages else pages

def freedVirtualPages (freeIndex : List Nat) : List Nat :=
  if cfg.pageSize = 1 ∧ cfg.lazyCompaction then freeIndex
  else unique (freeIndex.map (· / cfg.pageSize))

/-- `_free_lazy`. A page that is not bound would put `-1` on the free list; callers do not free
such pages. -/
def freeLazy (s : MultiEndedAllocator) (freeIndex : List Nat) : Option MultiEndedAllocator := do
  let vPages := freedVirtualPages cfg freeIndex
  let pPages ← vPages.mapM s.virtualToPhysical
  some
    { s with
      virtualToPhysical := scatter s.virtualToPhysical (vPages.map fun v => (v, none))
      physicalToVirtual := scatter s.physicalToVirtual (pPages.map fun p => (p, none))
      freeVirtualIds := if cfg.isIdOwner then s.freeVirtualIds ++ vPages else s.freeVirtualIds
      freePhysPages := mergeFree cfg (s.freePhysPages ++ pPages)
      livePageCount := s.livePageCount - pPages.length }

/-- `_compact_pending`: the survivors of the band next to the watermark move into the holes of the
band that is kept. -/
def compactPending (s : MultiEndedAllocator) (freed : List Int) :
    Option (MultiEndedAllocator × List Move) :=
  let k := freed.dedup.length
  let oldWm := s.watermark
  if k = 0 then some (s, [])
  else
    let newWm := cfg.growDirection.retreat oldWm k
    -- the vacated band has `k` pages from here on
    let vacatedLo :=
      match cfg.growDirection with
      | .up => newWm
      | .down => oldWm + 1
    let kept (h : Int) : Bool :=
      match cfg.growDirection with
      | .up => h < newWm
      | .down => newWm < h
    let inRange : Bool :=
      match cfg.growDirection with
      | .up => cfg.minPageIndex ≤ newWm ∧ ∀ h ∈ freed, cfg.minPageIndex ≤ h ∧ h < oldWm
      | .down => newWm ≤ (cfg.numPages : Int) - 1 ∧ ∀ h ∈ freed, oldWm < h ∧ h < cfg.numPages
    let srcs := (pageRange vacatedLo k).filter (· ∉ freed)
    let dsts := sortPages (freed.dedup.filter kept)
    if ¬ inRange ∨ srcs.length ≠ dsts.length then none
    else do
      let vMoved ← srcs.mapM s.physicalToVirtual
      let cleared := scatter s.physicalToVirtual ((pageRange vacatedLo k).map fun p => (p, none))
      some
        ({ s with
            watermark := newWm
            virtualToPhysical := scatter s.virtualToPhysical (vMoved.zip (dsts.map some))
            physicalToVirtual := scatter cleared (dsts.zip (vMoved.map some)) },
          (srcs.zip (dsts.zip vMoved)).map fun m => ⟨m.1, m.2.1, m.2.2⟩)

/-- The eager path of `free`. -/
def freeEager (s : MultiEndedAllocator) (freeIndex : List Nat) :
    Option (MultiEndedAllocator × List Move) := do
  let vPages := freedVirtualPages cfg freeIndex
  let pPages ← vPages.mapM s.virtualToPhysical
  { s with
    virtualToPhysical := scatter s.virtualToPhysical (vPages.map fun v => (v, none))
    freeVirtualIds :=
      if cfg.isIdOwner then s.freeVirtualIds ++ vPages else s.freeVirtualIds }.compactPending cfg
    pPages

def free (s : MultiEndedAllocator) (freeIndex : List Nat) :
    Option (MultiEndedAllocator × List Move) :=
  if freeIndex = [] then some (s, [])
  else if s.inFreeGroup then some ({ s with freeGroup := s.freeGroup ++ [freeIndex] }, [])
  else if cfg.lazyCompaction then (s.freeLazy cfg freeIndex).map fun s => (s, [])
  else s.freeEager cfg freeIndex

def freeGroupBegin (s : MultiEndedAllocator) : MultiEndedAllocator :=
  { s with inFreeGroup := true, freeGroup := [] }

def freeGroupEnd (s : MultiEndedAllocator) : Option (MultiEndedAllocator × List Move) :=
  if s.freeGroup ≠ [] then
    { s with inFreeGroup := false, freeGroup := [] }.free cfg s.freeGroup.flatten
  else some ({ s with inFreeGroup := false }, [])

/-! ## Section 7: Lazy compaction -/

def setLatestForwardDoneEvent (s : MultiEndedAllocator) (event : Option Event) :
    MultiEndedAllocator :=
  { s with latestForwardDoneEvent := event }

def setInflightForward (s : MultiEndedAllocator) (event : Event) (tokens : List Nat) :
    MultiEndedAllocator :=
  if ¬ cfg.lazyCompaction then s
  else { s with inflightForward := if tokens = [] then none else some (event, tokens) }

def drainPendingReuse (s : MultiEndedAllocator) (query : Event → Bool) (urgent : Bool) :
    MultiEndedAllocator :=
  let ready := s.pendingReuse.filter fun e => query e.1 || urgent
  if ready = [] then s
  else
    { s with
      pendingReuse := s.pendingReuse.filter fun e => !(query e.1 || urgent)
      pendingReusePagesCpu := s.pendingReusePagesCpu \ (ready.flatMap Prod.snd).toFinset
      freePhysPages := mergeFree cfg (s.freePhysPages ++ ready.flatMap Prod.snd) }

def maybeDrainPendingReuse (s : MultiEndedAllocator) (query : Event → Bool) : MultiEndedAllocator :=
  if ¬ cfg.lazyCompaction then s else s.drainPendingReuse cfg query false

/-- The loop of `_topmost_survivor` from page `p` on. `rest` are the holes that the cursor `j` has
not passed yet, from the frontier on. -/
def scan (pending : Finset Int) : Nat → Int → List Int → Option Int × List Int
  | 0, _, rest => (none, rest)
  | fuel + 1, p, rest =>
    let rest := rest.dropWhile fun h => cfg.growDirection.outer h p
    if rest.head? = some p then scan pending fuel (cfg.growDirection.inward p) rest.tail
    else if p ∈ pending then scan pending fuel (cfg.growDirection.inward p) rest
    else (some p, rest)

def topmostSurvivor (s : MultiEndedAllocator) (startHint : Option Int) (rest : List Int) :
    Option Int × List Int :=
  let frontier := cfg.growDirection.frontierPage s.watermark
  let p :=
    match startHint with
    | none => frontier
    | some hint => if cfg.growDirection.outer hint frontier then frontier else hint
  let fuel :=
    match cfg.growDirection with
    | .up => (p + 1 - cfg.minPageIndex).toNat
    | .down => ((cfg.numPages : Int) - p).toNat
  scan cfg s.pendingReusePagesCpu fuel p rest

/-- The length of the run of holes that starts at page `p`. -/
def boundaryRun : Int → List Int → Nat
  | _, [] => 0
  | p, h :: holes => if h = p then boundaryRun (cfg.growDirection.inward p) holes + 1 else 0

/-- `_absorb_boundary_holes`, on a sorted free list. -/
def absorbBoundaryHoles (s : MultiEndedAllocator) : MultiEndedAllocator :=
  let n := boundaryRun cfg (cfg.growDirection.frontierPage s.watermark)
    (cfg.growDirection.outerFirst s.freePhysPages)
  { s with
    watermark := cfg.growDirection.retreat s.watermark n
    freePhysPages := cfg.growDirection.cutOuter n s.freePhysPages }

def settleInflightForward (s : MultiEndedAllocator) : MultiEndedAllocator :=
  match s.latestForwardDoneEvent with
  | none => s
  | some _ => { s with inflightForward := none }

/-- The variables of the survivor walk of `_flush`. -/
structure Walk where
  cursor : Option Int
  rest : List Int
  /-- `none` until the first survivor needs it. -/
  writeSet : Option (List Int)
  inflight : Option (Event × List Nat)
  moves : List Move

/-- The survivor walk over the holes that are left, in the order in which they are filled. An
urgent walk runs with an empty write set, so it never meets the write race and the commit in
mid-walk that the source has for it. -/
def flushLoop (s : MultiEndedAllocator) (query : Event → Bool) (urgent : Bool) :
    List Int → Walk → Option Walk
  | [], w => some w
  | dst :: dsts, w =>
    match s.topmostSurvivor cfg w.cursor w.rest with
    | (none, rest) => some { w with rest := rest }
    | (some src, rest) =>
      let (writeSet, inflight) :=
        match w.writeSet with
        | some set => (set, w.inflight)
        | none => s.materializeInflightWriteSet cfg query
      let w := { w with rest := rest, writeSet := some writeSet, inflight := inflight }
      -- a survivor that the forward still writes stops the walk
      if src ∈ writeSet then some w
      -- the two pointers have crossed: the band is packed
      else if cfg.growDirection.outer dst src then some w
      else
        match s.physicalToVirtual src with
        | none => none
        | some virt =>
          let w :=
            { w with
              moves := w.moves ++ [⟨src, dst, virt⟩]
              cursor := some (cfg.growDirection.inward src) }
          if ¬ urgent ∧ cfg.maxMovesPerCall ≤ w.moves.length then some w
          else flushLoop s query urgent dsts w

/-- `_commit_move_batch`, with the pages it adds to `released_fired`. -/
def commitMoveBatch (s : MultiEndedAllocator) (query : Event → Bool) (moves : List Move)
    (latestEvent : Option Event) : MultiEndedAllocator × List Int :=
  if moves = [] then (s, [])
  else
    let srcs := moves.map Move.src
    let s :=
      { s with
        virtualToPhysical :=
          scatter s.virtualToPhysical (moves.map fun m => (m.virt, some m.dst))
        physicalToVirtual :=
          scatter (scatter s.physicalToVirtual (moves.map fun m => (m.dst, some m.virt)))
            (srcs.map fun p => (p, none)) }
    match latestEvent with
    | none => (s, srcs)
    | some event =>
      if query event then (s, srcs)
      else
        ({ s with
            pendingReuse := dictSet s.pendingReuse event srcs
            pendingReusePagesCpu := s.pendingReusePagesCpu ∪ srcs.toFinset }, [])

/-- Steps 1 to 5 of `_flush`: drain, sort, absorb. -/
def flushPrepare (s : MultiEndedAllocator) (q : Queries) (urgent : Bool) : MultiEndedAllocator :=
  let s := s.drainPendingReuse cfg q.drain urgent
  let s :=
    if ¬ cfg.sortAfterMerge ∧ 1 < s.freePhysPages.length then
      { s with freePhysPages := sortPages s.freePhysPages }
    else s
  s.absorbBoundaryHoles cfg

def flush (s : MultiEndedAllocator) (q : Queries) (urgent : Bool) :
    Option (MultiEndedAllocator × List Move) :=
  if ¬ cfg.lazyCompaction then some (s, [])
  else
    let s := s.flushPrepare cfg q urgent
    let holes := s.freePhysPages
    let singlePassAbsorb : Bool := urgent ∧ holes ≠ []
    let s := if singlePassAbsorb then s.settleInflightForward else s
    let latestEvent := if singlePassAbsorb then none else s.latestForwardDoneEvent
    do
      let w ← s.flushLoop cfg q.write urgent (cfg.growDirection.innerFirst holes)
        { cursor := none
          rest := cfg.growDirection.outerFirst holes
          writeSet := if singlePassAbsorb then some [] else none
          inflight := s.inflightForward
          moves := [] }
      let (s, released) :=
        { s with inflightForward := w.inflight }.commitMoveBatch q.commit w.moves latestEvent
      if singlePassAbsorb then
        -- full pack: everything behind the packed pages is given back
        some ({ s with watermark := cfg.growDirection.retreat s.watermark holes.length
                       freePhysPages := [] }, w.moves)
      else
        let free := cfg.growDirection.cutInner w.moves.length s.freePhysPages
        some ({ s with
          freePhysPages := if released = [] then free else mergeFree cfg (free ++ released) },
          w.moves)

def flushOpportunistic (s : MultiEndedAllocator) (q : Queries) :
    Option (MultiEndedAllocator × List Move) :=
  if ¬ cfg.lazyCompaction then some (s, [])
  else if s.freePhysPages = [] ∧ s.pendingReuse = [] then some (s, [])
  else s.flush cfg q false

end MultiEndedAllocator

end Sglang.MemCache
