import Sglang.MemCache.Allocator
import Sglang.Lib.PagePairing

/-!
# Allocator for Sliding-Window Hybrid Pools

Model of `SWATokenToKVPoolAllocator` (`mem_cache/allocator/swa.py`): one allocator for the slots of
the full-attention layers, one for those of the sliding-window layers, and the table
`full_to_swa_index_mapping` between them.

## Conventions

- `mapping` is `full_to_swa_index_mapping` without its last item, which is `-1` for good; index
  `-1` reads that item (`translateLoc`).
- The outer `none` of an operation is an assertion that fails, the inner `none` of an allocation is
  the `None` it returns.
-/

namespace Sglang.MemCache

open Lib

/-! ## Section 1: State -/

/-- Constructor parameters. -/
structure SwaConfig where
  size : Nat
  sizeSwa : Nat
  pageSize : Nat
  pageSize_pos : 0 < pageSize
  needSort : Bool := false

namespace SwaConfig

/-- A sub-allocator: by token with one slot a page, paged otherwise. -/
def pool (cfg : SwaConfig) (size : Nat) : PoolConfig where
  kind := if cfg.pageSize = 1 then .token else .paged
  size := size
  pageSize := cfg.pageSize
  pageSize_pos := cfg.pageSize_pos
  token_page := by
    intro h
    split at h
    · assumption
    · cases h
  needSort := cfg.needSort

def full (cfg : SwaConfig) : PoolConfig := cfg.pool cfg.size

def swa (cfg : SwaConfig) : PoolConfig := cfg.pool cfg.sizeSwa

end SwaConfig

structure SwaAllocator where
  fullAttn : Allocator
  swaAttn : Allocator
  mapping : Nat → Nat
  inFreeGroup : Bool
  freeGroup : List (List Nat)

namespace SwaAllocator

open Allocator (ExtendReq)

variable (cfg : SwaConfig)

def clear : SwaAllocator where
  fullAttn := Allocator.clear cfg.full
  swaAttn := Allocator.clear cfg.swa
  mapping := fun _ => 0
  inFreeGroup := false
  freeGroup := []

/-- `translate_loc_from_full_to_swa` for one index. -/
def translateLoc (s : SwaAllocator) (loc : Int) : Int :=
  if loc < 0 then -1 else s.mapping loc.toNat

/-- `swa_last_loc`. -/
def translate (s : SwaAllocator) (reqs : List ExtendReq) : List ExtendReq :=
  reqs.map fun r => { r with lastLoc := s.translateLoc r.lastLoc }

/-! ## Section 2: Operations -/

def setFullToSwaMapping (s : SwaAllocator) (fullIndices swaIndices : List Nat) :
    Option SwaAllocator :=
  if fullIndices = [] then some s
  else if fullIndices.length = swaIndices.length then
    some { s with mapping := scatter s.mapping (fullIndices.zip swaIndices) }
  else none

def alloc (s : SwaAllocator) (needSize : Nat) : Option (SwaAllocator × Option (List Nat)) :=
  if cfg.pageSize ≠ 1 then none
  else if needSize > s.fullAttn.availableSize cfg.full then some (s, none)
  else if needSize > s.swaAttn.availableSize cfg.swa then some (s, none)
  else
    let (full, fullIndices) := s.fullAttn.alloc cfg.full needSize
    let (swa, swaIndices) := s.swaAttn.alloc cfg.swa needSize
    match fullIndices, swaIndices with
    | some f, some w => do
      let s ← { s with fullAttn := full, swaAttn := swa }.setFullToSwaMapping f w
      some (s, some f)
    | _, _ => none

def newPagesAvailable (s : SwaAllocator) (numFullPages numSwaPages : Nat) : Bool :=
  numFullPages ≤ s.fullAttn.availableSize cfg.full / cfg.pageSize ∧
    numSwaPages ≤ s.swaAttn.availableSize cfg.swa / cfg.pageSize

def allocExtend (s : SwaAllocator) (reqs : List ExtendReq) :
    Option (SwaAllocator × Option (List Nat)) :=
  if ¬ 1 < cfg.pageSize then none
  else
    let numNewPages := Allocator.getNumNewPages cfg.pageSize reqs
    if ¬ s.newPagesAvailable cfg numNewPages numNewPages then some (s, none)
    else
      let (full, fullIndices) := s.fullAttn.allocExtend cfg.full reqs
      let (swa, swaIndices) := s.swaAttn.allocExtend cfg.swa (s.translate reqs)
      match fullIndices, swaIndices with
      | some f, some w => do
        let s ← { s with fullAttn := full, swaAttn := swa }.setFullToSwaMapping f.flatten w.flatten
        some (s, some f.flatten)
      | _, _ => none

/-- A request of `alloc_decode`: `seq_lens` and `last_loc`. -/
def decodeReq (r : Nat × Int) : ExtendReq := ⟨r.1 - 1, r.1, r.2⟩

/-- `alloc_decode`. Unlike `alloc` and `alloc_extend`, it asks both sides without a look at what is
available, and keeps what one side gave when the other gives nothing. -/
def allocDecode (s : SwaAllocator) (reqs : List (Nat × Int)) :
    Option (SwaAllocator × Option (List Nat)) :=
  if ¬ 1 < cfg.pageSize then none
  else
    let reqs := reqs.map decodeReq
    let (full, fullIndices) := s.fullAttn.allocDecode cfg.full reqs
    let (swa, swaIndices) := s.swaAttn.allocDecode cfg.swa (s.translate reqs)
    let s := { s with fullAttn := full, swaAttn := swa }
    match fullIndices, swaIndices with
    | some f, some w =>
      some ({ s with mapping := scatter s.mapping (f.flatten.zip w.flatten) }, some f.flatten)
    | _, _ => some (s, none)

/-- The pages of `_expand_to_full_pages`; with one slot a page the indices themselves. -/
def touchedPages (freeIndex : List Nat) : List Nat :=
  if cfg.pageSize = 1 then freeIndex else unique (freeIndex.map (· / cfg.pageSize))

def freeSwa (s : SwaAllocator) (freeIndex : List Nat) : SwaAllocator :=
  if freeIndex = [] then s
  else
    let mappingIndices := expand cfg.pageSize (touchedPages cfg freeIndex)
    let swaIndices := (mappingIndices.map s.mapping).filter (0 < ·)
    { s with swaAttn := s.swaAttn.free cfg.swa swaIndices
             mapping := unmapAll s.mapping mappingIndices }

def free (s : SwaAllocator) (freeIndex : List Nat) : Option SwaAllocator :=
  if freeIndex = [] then some s
  else
    let s :=
      if s.inFreeGroup then { s with freeGroup := s.freeGroup ++ [freeIndex] }
      else { s with fullAttn := s.fullAttn.free cfg.full freeIndex }.freeSwa cfg freeIndex
    if s.fullAttn.availableSize cfg.full ≤ cfg.size ∧
        s.swaAttn.availableSize cfg.swa ≤ cfg.sizeSwa then some s
    else none

def freeGroupBegin (s : SwaAllocator) : SwaAllocator :=
  { s with inFreeGroup := true, freeGroup := [] }

def freeGroupEnd (s : SwaAllocator) : Option SwaAllocator :=
  let s := { s with inFreeGroup := false }
  if s.freeGroup ≠ [] then s.free cfg s.freeGroup.flatten else some s

end SwaAllocator

/-! ## Section 3: Runs -/

/-- The calls. -/
inductive SwaOp where
  | alloc (needSize : Nat)
  | allocExtend (reqs : List Allocator.ExtendReq)
  | allocDecode (reqs : List (Nat × Int))
  | free (freeIndex : List Nat)
  | freeSwa (freeIndex : List Nat)
  | freeGroupBegin
  | freeGroupEnd

/-- What a call returns. -/
inductive SwaReturn where
  | indices (out : List Nat)
  | noMemory
  | done
deriving DecidableEq, Repr

namespace SwaAllocator

open Allocator (ExtendReq)

variable (cfg : SwaConfig)

def returned : SwaAllocator × Option (List Nat) → SwaAllocator × SwaReturn
  | (s, none) => (s, .noMemory)
  | (s, some out) => (s, .indices out)

/-- One call; `none` if an assertion fails. -/
def step (s : SwaAllocator) : SwaOp → Option (SwaAllocator × SwaReturn)
  | .alloc needSize => (s.alloc cfg needSize).map returned
  | .allocExtend reqs => (s.allocExtend cfg reqs).map returned
  | .allocDecode reqs => (s.allocDecode cfg reqs).map returned
  | .free freeIndex => (s.free cfg freeIndex).map fun s => (s, .done)
  | .freeSwa freeIndex => some (s.freeSwa cfg freeIndex, .done)
  | .freeGroupBegin => some (s.freeGroupBegin, .done)
  | .freeGroupEnd => (s.freeGroupEnd cfg).map fun s => (s, .done)

def exec : SwaAllocator → List SwaOp → Option SwaAllocator
  | s, [] => some s
  | s, op :: ops =>
    match s.step cfg op with
    | none => none
    | some (s', _) => s'.exec ops

/-- A full page that is in use: in no free list, and not waiting in a free group. -/
def LivePage (s : SwaAllocator) (p : Nat) : Prop :=
  1 ≤ p ∧ p ≤ cfg.full.numPages ∧ p ∉ s.fullAttn.pages cfg.full ∧
    (s.inFreeGroup → ∀ idx ∈ s.freeGroup, ∀ x ∈ idx, x / cfg.pageSize ≠ p)

instance (s : SwaAllocator) (p : Nat) : Decidable (s.LivePage cfg p) := by
  unfold LivePage
  infer_instance

/-- A request that continues inside a page stands at the slot before, on a page both sides have. -/
def Continuable (s : SwaAllocator) (r : ExtendReq) : Prop :=
  r.prefixLen ≤ r.seqLen ∧
    (r.prefixLen % cfg.pageSize ≠ 0 →
      0 ≤ r.lastLoc ∧ (r.lastLoc.toNat + 1) % cfg.pageSize = r.prefixLen % cfg.pageSize ∧
        s.mapping r.lastLoc.toNat ≠ 0)

instance (s : SwaAllocator) (r : ExtendReq) : Decidable (s.Continuable cfg r) := by
  unfold Continuable
  infer_instance

/-- What the callers owe: the right page size, slots in use, each once, and no nested groups. -/
def Valid (s : SwaAllocator) : SwaOp → Prop
  | .alloc _ => cfg.pageSize = 1
  | .allocExtend reqs => 1 < cfg.pageSize ∧ ∀ r ∈ reqs, s.Continuable cfg r
  | .allocDecode reqs =>
    1 < cfg.pageSize ∧ ∀ r ∈ reqs, 1 ≤ r.1 ∧ s.Continuable cfg (decodeReq r)
  | .free freeIndex =>
    (∀ x ∈ freeIndex, s.LivePage cfg (x / cfg.pageSize)) ∧ (cfg.pageSize = 1 → freeIndex.Nodup)
  | .freeSwa freeIndex =>
    (∀ x ∈ freeIndex, s.LivePage cfg (x / cfg.pageSize)) ∧ (cfg.pageSize = 1 → freeIndex.Nodup)
  | .freeGroupBegin => s.inFreeGroup = false
  | .freeGroupEnd => s.inFreeGroup = true

instance (s : SwaAllocator) (op : SwaOp) : Decidable (s.Valid cfg op) := by
  cases op <;> unfold Valid <;> infer_instance

/-- A decode batch whose new pages both sides have, or neither. -/
def Balanced (s : SwaAllocator) : SwaOp → Prop
  | .allocDecode reqs =>
    Allocator.getNumNewPagesDecode cfg.pageSize (reqs.map decodeReq) ≤
        s.fullAttn.availableSize cfg.full / cfg.pageSize ↔
      Allocator.getNumNewPagesDecode cfg.pageSize (reqs.map decodeReq) ≤
        s.swaAttn.availableSize cfg.swa / cfg.pageSize
  | _ => True

instance (s : SwaAllocator) (op : SwaOp) : Decidable (s.Balanced cfg op) := by
  cases op <;> unfold Balanced <;> infer_instance

/-- Every call is valid and balanced in the state in which it is made. -/
def BalancedOps : SwaAllocator → List SwaOp → Prop
  | _, [] => True
  | s, op :: ops =>
    s.Valid cfg op ∧ s.Balanced cfg op ∧
      match s.step cfg op with
      | none => True
      | some (s', _) => s'.BalancedOps ops

instance decidableBalancedOps :
    ∀ (s : SwaAllocator) (ops : List SwaOp), Decidable (s.BalancedOps cfg ops)
  | _, [] => isTrue trivial
  | s, op :: ops =>
    match h : s.step cfg op with
    | none => decidable_of_iff (s.Valid cfg op ∧ s.Balanced cfg op) (by simp [BalancedOps, h])
    | some (s', ret) =>
      have := decidableBalancedOps s' ops
      decidable_of_iff (s.Valid cfg op ∧ s.Balanced cfg op ∧ s'.BalancedOps cfg ops)
        (by simp [BalancedOps, h])

end SwaAllocator

end Sglang.MemCache
