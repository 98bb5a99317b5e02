import Mathlib.Algebra.Ring.Divisibility.Basic
import Mathlib.Tactic.Linarith
import Sglang.Managers.PrefillAdder

/-!
# Locks and Ranges of an Admission

Every way out of `addOneReq` leaves the lock counts of the prefix cache as they were, but for one
lock on the last node of a request that was admitted. The range an admission commits is what the
batch will prefill; it is cut to whole pages on one of the paths that cut it and not on the others.

- `Balanced`: what a call does to the list of admitted requests, to the locks and to the range,
- `RangesFit`: the part of the state that decides whether the range is right,
- `addOneReq_balanced_iff`: a call is balanced exactly when the ranges fit.
-/

namespace Sglang.Managers.PrefillAdder

open List

variable {α T N R : Type}

/-! ## Section 1: What a call should do -/

section Statement

variable (C : TreeCache T N R) [DecidableEq N]

/-- What a lock call adds to the locks held on `node`. -/
def LockCall.held (node : N) : LockCall N R → Int
  | .inc n _ => if n = node then 1 else 0
  | .dec n _ => if n = node then -1 else 0

/-- The locks held on `node`; the lock calls of a disabled cache return at once. -/
def heldLocks (calls : List (LockCall N R)) (node : N) : Int :=
  if C.disable then 0 else (calls.map (LockCall.held node)).sum

/-- The request was appended to `can_run_list`. -/
def Appended (s s' : Admission α T N R) : Prop :=
  s'.adder.canRunList = s.adder.canRunList ++ [s'.req]

/-- The range of an admitted request. -/
structure RangeOk (pageSize : Nat) (req : Req N) (range : Range) : Prop where
  starts : range.start = req.prefixLen
  nonempty : req.prefixLen < req.fullLen → range.start < range.stop
  aligned : range.stop < req.fullLen → (pageSize : Int) ∣ range.stop
  inside : range.stop ≤ req.fullLen

/-- What a call of `add_one_req` should do. -/
structure Balanced (pageSize : Nat) (s s' : Admission α T N R) : Prop where
  /-- At most one entry is added, and it is the request. -/
  once : s'.adder.canRunList = s.adder.canRunList ∨ Appended s s'
  /-- One lock on the last node of an admitted request, and no other. -/
  locks : ∀ node, heldLocks C s'.tree.calls node = heldLocks C s.tree.calls node +
    if s'.adder.canRunList.length = s.adder.canRunList.length + 1 ∧ C.disable = false ∧
      s'.req.lastNode = node then 1 else 0
  range : Appended s s' → ∃ range, s'.req.extendRange = some range ∧ RangeOk pageSize s'.req range

end Statement

/-! ## Section 2: Arithmetic of pages -/

section Pages

variable (cfg : AdderConfig α N)

theorem pageSize_pos : (0 : Int) < cfg.pageSize := Int.natCast_pos.mpr cfg.pageSize_pos

theorem dvd_floorPagedTokens (n : Int) : (cfg.pageSize : Int) ∣ cfg.floorPagedTokens n :=
  Dvd.intro_left _ rfl

theorem floorPagedTokens_le (n : Int) : cfg.floorPagedTokens n ≤ n :=
  Int.ediv_mul_le n (pageSize_pos cfg).ne'

theorem floorPagedTokens_lt {m n : Int} (h : m < cfg.ceilPagedTokens n) :
    cfg.floorPagedTokens m < n := by
  have hpos := pageSize_pos cfg
  unfold AdderConfig.ceilPagedTokens at h
  unfold AdderConfig.floorPagedTokens
  have hneg := Int.lt_ediv_add_one_mul_self (-n) hpos
  -- the pages of `m` are fewer than those of `n`
  have hpages : m / (cfg.pageSize : Int) < -(-n / (cfg.pageSize : Int)) := by
    by_contra hge
    have hmul := Int.mul_le_mul_of_nonneg_right (not_lt.mp hge) hpos.le
    have := Int.ediv_mul_le m hpos.ne'
    omega
  have hmul := Int.mul_le_mul_of_nonneg_right (Int.le_sub_one_of_lt hpages) hpos.le
  linarith [sub_mul (-(-n / (cfg.pageSize : Int))) 1 (cfg.pageSize : Int),
    add_mul (-n / (cfg.pageSize : Int)) 1 (cfg.pageSize : Int),
    neg_mul (-n / (cfg.pageSize : Int)) (cfg.pageSize : Int)]

theorem floorPagedTokens_pos_iff (n : Int) : 0 < cfg.floorPagedTokens n ↔
    (cfg.pageSize : Int) ≤ n := by
  have hpos := pageSize_pos cfg
  unfold AdderConfig.floorPagedTokens
  rw [mul_pos_iff_of_pos_right hpos, Int.lt_iff_add_one_le, Int.le_ediv_iff_mul_le hpos, zero_add,
    one_mul]

end Pages

/-! ## Section 3: The ranges that are committed -/

/-- When what is left of the dllm budget is a range: a page, not more than the request has left, and
from a page-aligned prefix if it is cut. -/
structure DllmFits (cfg : AdderConfig α N) (a : PrefillAdder α N) (req : Req N) (blockSize : Int) :
    Prop where
  page : 0 < req.candExtendInputLen → (cfg.pageSize : Int) ≤ min a.remDllmTokens blockSize
  inside : dllmTruncLen cfg a blockSize ≤ req.candExtendInputLen
  aligned : dllmTruncLen cfg a blockSize < req.candExtendInputLen →
    (cfg.pageSize : Int) ∣ req.prefixLen

section Ranges

variable (cfg : AdderConfig α N)

/-- The range of a dllm admission is right exactly when the budget fits. -/
theorem rangeOk_dllm_iff (a : PrefillAdder α N) (req : Req N) (blockSize : Int) :
    RangeOk cfg.pageSize req ⟨req.prefixLen, req.prefixLen + dllmTruncLen cfg a blockSize⟩ ↔
      DllmFits cfg a req blockSize := by
  have hpage : 0 < dllmTruncLen cfg a blockSize ↔
      (cfg.pageSize : Int) ≤ min a.remDllmTokens blockSize :=
    floorPagedTokens_pos_iff cfg _
  have hdvd : (cfg.pageSize : Int) ∣ req.prefixLen + dllmTruncLen cfg a blockSize ↔
      (cfg.pageSize : Int) ∣ req.prefixLen := dvd_add_left (dvd_floorPagedTokens cfg _)
  have hcand : req.candExtendInputLen = (req.fullLen : Int) - req.prefixLen := rfl
  constructor
  · intro h
    refine ⟨fun hpos => hpage.mp ?_, ?_, fun hlt => hdvd.mp (h.aligned ?_)⟩
    · have := h.nonempty (by omega)
      dsimp only at this
      omega
    · have := h.inside
      dsimp only at this
      omega
    · dsimp only
      omega
  · intro h
    refine ⟨rfl, fun hpos => ?_, fun hlt => hdvd.mpr (h.aligned ?_), ?_⟩
    · have := hpage.mpr (h.page (by omega))
      dsimp only
      omega
    · dsimp only at hlt
      omega
    · have := h.inside
      dsimp only
      omega

theorem rangeOk_whole (req : Req N) : RangeOk cfg.pageSize req ⟨req.prefixLen, req.fullLen⟩ where
  starts := rfl
  nonempty := fun h => Int.ofNat_lt.mpr h
  aligned := fun h => absurd h (lt_irrefl _)
  inside := le_rfl

section

variable {req : Req N} {rem truncLen : Int} {truncationAlignSize : Option Nat}
  (hrem : rem < inputTokens cfg req)
  (h : chunkTruncLen cfg req rem truncationAlignSize = some truncLen) (hpos : 0 < truncLen)
include hrem h hpos

/-- What is cut from the chunk budget stays below what the request has left, and ends with a
page. -/
theorem chunkTruncLen_spec :
    truncLen < req.candExtendInputLen ∧ (cfg.pageSize : Int) ∣ req.prefixLen + truncLen := by
  have hlt := floorPagedTokens_lt cfg hrem
  have hend : ∀ n, n ≤ cfg.floorPagedTokens rem →
      cfg.floorPagedTokens (n + req.prefixLen) - req.prefixLen < req.candExtendInputLen ∧
        (cfg.pageSize : Int) ∣ req.prefixLen +
        (cfg.floorPagedTokens (n + req.prefixLen) - req.prefixLen) := by
    intro n hn
    have := floorPagedTokens_le cfg (n + req.prefixLen)
    refine ⟨by omega, ?_⟩
    rw [add_sub_cancel]
    exact dvd_floorPagedTokens cfg _
  unfold chunkTruncLen at h
  dsimp only at h
  split at h
  · cases h
    omega
  · cases truncationAlignSize with
    | none =>
      cases h
      exact hend _ le_rfl
    | some align =>
      dsimp only at h
      split at h
      · cases h
        omega
      · split at h
        · cases h
        · cases h
          apply hend
          rw [mul_comm]
          exact Int.ediv_mul_le _ (by omega)

theorem rangeOk_chunk : RangeOk cfg.pageSize req ⟨req.prefixLen, req.prefixLen + truncLen⟩ := by
  obtain ⟨hlt, hdvd⟩ := chunkTruncLen_spec cfg hrem h hpos
  have hcand : req.candExtendInputLen = (req.fullLen : Int) - req.prefixLen := rfl
  refine ⟨rfl, fun _ => ?_, fun _ => hdvd, ?_⟩
  · dsimp only
    omega
  · dsimp only
    omega

end

theorem rangeOk_plain_chunk_iff {req : Req N} {rem : Int} (hplen : req.prefixLen = 0)
    (hpos : 0 < rem) (hrem : rem < req.candExtendInputLen) :
    RangeOk cfg.pageSize req ⟨req.prefixLen, req.prefixLen + rem⟩ ↔ (cfg.pageSize : Int) ∣ rem := by
  have hcand : req.candExtendInputLen = (req.fullLen : Int) - req.prefixLen := rfl
  rw [hplen] at hcand ⊢
  rw [Int.natCast_zero, zero_add]
  constructor
  · intro h
    exact h.aligned (by dsimp only; omega)
  · intro h
    refine ⟨by rw [hplen]; rfl, fun _ => hpos, fun _ => h, ?_⟩
    dsimp only
    omega

end Ranges

/-! ## Section 4: The locks of a call -/

section Locks

variable {C : TreeCache T N R}

theorem not_appended_of_same {s s' : Admission α T N R}
    (h : s'.adder.canRunList = s.adder.canRunList) : ¬Appended s s' := by
  intro happ
  rw [Appended, h] at happ
  exact cons_ne_nil _ _ (self_eq_append_right.mp happ)

variable [DecidableEq N]

theorem heldLocks_append (C : TreeCache T N R) (calls more : List (LockCall N R)) (node : N) :
    heldLocks C (calls ++ more) node = heldLocks C calls node + heldLocks C more node := by
  unfold heldLocks
  split
  · rfl
  · rw [map_append, sum_append]

theorem heldLocks_incLock (lt : Locked T N R) (n node : N) :
    heldLocks C (incLock C lt n).1.calls node =
      heldLocks C lt.calls node + if C.disable = false ∧ n = node then 1 else 0 := by
  unfold incLock
  rw [heldLocks_append]
  unfold heldLocks LockCall.held
  cases C.disable
  · simp
  · simp

theorem heldLocks_decLock (lt : Locked T N R) (n node : N) (params : Option R) :
    heldLocks C (decLock C lt n params).calls node =
      heldLocks C lt.calls node - if C.disable = false ∧ n = node then 1 else 0 := by
  unfold decLock
  rw [heldLocks_append]
  unfold heldLocks LockCall.held
  cases C.disable
  · by_cases hn : n = node
    · simp [hn]
      omega
    · simp [hn]
  · simp

theorem Balanced.of_same {ps : Nat} {s s' : Admission α T N R}
    (h : s'.adder.canRunList = s.adder.canRunList)
    (hlocks : ∀ node, heldLocks C s'.tree.calls node = heldLocks C s.tree.calls node) :
    Balanced C ps s s' where
  once := Or.inl h
  locks := by
    intro node
    rw [hlocks, if_neg, add_zero]
    rintro ⟨hlen, -⟩
    rw [h] at hlen
    omega
  range := fun happ => absurd happ (not_appended_of_same h)

theorem Balanced.iff_of_appended {ps : Nat} {s s' : Admission α T N R} (happ : Appended s s')
    (hlocks : ∀ node, heldLocks C s'.tree.calls node = heldLocks C s.tree.calls node +
      if C.disable = false ∧ s'.req.lastNode = node then 1 else 0)
    {range : Range} (hrange : s'.req.extendRange = some range) :
    Balanced C ps s s' ↔ RangeOk ps s'.req range := by
  constructor
  · intro h
    obtain ⟨range', heq, hok⟩ := h.range happ
    rw [hrange] at heq
    cases heq
    exact hok
  · intro hok
    refine ⟨Or.inr happ, ?_, fun _ => ⟨range, hrange, hok⟩⟩
    intro node
    have hlen : s'.adder.canRunList.length = s.adder.canRunList.length + 1 := by
      rw [happ, length_append, length_singleton]
    rw [hlocks]
    simp only [hlen, true_and]

end Locks

/-! ## Section 5: What a call does -/

variable {cfg : AdderConfig α N} {C : TreeCache T N R}

/-- Nothing was admitted and no lock was taken. -/
structure Untouched (s s' : Admission α T N R) : Prop where
  canRunList : s'.adder.canRunList = s.adder.canRunList
  tree : s'.tree = s.tree

/-- The request was admitted with a range, and its last node was locked. -/
structure Committed (C : TreeCache T N R) (s s' : Admission α T N R) (range : Range) : Prop where
  appended : Appended s s'
  lastNode : s'.req.lastNode = s.req.lastNode
  tree : s'.tree = (incLock C s.tree s'.req.lastNode).1
  extendRange : s'.req.extendRange = some range

theorem loadBack_calls (s : Admission α T N R) : (loadBack C s).tree.calls = s.tree.calls := by
  unfold loadBack
  split
  · rfl
  · rfl

theorem loadBack_adder (s : Admission α T N R) : (loadBack C s).adder = s.adder := by
  unfold loadBack
  split
  · rfl
  · rfl

theorem reqIncLockRef_req (cfg : AdderConfig α N) (C : TreeCache T N R) (lt : Locked T N R)
    (req : Req N) :
    (reqIncLockRef cfg C lt req).2.prefixLen = req.prefixLen ∧
      (reqIncLockRef cfg C lt req).2.fullLen = req.fullLen ∧
      (reqIncLockRef cfg C lt req).2.lastNode = req.lastNode := by
  unfold reqIncLockRef
  split
  · exact ⟨rfl, rfl, rfl⟩
  · exact ⟨rfl, rfl, rfl⟩

theorem isLastChunk_eq_false {a : PrefillAdder α N} {n : Int} (h : isLastChunk a n = false) :
    a.remChunkTokens.getD 0 < n := by
  unfold isLastChunk at h
  cases hrem : a.remChunkTokens with
  | none =>
    rw [hrem] at h
    cases h
  | some rem =>
    rw [hrem] at h
    simpa using h

/-- What a commit without a prefix cache needs to fit. -/
def PlainFits (cfg : AdderConfig α N) (a : PrefillAdder α N) (req : Req N) : Prop :=
  (∀ blockSize, cfg.dllmBlockSize = some blockSize → 0 < a.remDllmTokens →
    req.prefixLen = 0 ∧ DllmFits cfg a req blockSize) ∧
  (cfg.dllmBlockSize = none → req.prefixLen = 0 → ∀ rem, a.remChunkTokens = some rem → 0 < rem →
    rem < req.candExtendInputLen → (cfg.pageSize : Int) ∣ rem)

theorem plainFits_reqStates (a : PrefillAdder α N) (states : Option (List (α × Int)))
    (req : Req N) :
    PlainFits cfg { a with reqStates := states } req ↔ PlainFits cfg a req := by
  have hdllm : ∀ blockSize, DllmFits cfg { a with reqStates := states } req blockSize ↔
      DllmFits cfg a req blockSize :=
    fun _ => ⟨fun h => ⟨h.page, h.inside, h.aligned⟩, fun h => ⟨h.page, h.inside, h.aligned⟩⟩
  unfold PlainFits
  simp only [hdllm]

section Body

variable [BudgetNumber α]

theorem commitLocked_spec (s : Admission α T N R) (stop : Int) (chunked : Bool) (e m : Int) :
    Committed C s (commitLocked cfg C s s.req.prefixLen stop chunked e m)
      ⟨s.req.prefixLen, stop⟩ := by
  obtain ⟨-, -, hnode⟩ := reqIncLockRef_req cfg C s.tree s.req
  refine ⟨rfl, hnode, ?_, rfl⟩
  show (incLock C s.tree s.req.lastNode).1 =
    (incLock C s.tree (reqIncLockRef cfg C s.tree s.req).2.lastNode).1
  rw [hnode]

theorem rangeOk_commitLocked (s : Admission α T N R) (stop : Int) (chunked : Bool) (e m : Int)
    (range : Range) :
    RangeOk cfg.pageSize (commitLocked cfg C s s.req.prefixLen stop chunked e m).req range ↔
      RangeOk cfg.pageSize s.req range := by
  obtain ⟨hplen, hfull, -⟩ := reqIncLockRef_req cfg C s.tree s.req
  have hp : (commitLocked cfg C s s.req.prefixLen stop chunked e m).req.prefixLen =
    s.req.prefixLen := hplen
  have hf : (commitLocked cfg C s s.req.prefixLen stop chunked e m).req.fullLen = s.req.fullLen :=
    hfull
  constructor
  · intro h
    exact ⟨hp ▸ h.starts, by rw [← hp, ← hf]; exact h.nonempty, hf ▸ h.aligned, hf ▸ h.inside⟩
  · intro h
    exact ⟨hp ▸ h.starts, by rw [hp, hf]; exact h.nonempty, hf ▸ h.aligned, hf ▸ h.inside⟩

/-- If the body of the lock commits a dllm block, the block fits. -/
def LoadedFits (cfg : AdderConfig α N) (s : Admission α T N R) (truncationAlignSize : Option Nat) :
    Prop :=
  inputRefuses s.adder (inputTokens cfg s.req) = false →
    truncationAlignSize = none → 0 < s.adder.remDllmTokens →
      ∀ blockSize, cfg.dllmBlockSize = some blockSize → DllmFits cfg s.adder s.req blockSize

/-- Either nothing is admitted, and `fits` holds, or a range is committed that is right if `fits`
does. -/
inductive Admits (C : TreeCache T N R) (ps : Nat) (fits : Prop) (s s' : Admission α T N R) :
    Prop where
  | untouched (h : Untouched s s') (hfits : fits)
  | committed (range : Range) (h : Committed C s s' range) (hiff : RangeOk ps s'.req range ↔ fits)

theorem addLoaded_cases (cfg : AdderConfig α N) (C : TreeCache T N R) (s : Admission α T N R)
    (truncationAlignSize : Option Nat) :
    Admits C cfg.pageSize (LoadedFits cfg s truncationAlignSize) s
      (addLoaded cfg C s truncationAlignSize).1 := by
  have hsame : Untouched s s := ⟨rfl, rfl⟩
  unfold addLoaded LoadedFits
  dsimp only
  cases hinput : inputRefuses s.adder (inputTokens cfg s.req) with
  | true => exact .untouched hsame fun h => nomatch h
  | false =>
    rw [if_neg Bool.false_ne_true]
    cases hdllm : cfg.dllmBlockSize with
    | some blockSize =>
      dsimp only
      by_cases hrem : s.adder.remDllmTokens ≤ 0
      · rw [if_pos hrem]
        exact .untouched hsame fun _ _ hpos => absurd hrem (not_le.mpr hpos)
      · rw [if_neg hrem]
        cases truncationAlignSize with
        | some align => exact .untouched hsame fun _ h => nomatch h
        | none =>
          refine .committed _ (commitLocked_spec s _ _ _ _)
            ((rangeOk_commitLocked s _ _ _ _ _).trans ?_)
          rw [rangeOk_dllm_iff]
          constructor
          · intro h _ _ _ blockSize' heq
            cases heq
            exact h
          · intro h
            exact h rfl rfl (not_le.mp hrem) blockSize rfl
    | none =>
      dsimp only
      -- the clauses about a block size are void
      have hvacuous : ∀ P : Int → Prop, ∀ blockSize : Int, none = some blockSize → P blockSize :=
        fun _ _ h => nomatch h
      cases hlast : isLastChunk s.adder (inputTokens cfg s.req) with
      | true =>
        refine .committed _ (commitLocked_spec s _ _ _ _)
          ((rangeOk_commitLocked s _ _ _ _ _).trans ?_)
        exact iff_of_true (rangeOk_whole cfg s.req) fun _ _ _ => hvacuous _
      | false =>
        rw [if_neg Bool.false_ne_true]
        have hrem := isLastChunk_eq_false hlast
        cases htrunc : chunkTruncLen cfg s.req (s.adder.remChunkTokens.getD 0)
          truncationAlignSize with
        | none => exact .untouched hsame fun _ _ _ => hvacuous _
        | some truncLen =>
          dsimp only
          by_cases hpos : truncLen ≤ 0
          · rw [if_pos hpos]
            exact .untouched hsame fun _ _ _ => hvacuous _
          · rw [if_neg hpos]
            refine .committed _ (commitLocked_spec s _ _ _ _)
              ((rangeOk_commitLocked s _ _ _ _ _).trans ?_)
            exact iff_of_true (rangeOk_chunk cfg hrem htrunc (not_le.mp hpos)) fun _ _ _ =>
              hvacuous _

/-- If the body of the lock gets past the checks of the pools, what it commits fits. -/
def LockedFits (cfg : AdderConfig α N) (C : TreeCache T N R) (s : Admission α T N R)
    (truncationAlignSize : Option Nat) : Prop :=
  poolsRefuse cfg C s.adder s.tree.tree s.req = false →
    LoadedFits cfg (loadBack C s) truncationAlignSize

theorem addLocked_cases (cfg : AdderConfig α N) (C : TreeCache T N R) (s : Admission α T N R)
    (truncationAlignSize : Option Nat) :
    ∃ s₁, (s₁ = s ∨ s₁ = loadBack C s) ∧ Admits C cfg.pageSize
      (LockedFits cfg C s truncationAlignSize) s₁
      (addLocked cfg C s truncationAlignSize).1 := by
  unfold addLocked LockedFits
  cases hpools : poolsRefuse cfg C s.adder s.tree.tree s.req with
  | true => exact ⟨s, Or.inl rfl, .untouched ⟨rfl, rfl⟩ fun h => nomatch h⟩
  | false =>
    rw [if_neg Bool.false_ne_true]
    refine ⟨loadBack C s, Or.inr rfl, ?_⟩
    cases addLoaded_cases cfg C (loadBack C s) truncationAlignSize with
    | untouched h hfits => exact .untouched h fun _ => hfits
    | committed range h hiff =>
      exact .committed range h (hiff.trans ⟨fun hf _ => hf, fun hf => hf rfl⟩)

/-- What the end of `add_one_req_ignore_eos` does; no lock is taken. -/
inductive PlainAdmits (ps : Nat) (fits : Prop) (a : PrefillAdder α N)
    (r : PrefillAdder α N × Req N) : Prop where
  | untouched (h : r.1.canRunList = a.canRunList) (hfits : fits)
  | committed (range : Range) (happ : r.1.canRunList = a.canRunList ++ [r.2])
      (hrange : r.2.extendRange = some range) (hiff : RangeOk ps r.2 range ↔ fits)

theorem rangeOk_setExtendRange {ps : Nat} {req : Req N} {start stop : Int} {range : Range} :
    RangeOk ps (req.setExtendRange start stop) range ↔ RangeOk ps req range :=
  ⟨fun h => ⟨h.starts, h.nonempty, h.aligned, h.inside⟩,
    fun h => ⟨h.starts, h.nonempty, h.aligned, h.inside⟩⟩

theorem PlainAdmits.commitRange {fits : Prop} (a : PrefillAdder α N) (req : Req N)
    (start stop : Int) (chunked : Bool) (p e m : Int)
    (hiff : RangeOk cfg.pageSize req ⟨start, stop⟩ ↔ fits) :
    PlainAdmits cfg.pageSize fits a (commitRange cfg C a req start stop chunked p e m) :=
  .committed ⟨start, stop⟩ rfl rfl (rangeOk_setExtendRange.trans hiff)

theorem commitIgnoreEos_cases (cfg : AdderConfig α N) (C : TreeCache T N R) (a : PrefillAdder α N)
    (t : T) (req : Req N) :
    PlainAdmits cfg.pageSize (PlainFits cfg a req) a
      ((commitIgnoreEos cfg C a t req).1, (commitIgnoreEos cfg C a t req).2.1) := by
  unfold commitIgnoreEos PlainFits
  cases hdllm : cfg.dllmBlockSize with
  | some blockSize =>
    dsimp only
    by_cases hrem : a.remDllmTokens ≤ 0
    · rw [if_pos hrem]
      exact .untouched rfl ⟨fun _ _ hpos => absurd hrem (not_le.mpr hpos), fun h => nomatch h⟩
    · rw [if_neg hrem]
      apply PlainAdmits.commitRange
      constructor
      · intro h
        have hplen : req.prefixLen = 0 := Int.natCast_eq_zero.mp h.starts.symm
        refine ⟨fun blockSize' heq _ => ⟨hplen, ?_⟩, fun h => nomatch h⟩
        cases heq
        rw [← rangeOk_dllm_iff, hplen]
        exact h
      · rintro ⟨hfits, -⟩
        obtain ⟨hplen, hfits⟩ := hfits blockSize rfl (not_le.mp hrem)
        rw [← rangeOk_dllm_iff, hplen] at hfits
        exact hfits
  | none =>
    dsimp only
    cases hlast : isLastChunk a req.candExtendInputLen with
    | true =>
      -- the whole rest fits into the chunk
      rw [if_pos rfl]
      apply PlainAdmits.commitRange
      refine iff_of_true (rangeOk_whole cfg req) ⟨(fun _ h => nomatch h), ?_⟩
      intro _ _ rem heq _ hlt
      rw [isLastChunk, heq] at hlast
      exact absurd (of_decide_eq_true hlast) (not_le.mpr hlt)
    | false =>
      rw [if_neg Bool.false_ne_true]
      have hlt := isLastChunk_eq_false hlast
      have hbudget : ∀ rem, a.remChunkTokens = some rem → a.remChunkTokens.getD 0 = rem := by
        intro rem heq
        rw [heq]
        rfl
      by_cases hpos : a.remChunkTokens.getD 0 ≤ 0
      · rw [if_pos hpos]
        refine .untouched rfl ⟨(fun _ h => nomatch h), ?_⟩
        intro _ _ rem heq hrem _
        rw [hbudget rem heq] at hpos
        exact absurd hpos (not_le.mpr hrem)
      · rw [if_neg hpos]
        by_cases hplen : req.prefixLen = 0
        -- cut at the budget, which is done without a prefix only
        · rw [if_neg (not_not.mpr hplen)]
          apply PlainAdmits.commitRange
          rw [rangeOk_plain_chunk_iff cfg hplen (not_le.mp hpos) hlt]
          constructor
          · intro hdvd
            refine ⟨(fun _ h => nomatch h), ?_⟩
            intro _ _ rem heq _ _
            rw [← hbudget rem heq]
            exact hdvd
          · rintro ⟨-, hdvd⟩
            cases hrem : a.remChunkTokens with
            | none =>
              rw [isLastChunk, hrem] at hlast
              cases hlast
            | some rem =>
              rw [hrem] at hpos hlt
              exact hdvd rfl hplen rem hrem (not_le.mp hpos) hlt
        · rw [if_pos hplen]
          exact .untouched rfl ⟨(fun _ h => nomatch h), fun _ h => absurd h hplen⟩

/-- If the call gets past its checks, what it commits fits. -/
def BypassFits (cfg : AdderConfig α N) (C : TreeCache T N R) (s : Admission α T N R)
    (delayed : Bool) : Prop :=
  ignoreEosFits cfg C s.adder s.tree.tree s.req = true →
    scanRefuses cfg C s.adder s.tree.tree s.req = false → delayed = false →
    PlainFits cfg s.adder s.req

theorem addOneReqIgnoreEos_cases (cfg : AdderConfig α N) (C : TreeCache T N R)
    (s : Admission α T N R) (delayed : Bool) :
    PlainAdmits cfg.pageSize (BypassFits cfg C s delayed) s.adder
      ((addOneReqIgnoreEos cfg C s.adder s.tree.tree s.req delayed).1,
        (addOneReqIgnoreEos cfg C s.adder s.tree.tree s.req delayed).2.1) := by
  unfold addOneReqIgnoreEos BypassFits
  cases hfits : ignoreEosFits cfg C s.adder s.tree.tree s.req with
  | false => exact .untouched rfl fun h => nomatch h
  | true =>
    cases hscan : scanRefuses cfg C s.adder s.tree.tree s.req with
    | true => exact .untouched rfl fun _ h => nomatch h
    | false =>
      cases delayed with
      | true => exact .untouched rfl fun _ _ h => nomatch h
      | false =>
        have hcases := commitIgnoreEos_cases cfg C
          { s.adder with reqStates := some (enterReqStates cfg s.adder s.req) } s.tree.tree s.req
        rw [plainFits_reqStates] at hcases
        cases hcases with
        | untouched h hplain => exact .untouched h fun _ _ _ => hplain
        | committed range happ hrange hiff =>
          exact .committed range happ hrange (hiff.trans ⟨fun h _ _ _ => h, fun h => h rfl rfl rfl⟩)

/-! ## Section 6: Every way out -/

/-- The state that the body of the lock starts from. -/
def acquired (C : TreeCache T N R) (s : Admission α T N R) : Admission α T N R :=
  { s with tree := (incLock C s.tree s.req.lastNode).1 }

/-- The release repeats the result of the acquire where the cache is a tree. -/
def release (C : TreeCache T N R) (s : Admission α T N R) (lt : Locked T N R) : Locked T N R :=
  decLock C lt s.req.lastNode (if C.isTreeCache then some (incLock C s.tree s.req.lastNode).2
    else none)

theorem lockNode_cases (cfg : AdderConfig α N) (C : TreeCache T N R) (s : Admission α T N R)
    (truncationAlignSize : Option Nat) :
    ∃ s₁, (s₁ = acquired C s ∨ s₁ = loadBack C (acquired C s)) ∧
      ((lockNode cfg C s truncationAlignSize).1.adder.canRunList = s.adder.canRunList ∧
          (lockNode cfg C s truncationAlignSize).1.tree = release C s s₁.tree ∧
          LockedFits cfg C (acquired C s) truncationAlignSize ∨
        Appended s (lockNode cfg C s truncationAlignSize).1 ∧
          (lockNode cfg C s truncationAlignSize).1.req.lastNode = s₁.req.lastNode ∧
          (lockNode cfg C s truncationAlignSize).1.tree =
            release C s
            (incLock C s₁.tree (lockNode cfg C s truncationAlignSize).1.req.lastNode).1 ∧
          ∃ range, (lockNode cfg C s truncationAlignSize).1.req.extendRange = some range ∧
            (RangeOk cfg.pageSize (lockNode cfg C s truncationAlignSize).1.req range ↔
              LockedFits cfg C (acquired C s) truncationAlignSize)) := by
  obtain ⟨s₁, hs₁, hbody⟩ := addLocked_cases cfg C (acquired C s) truncationAlignSize
  have htree : (lockNode cfg C s truncationAlignSize).1.tree =
      release C s (addLocked cfg C (acquired C s) truncationAlignSize).1.tree := rfl
  have hlist : s₁.adder.canRunList = s.adder.canRunList := by
    rcases hs₁ with rfl | rfl
    · rfl
    · rw [loadBack_adder]
      rfl
  refine ⟨s₁, hs₁, ?_⟩
  cases hbody with
  | untouched h hfits => exact Or.inl ⟨h.canRunList.trans hlist, by rw [htree, h.tree], hfits⟩
  | committed range h hiff =>
    refine Or.inr ⟨?_, h.lastNode, by rw [htree, h.tree]; rfl, range, h.extendRange, hiff⟩
    rw [Appended, ← hlist]
    exact h.appended

/-- The part of the state that decides whether a call commits a right range. -/
def RangesFit (cfg : AdderConfig α N) (C : TreeCache T N R) (s : Admission α T N R)
    (delayed delayedAgain : Bool) (truncationAlignSize : Option Nat) : Prop :=
  passRefuses cfg s.adder delayed = false →
    (bypasses C s.req = true → BypassFits cfg C s delayedAgain) ∧
    (bypasses C s.req = false → poolsRefuse cfg C s.adder s.tree.tree s.req = false →
      inputRefuses s.adder
          (cfg.ceilPagedTokens (s.req.candExtendInputLen - s.req.hostHitLength)) = false →
        LockedFits cfg C (acquired C s) truncationAlignSize)

variable [DecidableEq N]

theorem lockNode_balanced_iff (s : Admission α T N R) (truncationAlignSize : Option Nat) :
    Balanced C cfg.pageSize s (lockNode cfg C s truncationAlignSize).1 ↔
      LockedFits cfg C (acquired C s) truncationAlignSize := by
  obtain ⟨s₁, hs₁, hcases⟩ := lockNode_cases cfg C s truncationAlignSize
  have hcalls : s₁.tree.calls = (incLock C s.tree s.req.lastNode).1.calls := by
    rcases hs₁ with rfl | rfl
    · rfl
    · exact loadBack_calls (acquired C s)
  rcases hcases with ⟨hsame, htree, hfits⟩ | ⟨happ, -, htree, range, hrange, hiff⟩
  · refine iff_of_true (Balanced.of_same hsame fun node => ?_) hfits
    rw [htree, release, heldLocks_decLock, hcalls, heldLocks_incLock, add_sub_cancel_right]
  · rw [← hiff]
    refine Balanced.iff_of_appended happ (fun node => ?_) hrange
    rw [htree, release, heldLocks_decLock, heldLocks_incLock, hcalls, heldLocks_incLock]
    omega

theorem bypass_balanced_iff {s : Admission α T N R} (hdis : C.disable = true) (delayed : Bool) :
    Balanced C cfg.pageSize s
        { s with
          adder := (addOneReqIgnoreEos cfg C s.adder s.tree.tree s.req delayed).1
          req := (addOneReqIgnoreEos cfg C s.adder s.tree.tree s.req delayed).2.1 } ↔
      BypassFits cfg C s delayed := by
  cases addOneReqIgnoreEos_cases cfg C s delayed with
  | untouched h hfits => exact iff_of_true (Balanced.of_same h fun _ => rfl) hfits
  | committed range happ hrange hiff =>
    rw [← hiff]
    have happ' : Appended s { s with
        adder := (addOneReqIgnoreEos cfg C s.adder s.tree.tree s.req delayed).1
        req := (addOneReqIgnoreEos cfg C s.adder s.tree.tree s.req delayed).2.1 } := happ
    refine Balanced.iff_of_appended happ' (fun node => ?_) hrange
    rw [if_neg (by rw [hdis]; exact fun h => nomatch h.1), add_zero]

/-- A call of `add_one_req` admits the request at most once, leaves one lock on the last node of an
admitted request and none otherwise, and commits a right range, if and only if the ranges fit. -/
theorem addOneReq_balanced_iff (cfg : AdderConfig α N) (C : TreeCache T N R) (s : Admission α T N R)
    (delayed delayedAgain : Bool) (truncationAlignSize : Option Nat) :
    Balanced C cfg.pageSize s (addOneReq cfg C s delayed delayedAgain truncationAlignSize).1 ↔
      RangesFit cfg C s delayed delayedAgain truncationAlignSize := by
  have hsame : Balanced C cfg.pageSize s s := Balanced.of_same rfl fun _ => rfl
  unfold addOneReq RangesFit
  cases hpass : passRefuses cfg s.adder delayed with
  | true => exact iff_of_true hsame fun h => nomatch h
  | false =>
    rw [if_neg Bool.false_ne_true]
    cases hbypass : bypasses C s.req with
    | true =>
      have hdis : C.disable = true := (Bool.and_eq_true_iff.mp hbypass).2
      rw [if_pos rfl]
      refine (bypass_balanced_iff hdis delayedAgain).trans ⟨fun h _ =>
        ⟨fun _ => h, fun h => nomatch h⟩, ?_⟩
      intro h
      exact (h rfl).1 rfl
    | false =>
      rw [if_neg Bool.false_ne_true]
      cases hpools : poolsRefuse cfg C s.adder s.tree.tree s.req with
      | true => exact iff_of_true hsame fun _ => ⟨(fun h => nomatch h), fun _ h => nomatch h⟩
      | false =>
        rw [if_neg Bool.false_ne_true]
        cases hinput : inputRefuses s.adder
            (cfg.ceilPagedTokens (s.req.candExtendInputLen - s.req.hostHitLength)) with
        | true => exact iff_of_true hsame fun _ => ⟨(fun h => nomatch h), fun _ _ h => nomatch h⟩
        | false =>
          rw [if_neg Bool.false_ne_true]
          refine (lockNode_balanced_iff s truncationAlignSize).trans
            ⟨fun h _ => ⟨(fun h => nomatch h), fun _ _ _ => h⟩, fun h => (h rfl).2 rfl rfl rfl⟩

/-! ## Section 7: A chunk that is not whole pages -/

/-- Pages of 16 tokens, and a chunk budget of 64 tokens of which three are taken by decoding
requests. -/
def mixedConfig : AdderConfig Int Unit where
  pageSize := 16
  pageSize_pos := by decide
  newTokenRatio := 1
  runningReqs := none

def mixedAdmission : Admission Int Unit Unit Unit where
  adder := PrefillAdder.init mixedConfig 1000 (some 64) 3 none 0
  tree := ⟨(), []⟩
  req := { rid := 0, originInputLen := 100, outputLen := 0, fullLen := 100, prefixLen := 0,
           maxNewTokens := 5, ignoreEos := true, lastNode := (), bestMatchNode := () }

/-- The request is cut after 61 tokens, in the middle of a page. -/
theorem chunk_cut_inside_page :
    (addOneReq mixedConfig (chunkCache 1000) mixedAdmission false false none).1.req.extendRange =
        some ⟨0, 61⟩ ∧
      ¬Balanced (chunkCache 1000) mixedConfig.pageSize mixedAdmission
        (addOneReq mixedConfig (chunkCache 1000) mixedAdmission false false none).1 := by
  have hrange :
    (addOneReq mixedConfig (chunkCache 1000) mixedAdmission false false none).1.req.extendRange =
      some ⟨0, 61⟩ := by decide +kernel
  have happ : Appended mixedAdmission
      (addOneReq mixedConfig (chunkCache 1000) mixedAdmission false false none).1 := by
    unfold Appended
    decide +kernel
  refine ⟨hrange, fun h => ?_⟩
  obtain ⟨range, heq, hok⟩ := h.range happ
  rw [hrange] at heq
  cases heq
  have hfull :
      (addOneReq mixedConfig (chunkCache 1000) mixedAdmission false false none).1.req.fullLen =
      100 := by
    decide +kernel
  have hdvd := hok.aligned (by rw [hfull]; decide)
  exact absurd hdvd (by decide)

end Body

end Sglang.Managers.PrefillAdder
