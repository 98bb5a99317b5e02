import Mathlib.Data.List.SplitLengths
import Mathlib.Tactic

/-!
# Context-Parallel Zigzag Splits

Model of `layers/utils/cp_utils.py` for the zigzag (in-seq-split) mode: each sequence of a batch is
cut into `2 * cp_size` blocks, and rank `r` of the context-parallel group works on block `r` from
the front and block `r` from the back of every sequence.

- `prepareContextParallelMetadata`: the split plan of one rank, with its assertions,
- `cpSplitAndRebuildData`: the rows of a rank,
- `padToMax`, `cpAllGatherRerangeOutput`: what the ranks exchange, and how the whole is put together
  again.

## Conventions

- A tensor is the list of its rows, and the integer tensors of the metadata hold the lists they are
  made from.
- `is_dsa_enable_prefill_cp()` is the flag `nsaMode`. The round-robin mode is not modelled.
- The collective puts the inputs of the ranks one after the other.
- `none` stands for an exception.
-/

namespace Sglang.Layers

/-! ## Section 1: Metadata -/

structure ContextParallelMetadata where
  splitList : List Nat
  zigzagIndex : List Nat
  cpReverseIndex : List Nat
  reverseSplitLen : List Nat
  perRankActualToken : List Nat
  maxRankLen : List Nat
  kvLenPrevList : List Nat
  kvLenNextList : List Nat
  actualSeqQPrevList : List Nat
  actualSeqQNextList : List Nat
  cuSeqlensQPrev : List Nat
  cuSeqlensQNext : List Nat
  totalQPrevTokens : Nat
  totalQNextTokens : Nat
  maxSeqlenQPrev : Nat
  maxSeqlenQNext : Nat
  totalSeqLens : Nat
  bs : Nat

/-- `range(start, stop, step)` -/
def pyRange (start stop step : Nat) : List Nat :=
    List.range' start ((stop - start + step - 1) / step) step

/-- `range(start, stop, -step)` -/
def pyRangeDown (start stop step : Nat) : List Nat :=
  (List.range ((start - stop + step - 1) / step)).map fun k => start - k * step

/-- `max(xs) if xs else 0` -/
def maxOf (xs : List Nat) : Nat := xs.foldr max 0

/-- `xs[-1] += pad_len`, where there is padding. -/
def addToLast (padLen : Nat) (xs : List Nat) : Option (List Nat) :=
  if padLen > 0 then xs.getLast?.map fun last => xs.dropLast ++ [last + padLen] else some xs

/-- The block sizes of a sequence of `L` tokens. -/
def blockSizes (cpSegmentNum L : Nat) : List Nat :=
  let base := L / cpSegmentNum
  let rem := L % cpSegmentNum
  (List.range cpSegmentNum).map fun i => if i < rem then base + 1 else base

/-- `[0] + list(accumulate(lens))` -/
def cuSeqlens (lens : List Nat) : List Nat := lens.scanl (· + ·) 0

/-- The metadata of a batch with padded lengths and its prefix offsets. -/
def zigzagMetadata (nsaMode : Bool) (cpRank cpSize : Nat) (prefixOffsets extendSeqsLen : List Nat) :
    ContextParallelMetadata :=
  let bs := extendSeqsLen.length
  let cpSegmentNum := cpSize * 2
  let perSeqBlockSizes := extendSeqsLen.map (blockSizes cpSegmentNum)
  let blk := fun s i => (perSeqBlockSizes.getD s []).getD i 0
  let perRankActualToken := (List.range cpSize).map fun r =>
    ((List.range bs).map fun s => blk s r + blk s (cpSegmentNum - 1 - r)).sum
  let cumPrev := fun s => ((perSeqBlockSizes.getD s []).take (cpRank + 1)).sum
  let cumNext := fun s => ((perSeqBlockSizes.getD s []).take (cpSegmentNum - cpRank)).sum
  let kvLen := fun (cum : Nat → Nat) s => if nsaMode then cum s else prefixOffsets.getD s 0 + cum s
  let actualSeqQPrevList := (List.range bs).map fun s => blk s cpRank
  let actualSeqQNextList := (List.range bs).map fun s => blk s (cpSegmentNum - cpRank - 1)
  { splitList := perSeqBlockSizes.flatten
    zigzagIndex := pyRange cpRank (cpRank + bs * cpSegmentNum) cpSegmentNum ++
      pyRange (cpSegmentNum - cpRank - 1) (bs * cpSegmentNum) cpSegmentNum
    cpReverseIndex := (List.range bs).flatMap fun batchId =>
      pyRange batchId (cpSegmentNum * bs) (2 * bs) ++
        pyRangeDown ((cpSegmentNum - 1) * bs + batchId) 0 (2 * bs)
    reverseSplitLen := (List.range cpSize).flatMap fun r =>
      ((List.range bs).map fun s => blk s r) ++ (List.range bs).map fun s =>
        blk s (cpSegmentNum - 1 - r)
    perRankActualToken := perRankActualToken
    maxRankLen := List.replicate cpSize (maxOf perRankActualToken)
    kvLenPrevList := (List.range bs).map (kvLen cumPrev)
    kvLenNextList := (List.range bs).map (kvLen cumNext)
    actualSeqQPrevList := actualSeqQPrevList
    actualSeqQNextList := actualSeqQNextList
    cuSeqlensQPrev := cuSeqlens actualSeqQPrevList
    cuSeqlensQNext := cuSeqlens actualSeqQNextList
    totalQPrevTokens := (cuSeqlens actualSeqQPrevList).getLastD 0
    totalQNextTokens := (cuSeqlens actualSeqQNextList).getLastD 0
    maxSeqlenQPrev := maxOf actualSeqQPrevList
    maxSeqlenQNext := maxOf actualSeqQNextList
    totalSeqLens := extendSeqsLen.sum
    bs := bs }

/-- The assertions at the end of `prepare_context_parallel_metadata`. -/
def ContextParallelMetadata.IsPlan (m : ContextParallelMetadata) (cpSegmentNum : Nat) : Prop :=
  m.splitList.length = m.bs * cpSegmentNum ∧ m.splitList.sum = m.totalSeqLens ∧
    m.zigzagIndex.length = 2 * m.bs ∧ m.cpReverseIndex.length = m.bs * cpSegmentNum ∧
    m.cpReverseIndex.mergeSort = List.range (m.bs * cpSegmentNum) ∧
    m.perRankActualToken.sum = m.totalSeqLens

instance (m : ContextParallelMetadata) (cpSegmentNum : Nat) : Decidable (m.IsPlan cpSegmentNum) :=
  inferInstanceAs (Decidable (_ ∧ _ ∧ _ ∧ _ ∧ _ ∧ _))

def prepareContextParallelMetadata (nsaMode : Bool) (kvLen cpRank cpSize : Nat)
    (seqsLen : Option (List Nat)) (extendSeqsLen : List Nat) : Option ContextParallelMetadata := do
  let padLen := kvLen - extendSeqsLen.sum
  let padded ← addToLast padLen extendSeqsLen
  let bs := padded.length
  let prefixOffsets ← match seqsLen with
    | none => some (List.replicate bs 0)
    | some seqs =>
      if seqs.length = bs then do
        let seqs ← addToLast padLen seqs
        some ((List.range bs).map fun s => seqs.getD s 0 - padded.getD s 0)
      else some (List.replicate bs 0)
  let m := zigzagMetadata nsaMode cpRank cpSize prefixOffsets padded
  if m.IsPlan (cpSize * 2) then some m else none

/-! ## Section 2: Splitting and gathering -/

section Data

variable {α β : Type*}

/-- `torch.split`, which raises unless the sizes add up to the number of rows. -/
def torchSplit (sizes : List Nat) (rows : List α) : Option (List (List α)) :=
  if sizes.sum = rows.length then some (sizes.splitLengths rows) else none

/-- `torch.cat([pieces[i] for i in index])` -/
def catAt (pieces : List (List α)) (index : List Nat) : Option (List α) :=
  (index.mapM fun i => pieces[i]?).map List.flatten

def cpSplitAndRebuildData (m : ContextParallelMetadata) (input : List α) : Option (List α) := do
  let inputList ← torchSplit m.splitList input
  catAt inputList m.zigzagIndex

def padToMax (pad : α) (m : ContextParallelMetadata) (rows : List α) : List α :=
  rows ++ List.replicate (m.maxRankLen.headD 0 - rows.length) pad

/-- `cp_all_gather_reorganized_into_tensor` after the collective. -/
def cpAllGatherReorganized (m : ContextParallelMetadata) (full : List α) : Option (List α) := do
  let outputsListMax ← torchSplit m.maxRankLen full
  let parts ← m.perRankActualToken.zipIdx.mapM fun len =>
    outputsListMax[len.2]?.map (List.take len.1)
  some parts.flatten

def cpAllGatherRerangeOutput (m : ContextParallelMetadata) (full : List α) : Option (List α) := do
  let output ← cpAllGatherReorganized m full
  let outputsList ← torchSplit m.reverseSplitLen output
  catAt outputsList m.cpReverseIndex

def qPrev (m : ContextParallelMetadata) (q : List α) : List α := q.take m.totalQPrevTokens

def qNext (m : ContextParallelMetadata) (q : List α) : List α := q.drop m.totalQPrevTokens

end Data

end Sglang.Layers
