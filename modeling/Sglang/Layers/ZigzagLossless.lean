import Sglang.Layers.ContextParallel
import Sglang.Lib.Grid

/-!
# Zigzag Splits Lose Nothing

Every rank of a context-parallel group takes two blocks of each sequence, and the exchange of the
ranks puts the whole batch together again.

- `blockTokens`: a block of a sequence, in its place among the tokens of the batch,
- `prepareContextParallelMetadata_eq`: what the metadata of a rank say about its blocks,
- `zigzag_lossless_causal`: the metadata exist, the blocks of the ranks are a partition, what the
  ranks split they put together again, and causal attention on a block sees the cached prefix and
  the tokens up to the query.
-/

namespace Sglang.Layers

open List Option Function
open Lib

variable {α : Type*}

/-! ## Section 1: Blocks -/

/-- `xs` with `n` more in its last entry. -/
def padLast (n : Nat) (xs : List Nat) : List Nat := xs.dropLast ++ [xs.getLastD 0 + n]

/-- The lengths of the sequences, the last of which takes in the padding of the batch. -/
def paddedLens (kvLen : Nat) (extendLens : List Nat) : List Nat :=
    padLast (kvLen - extendLens.sum) extendLens

def blockSize (N L i : Nat) : Nat := if i < L % N then L / N + 1 else L / N

/-- Where a block starts in its sequence. -/
def blockStart (N L i : Nat) : Nat := ((List.range i).map (blockSize N L)).sum

/-- Block `i` of sequence `s`. -/
def blockTokens (N : Nat) (lens : List Nat) (xs : List α) (s i : Nat) : List α :=
  (xs.drop ((lens.take s).sum + blockStart N (lens.getD s 0) i)).take
    (blockSize N (lens.getD s 0) i)

/-- The tokens of sequence `s`. -/
def seqTokens (lens : List Nat) (xs : List α) (s : Nat) : List α :=
  (xs.drop (lens.take s).sum).take (lens.getD s 0)

theorem sum_blockSizes {N : Nat} (hN : 0 < N) (L : Nat) : (blockSizes N L).sum = L := by
  have hsum : ∀ n k b : Nat, ((List.range n).map fun i => if i < k then b + 1 else b).sum =
      n * b + min k n := by
    intro n k b
    induction n with
    | zero => simp
    | succ n ih =>
      rw [range_succ, map_append, sum_append, ih, map_singleton, sum_singleton, Nat.succ_mul]
      split <;> omega
  have hrem := (Nat.mod_lt L hN).le
  show ((List.range N).map fun i => if i < L % N then L / N + 1 else L / N).sum = L
  rw [hsum, Nat.min_eq_left hrem, Nat.div_add_mod]

theorem map_getD_range (lens : List Nat) : (List.range lens.length).map (lens.getD · 0) = lens := by
  refine ext_getElem (by simp) fun i hi hj => ?_
  simp [getD_eq_getElem?_getD, getElem?_eq_getElem hj]

theorem map_lens {β : Type*} (f : Nat → β) (lens : List Nat) :
    lens.map f = (List.range lens.length).map fun s => f (lens.getD s 0) := by
  conv_lhs => rw [← map_getD_range lens, List.map_map]
  rfl

section Blocks

variable {N : Nat} (hN : 0 < N) (lens : List Nat)

theorem getD_blockSizes {L i : Nat} (hi : i < N) : (blockSizes N L).getD i 0 = blockSize N L i :=
  getD_map_range hi 0

theorem perSeqBlockSizes_getD {s i : Nat} (hs : s < lens.length) (hi : i < N) :
    ((lens.map (blockSizes N)).getD s []).getD i 0 = blockSize N (lens.getD s 0) i := by
  rw [map_lens, getD_map_range hs, getD_blockSizes hi]

theorem flatten_blockSizes : (lens.map (blockSizes N)).flatten =
    grid lens.length N fun s i => blockSize N (lens.getD s 0) i := by
  rw [map_lens]
  rfl

include hN in
theorem sum_grid_blockSize {s : Nat} (hs : s ≤ lens.length) :
    (grid s N fun s i => blockSize N (lens.getD s 0) i).sum = (lens.take s).sum := by
  have htake : lens.take s = (List.range s).map (lens.getD · 0) := by
    conv_lhs => rw [← map_getD_range lens, ← map_take, take_range, Nat.min_eq_left hs]
  rw [grid, flatMap_def, sum_flatten, List.map_map, htake]
  congr 1
  exact map_congr_left fun s _ => sum_blockSizes hN _

include hN in
theorem splitLengths_blockSizes {xs : List α} :
    ((lens.map (blockSizes N)).flatten).splitLengths xs = grid lens.length N
    (blockTokens N lens xs) := by
  rw [flatten_blockSizes]
  refine eq_grid (by rw [length_splitLengths, length_grid]) fun s hs i hi => ?_
  rw [getElem?_splitLengths (getElem?_grid hs hi), grid, take_rows (fun k _ => by simp) hs hi.le,
    sum_append, ← grid, sum_grid_blockSize hN lens hs.le, ← map_take, take_range,
    Nat.min_eq_left hi.le]
  rfl

end Blocks

/-! ## Section 2: Indices -/

section Indices

/-- The block of a rank in the front half (`h = 0`) and in the back half. -/
def side (N r h : Nat) : Nat := if h = 0 then r else N - 1 - r

/-- Where block `i` of sequence `b` is among the gathered blocks. -/
def gatheredAt (cpSize bs b i : Nat) : Nat :=
  if i < cpSize then i * (2 * bs) + b else (cpSize * 2 - 1 - i) * (2 * bs) + (bs + b)

variable {cpSize bs r b : Nat}

theorem pyRange_eq (start stop step n : Nat) (hlo : n * step ≤ stop - start + step - 1)
    (hhi : stop - start + step - 1 < (n + 1) * step) :
    pyRange start stop step = (List.range n).map fun k => k * step + start := by
  rw [pyRange, Nat.div_eq_of_lt_le hlo hhi]
  refine ext_getElem (by simp) fun i hi hj => ?_
  simp only [getElem_range', getElem_map, getElem_range]
  rw [Nat.mul_comm, Nat.add_comm]

theorem zigzagIndex_eq (hr : r < cpSize) (hbs : 0 < bs) :
    pyRange r (r + bs * (cpSize * 2)) (cpSize * 2) ++
        pyRange (cpSize * 2 - r - 1) (bs * (cpSize * 2)) (cpSize * 2) =
      grid 2 bs fun h s => s * (cpSize * 2) + side (cpSize * 2) r h := by
  have hle : cpSize * 2 ≤ bs * (cpSize * 2) := Nat.le_mul_of_pos_left _ hbs
  have hfront :=
    pyRange_eq r (r + bs * (cpSize * 2)) (cpSize * 2) bs (by omega) (by rw [Nat.add_mul]; omega)
  have hback := pyRange_eq (cpSize * 2 - r - 1) (bs * (cpSize * 2)) (cpSize * 2) bs (by omega)
    (by rw [Nat.add_mul]; omega)
  rw [hfront, hback, show cpSize * 2 - r - 1 = cpSize * 2 - 1 - r by omega, grid_two]
  rfl

theorem cpReverseRow_eq (hcp : 0 < cpSize) (hb : b < bs) :
    pyRange b (cpSize * 2 * bs) (2 * bs) ++ pyRangeDown ((cpSize * 2 - 1) * bs + b) 0 (2 * bs) =
      (List.range (cpSize * 2)).map (gatheredAt cpSize bs b) := by
  have hmul : cpSize * 2 * bs = cpSize * (2 * bs) := Nat.mul_assoc ..
  have hle : 2 * bs ≤ cpSize * (2 * bs) := Nat.le_mul_of_pos_left _ hcp
  have hfront : pyRange b (cpSize * 2 * bs) (2 * bs) = (List.range cpSize).map fun i =>
    i * (2 * bs) + b :=
    pyRange_eq _ _ _ _ (by omega) (by rw [Nat.add_mul]; omega)
  have hcount : ((cpSize * 2 - 1) * bs + b - 0 + 2 * bs - 1) / (2 * bs) = cpSize := by
    have hsub : (cpSize * 2 - 1) * bs = cpSize * (2 * bs) - bs := by
      rw [Nat.sub_mul, hmul, Nat.one_mul]
    exact Nat.div_eq_of_lt_le (by omega) (by rw [Nat.add_mul]; omega)
  have hback : pyRangeDown ((cpSize * 2 - 1) * bs + b) 0 (2 * bs) =
      (List.range cpSize).map fun k => (cpSize - 1 - k) * (2 * bs) + (bs + b) := by
    rw [pyRangeDown, hcount]
    refine map_congr_left fun k hk => ?_
    obtain ⟨d, rfl⟩ := Nat.exists_eq_add_of_lt (mem_range.mp hk)
    have hodd : (k + d + 1) * 2 - 1 = 2 * k + 2 * d + 1 := by omega
    have hsplit : (2 * k + 2 * d + 1) * bs + b = k * (2 * bs) + (d * (2 * bs) + (bs + b)) := by ring
    rw [hodd, hsplit, Nat.add_sub_cancel_left, show k + d + 1 - 1 - k = d by omega]
  rw [hfront, hback, Nat.mul_two, range_add, map_append, List.map_map]
  congr 1
  · refine map_congr_left fun i hi => ?_
    rw [gatheredAt, if_pos (mem_range.mp hi)]
  · refine map_congr_left fun k hk => ?_
    have hlt := mem_range.mp hk
    rw [comp_apply, gatheredAt, if_neg (by omega), show cpSize * 2 - 1 - (cpSize + k) =
      cpSize - 1 - k by omega]

theorem zigzag_perm : ((List.range cpSize).flatMap fun r =>
    grid 2 bs fun h s => s * (cpSize * 2) + side (cpSize * 2) r h).Perm
    (List.range (bs * (cpSize * 2))) := by
  refine perm_range ?_ fun k hk => ?_
  · rw [length_rows (m := 2 * bs) fun _ _ => length_grid]
    exact Nat.le_of_eq (by ring)
  · obtain ⟨s, i, hs, hi, rfl⟩ := exists_row_column hk
    rw [mem_flatMap]
    have hmem : ∀ h < 2, ∀ r, s * (cpSize * 2) + side (cpSize * 2) r h ∈
        grid 2 bs fun h s => s * (cpSize * 2) + side (cpSize * 2) r h := by
      intro h hh r
      exact mem_of_getElem? (getElem?_grid hh hs)
    by_cases hlt : i < cpSize
    · exact ⟨i, mem_range.mpr hlt, hmem 0 (by omega) i⟩
    · refine ⟨cpSize * 2 - 1 - i, mem_range.mpr (by omega), ?_⟩
      have hback := hmem 1 (by omega) (cpSize * 2 - 1 - i)
      rwa [show side (cpSize * 2) (cpSize * 2 - 1 - i) 1 = i by simp [side]; omega] at hback

theorem reverse_perm :
    (grid bs (cpSize * 2) (gatheredAt cpSize bs)).Perm (List.range (bs * (cpSize * 2))) := by
  refine perm_range (by rw [length_grid]) fun k hk => ?_
  have hk' : k < cpSize * (2 * bs) := by rwa [show cpSize * (2 * bs) = bs * (cpSize * 2) by ring]
  obtain ⟨q, t, hq, ht, rfl⟩ := exists_row_column hk'
  by_cases hlt : t < bs
  · have hget := getElem?_grid (f := gatheredAt cpSize bs) hlt (show q < cpSize * 2 by omega)
    rw [gatheredAt, if_pos hq] at hget
    exact mem_of_getElem? hget
  · have hget := getElem?_grid (f := gatheredAt cpSize bs) (show t - bs < bs by omega)
      (show cpSize * 2 - 1 - q < cpSize * 2 by omega)
    rw [gatheredAt, if_neg (by omega), show cpSize * 2 - 1 - (cpSize * 2 - 1 - q) = q by omega,
      show bs + (t - bs) = t by omega] at hget
    exact mem_of_getElem? hget

end Indices

/-! ## Section 3: The metadata of a rank -/

/-- The sizes of the blocks of rank `r`, those of the front half first. -/
def rankSizes (cpSize : Nat) (lens : List Nat) (r : Nat) : List Nat :=
  grid 2 lens.length fun h s => blockSize (cpSize * 2) (lens.getD s 0) (side (cpSize * 2) r h)

/-- The blocks of rank `r`. -/
def rankBlocks (cpSize : Nat) (lens : List Nat) (xs : List α) (r : Nat) : List (List α) :=
  grid 2 lens.length fun h s => blockTokens (cpSize * 2) lens xs s (side (cpSize * 2) r h)

section Metadata

variable {nsaMode : Bool} {cpSize r : Nat} {offsets lens : List Nat} {xs : List α}

theorem side_lt (hr : r < cpSize) (h : Nat) : side (cpSize * 2) r h < cpSize * 2 := by
  unfold side
  split <;> omega

theorem getD_row (hr : r < cpSize) (h : Nat) : ((List.range lens.length).map fun s =>
      ((lens.map (blockSizes (cpSize * 2))).getD s []).getD (side (cpSize * 2) r h) 0) =
    (List.range lens.length).map fun s => blockSize (cpSize * 2) (lens.getD s 0)
    (side (cpSize * 2) r h) := by
  refine map_congr_left fun s hs => ?_
  exact perSeqBlockSizes_getD lens (mem_range.mp hs) (side_lt hr h)

theorem metadata_zigzagIndex (hr : r < cpSize) (hne : lens ≠ []) :
    (zigzagMetadata nsaMode r cpSize offsets lens).zigzagIndex =
      grid 2 lens.length fun h s => s * (cpSize * 2) + side (cpSize * 2) r h :=
  zigzagIndex_eq hr (length_pos_iff.mpr hne)

theorem metadata_cpReverseIndex (hcp : 0 < cpSize) :
    (zigzagMetadata nsaMode r cpSize offsets lens).cpReverseIndex =
      grid lens.length (cpSize * 2) (gatheredAt cpSize lens.length) :=
  flatMap_congr fun _ hb => cpReverseRow_eq hcp (mem_range.mp hb)

theorem metadata_reverseSplitLen :
    (zigzagMetadata nsaMode r cpSize offsets lens).reverseSplitLen =
      (List.range cpSize).flatMap (rankSizes cpSize lens) := by
  refine flatMap_congr fun q hq => ?_
  have hlt := mem_range.mp hq
  rw [rankSizes, grid_two, ← getD_row hlt, ← getD_row hlt]
  rfl

theorem metadata_perRankActualToken :
    (zigzagMetadata nsaMode r cpSize offsets lens).perRankActualToken =
      (List.range cpSize).map fun q => (rankSizes cpSize lens q).sum := by
  refine map_congr_left fun q hq => ?_
  have hlt := mem_range.mp hq
  rw [rankSizes, grid_two, ← getD_row hlt, ← getD_row hlt, sum_append, sum_map_add]
  rfl

theorem le_maxOf {x : Nat} {l : List Nat} (h : x ∈ l) : x ≤ maxOf l := le_max_of_le' 0 h le_rfl

theorem metadata_maxRankLen : ∃ M,
    (zigzagMetadata nsaMode r cpSize offsets lens).maxRankLen = List.replicate cpSize M ∧
    ∀ q < cpSize, (rankSizes cpSize lens q).sum ≤ M := by
  refine ⟨_, rfl, fun q hq => le_maxOf ?_⟩
  show _ ∈ (zigzagMetadata nsaMode r cpSize offsets lens).perRankActualToken
  rw [metadata_perRankActualToken]
  exact List.mem_map_of_mem (mem_range.mpr hq)

theorem rankSizes_eq (hr : r < cpSize) : rankSizes cpSize lens r =
    (grid 2 lens.length fun h s => s * (cpSize * 2) + side (cpSize * 2) r h).map
      ((lens.map (blockSizes (cpSize * 2))).flatten.getD · 0) := by
  rw [map_grid]
  refine grid_congr fun h _ s hs => ?_
  rw [flatten_blockSizes, getD_grid hs (side_lt hr h)]

theorem sum_perRank :
    ((List.range cpSize).map fun q => (rankSizes cpSize lens q).sum).sum =
      (lens.map (blockSizes (cpSize * 2))).flatten.sum := by
  have hflat : ((List.range cpSize).map fun q => (rankSizes cpSize lens q).sum).sum =
      ((List.range cpSize).flatMap (rankSizes cpSize lens)).sum := by
    rw [flatMap_def, sum_flatten, List.map_map]
    rfl
  have hindex : (List.range cpSize).flatMap (rankSizes cpSize lens) =
      ((List.range cpSize).flatMap fun q => grid 2 lens.length fun h s =>
        s * (cpSize * 2) + side (cpSize * 2) q h).map
        ((lens.map (blockSizes (cpSize * 2))).flatten.getD · 0) := by
    rw [map_flatMap]
    exact flatMap_congr fun q hq => rankSizes_eq (mem_range.mp hq)
  have hlen : lens.length * (cpSize * 2) = (lens.map (blockSizes (cpSize * 2))).flatten.length := by
    rw [flatten_blockSizes, length_grid]
  rw [hflat, hindex, (zigzag_perm.map _).sum_eq, hlen, map_getD_range]

theorem mergeSort_of_perm {l : List Nat} {n : Nat} (h : l.Perm (List.range n)) :
    l.mergeSort = List.range n :=
  List.Perm.eq_of_sortedLE sortedLE_mergeSort (sortedLT_range n).sortedLE
    ((mergeSort_perm l _).trans h)

theorem metadata_isPlan (hr : r < cpSize) (hne : lens ≠ []) :
    (zigzagMetadata nsaMode r cpSize offsets lens).IsPlan (cpSize * 2) := by
  have hcp : 0 < cpSize := Nat.zero_lt_of_lt hr
  have hsum : (lens.map (blockSizes (cpSize * 2))).flatten.sum = lens.sum := by
    rw [flatten_blockSizes, sum_grid_blockSize (by omega) lens le_rfl, take_length]
  refine ⟨?_, hsum, ?_, ?_, ?_, ?_⟩
  · show (lens.map (blockSizes (cpSize * 2))).flatten.length = _
    rw [flatten_blockSizes, length_grid]
    rfl
  · rw [metadata_zigzagIndex hr hne, length_grid]
    rfl
  · rw [metadata_cpReverseIndex hcp, length_grid]
    rfl
  · rw [metadata_cpReverseIndex hcp]
    exact mergeSort_of_perm reverse_perm
  · rw [metadata_perRankActualToken, sum_perRank]
    exact hsum

end Metadata

/-! ## Section 4: There and back -/

section Exchange

theorem torchSplit_flatten (ls : List (List α)) :
    torchSplit (ls.map List.length) ls.flatten = some ls := by
  rw [torchSplit, if_pos length_flatten.symm, splitLengths_flatten]

theorem catAt_grid {pieces : List (List α)} {n m : Nat} {index : Nat → Nat → Nat}
    {g : Nat → Nat → List α} (h : ∀ i < n, ∀ j < m, pieces[index i j]? = some (g i j)) :
    catAt pieces (grid n m index) = some (grid n m g).flatten := by
  rw [catAt, mapM_grid h]
  rfl

variable {nsaMode : Bool} {cpSize r : Nat} {offsets lens : List Nat} {xs : List α}

theorem sum_split (hcp : 0 < cpSize) :
    ((lens.map (blockSizes (cpSize * 2))).flatten).sum = lens.sum := by
  rw [flatten_blockSizes, sum_grid_blockSize (by omega) lens le_rfl, take_length]

theorem torchSplit_blocks (hcp : 0 < cpSize) (hlen : xs.length = lens.sum) :
    torchSplit (lens.map (blockSizes (cpSize * 2))).flatten xs =
      some (grid lens.length (cpSize * 2) (blockTokens (cpSize * 2) lens xs)) := by
  rw [torchSplit, if_pos (by rw [sum_split hcp, hlen]), splitLengths_blockSizes (by omega)]

theorem flatten_blocks (hcp : 0 < cpSize) (hlen : xs.length = lens.sum) :
    (grid lens.length (cpSize * 2) (blockTokens (cpSize * 2) lens xs)).flatten = xs := by
  rw [← splitLengths_blockSizes (by omega), flatten_splitLengths]
  rw [sum_split hcp, hlen]

theorem length_blockTokens (hlen : xs.length = lens.sum) {s i : Nat} (hs : s < lens.length)
    (hi : i < cpSize * 2) :
    (blockTokens (cpSize * 2) lens xs s i).length = blockSize (cpSize * 2) (lens.getD s 0) i := by
  have hcp : 0 < cpSize := by omega
  have hmap := map_splitLengths_length xs (lens.map (blockSizes (cpSize * 2))).flatten
    (by rw [sum_split hcp, hlen])
  rw [splitLengths_blockSizes (by omega), flatten_blockSizes, map_grid] at hmap
  have hget := congrArg (fun l => l.getD (s * (cpSize * 2) + i) 0) hmap
  simpa only [getD_grid hs hi] using hget

theorem length_rankBlocks (q : Nat) : (rankBlocks cpSize lens xs q).length = 2 * lens.length :=
    length_grid

theorem map_length_rankBlocks (hlen : xs.length = lens.sum) (hr : r < cpSize) :
    (rankBlocks cpSize lens xs r).map List.length = rankSizes cpSize lens r := by
  rw [rankBlocks, map_grid]
  exact grid_congr fun h _ s hs => length_blockTokens hlen hs (side_lt hr h)

theorem cpSplitAndRebuildData_eq (hr : r < cpSize) (hne : lens ≠ []) (hlen : xs.length = lens.sum) :
    cpSplitAndRebuildData (zigzagMetadata nsaMode r cpSize offsets lens) xs =
      some (rankBlocks cpSize lens xs r).flatten := by
  have hsplit : torchSplit (zigzagMetadata nsaMode r cpSize offsets lens).splitList xs =
      some (grid lens.length (cpSize * 2) (blockTokens (cpSize * 2) lens xs)) :=
    torchSplit_blocks (Nat.zero_lt_of_lt hr) hlen
  rw [cpSplitAndRebuildData, hsplit, metadata_zigzagIndex hr hne]
  exact catAt_grid fun h _ s hs => getElem?_grid hs (side_lt hr h)

/-- What the collective leaves on every rank. -/
def gathered (pad : α) (cpSize : Nat) (metas : Nat → ContextParallelMetadata)
    (rows : Nat → List α) : List α :=
  (List.range cpSize).flatMap fun q => padToMax pad (metas q) (rows q)

/-- Without the padding, the rows of the ranks follow each other. -/
theorem cpAllGatherReorganized_eq (pad : α) (hlen : xs.length = lens.sum) :
    cpAllGatherReorganized (zigzagMetadata nsaMode r cpSize offsets lens)
        (gathered pad cpSize (fun q => zigzagMetadata nsaMode q cpSize offsets lens)
          fun q => (rankBlocks cpSize lens xs q).flatten) =
      some ((List.range cpSize).flatMap (rankBlocks cpSize lens xs)).flatten := by
  obtain ⟨M, hM, hle⟩ := @metadata_maxRankLen nsaMode cpSize r offsets lens
  have hrows : ∀ q < cpSize, (rankBlocks cpSize lens xs q).flatten.length =
      (rankSizes cpSize lens q).sum := by
    intro q hq
    rw [length_flatten, map_length_rankBlocks hlen hq]
  -- every rank pads its rows to the longest rank, and the padding is cut off again
  have hpadded : ∀ q < cpSize, padToMax pad (zigzagMetadata nsaMode q cpSize offsets lens)
      (rankBlocks cpSize lens xs q).flatten = (rankBlocks cpSize lens xs q).flatten ++
        List.replicate (M - (rankSizes cpSize lens q).sum) pad := by
    intro q hq
    have hMq : (zigzagMetadata nsaMode q cpSize offsets lens).maxRankLen =
      List.replicate cpSize M := hM
    obtain ⟨c, rfl⟩ := Nat.exists_eq_succ_of_ne_zero (Nat.ne_of_gt (Nat.zero_lt_of_lt hq))
    rw [padToMax, hMq, hrows q hq]
    rfl
  have hsplit : torchSplit (List.replicate cpSize M) (gathered pad cpSize
      (fun q => zigzagMetadata nsaMode q cpSize offsets lens) fun q =>
        (rankBlocks cpSize lens xs q).flatten) =
      some ((List.range cpSize).map fun q => (rankBlocks cpSize lens xs q).flatten ++
        List.replicate (M - (rankSizes cpSize lens q).sum) pad) := by
    have hsizes : List.replicate cpSize M = ((List.range cpSize).map fun q =>
        (rankBlocks cpSize lens xs q).flatten ++
          List.replicate (M - (rankSizes cpSize lens q).sum) pad).map
          List.length := by
      rw [List.map_map]
      refine (eq_replicate_iff.mpr ⟨by simp, fun n hn => ?_⟩).symm
      obtain ⟨q, hq, rfl⟩ := List.mem_map.mp hn
      have hlt := mem_range.mp hq
      have hqM := hle q hlt
      simp only [comp_apply, length_append, length_replicate, hrows q hlt]
      omega
    rw [gathered, flatMap_def, map_congr_left fun q hq => hpadded q (mem_range.mp hq), hsizes,
      torchSplit_flatten]
  have hzip : ((List.range cpSize).map fun q => (rankSizes cpSize lens q).sum).zipIdx =
      (List.range cpSize).map fun q => ((rankSizes cpSize lens q).sum, q) := by
    refine ext_getElem (by simp) fun i hi hj => ?_
    simp
  rw [cpAllGatherReorganized, hM, hsplit, metadata_perRankActualToken, hzip]
  have hparts : ((List.range cpSize).map fun q => ((rankSizes cpSize lens q).sum, q)).mapM
      (fun len => ((List.range cpSize).map fun q => (rankBlocks cpSize lens xs q).flatten ++
        List.replicate (M - (rankSizes cpSize lens q).sum) pad)[len.2]?.map (List.take len.1)) =
      some ((List.range cpSize).map fun q => (rankBlocks cpSize lens xs q).flatten) := by
    rw [mapM_map]
    refine mapM_eq_map fun q hq => ?_
    have hlt := mem_range.mp hq
    rw [comp_apply]
    simp only [getElem?_map, getElem?_range hlt, map_some]
    rw [← hrows q hlt, take_left]
  show Option.bind (some _) _ = _
  rw [bind_some, hparts, flatMap_def, flatten_flatten, List.map_map]
  rfl

theorem cpAllGatherRerangeOutput_eq (pad : α) (hcp : 0 < cpSize) (hlen : xs.length = lens.sum) :
    cpAllGatherRerangeOutput (zigzagMetadata nsaMode r cpSize offsets lens)
        (gathered pad cpSize (fun q => zigzagMetadata nsaMode q cpSize offsets lens)
          fun q => (rankBlocks cpSize lens xs q).flatten) = some xs := by
  have hsizes : (List.range cpSize).flatMap (rankSizes cpSize lens) =
      ((List.range cpSize).flatMap (rankBlocks cpSize lens xs)).map List.length := by
    rw [map_flatMap]
    exact flatMap_congr fun q hq => (map_length_rankBlocks hlen (mem_range.mp hq)).symm
  rw [cpAllGatherRerangeOutput, cpAllGatherReorganized_eq pad hlen, metadata_reverseSplitLen,
    metadata_cpReverseIndex hcp, hsizes]
  show Option.bind (torchSplit _ _) _ = _
  rw [torchSplit_flatten, bind_some]
  have hget : ∀ b < lens.length, ∀ q < cpSize, ∀ h < 2,
    ((List.range cpSize).flatMap (rankBlocks cpSize lens xs))[
      q * (2 * lens.length) + (h * lens.length + b)]? =
        some (blockTokens (cpSize * 2) lens xs b (side (cpSize * 2) q h)) := by
    intro b hb q hq h hh
    have hle : h * lens.length ≤ 1 * lens.length := Nat.mul_le_mul_right _ (by omega)
    rw [getElem?_rows (fun k _ => length_rankBlocks k) hq (by omega), rankBlocks,
      getElem?_grid hh hb]
  have hcat : catAt ((List.range cpSize).flatMap (rankBlocks cpSize lens xs))
      (grid lens.length (cpSize * 2) (gatheredAt cpSize lens.length)) =
        some (grid lens.length (cpSize * 2) (blockTokens (cpSize * 2) lens xs)).flatten := by
    refine catAt_grid fun b hb i hi => ?_
    unfold gatheredAt
    split
    · next hlt => simpa [side] using hget b hb i hlt 0 (by omega)
    · next hge =>
      have hback := hget b hb (cpSize * 2 - 1 - i) (by omega) 1 (by omega)
      rw [Nat.one_mul] at hback
      rw [hback, side, if_neg Nat.one_ne_zero, show cpSize * 2 - 1 - (cpSize * 2 - 1 - i) =
        i by omega]
  rw [hcat, flatten_blocks hcp hlen]

end Exchange

/-! ## Section 5: The halves of a rank -/

/-- `rows` are block `i` of each sequence, as delimited by `cu`. -/
structure HalfRows (N : Nat) (lens : List Nat) (xs rows : List α) (cu : List Nat) (i : Nat) :
    Prop where
  first : cu[0]? = some 0
  last : cu[lens.length]? = some rows.length
  block : ∀ s < lens.length, ∃ a b, cu[s]? = some a ∧ cu[s + 1]? = some b ∧
    (rows.take b).drop a = blockTokens N lens xs s i

/-- The keys that query `j` of `qLen` sees under causal attention that is aligned at the bottom
right: the last query sees all `kvLen` keys. -/
def causalKeys {κ : Type*} (keys : List κ) (kvLen qLen j : Nat) : List κ :=
    (keys.take kvLen).take (kvLen - qLen + j + 1)

/-- Block `i` of each sequence attends causally: its `kvLen` ends with the block, so that each of
its queries sees the cached prefix and the tokens that are not after it. -/
structure SeesPast (N : Nat) (lens prefixLens : List Nat) (xs : List α) (kvLens qLens : List Nat)
    (i : Nat) : Prop where
  kvLen : ∀ s < lens.length,
    kvLens[s]? = some (prefixLens.getD s 0 + blockStart N (lens.getD s 0) (i + 1))
  keys : ∀ s < lens.length, ∀ cached : List α, cached.length = prefixLens.getD s 0 →
    ∀ j < blockSize N (lens.getD s 0) i,
      causalKeys (cached ++ seqTokens lens xs s) (kvLens.getD s 0) (qLens.getD s 0) j =
        cached ++ (seqTokens lens xs s).take (blockStart N (lens.getD s 0) i + j + 1)

section Halves

variable {nsaMode : Bool} {cpSize r : Nat} {offsets lens : List Nat} {xs : List α}

theorem halfRows_of_blocks (hlen : xs.length = lens.sum) {i : Nat} (hi : i < cpSize * 2) :
    HalfRows (cpSize * 2) lens xs
    ((List.range lens.length).map fun s => blockTokens (cpSize * 2) lens xs s i).flatten
      (cuSeqlens
        ((List.range lens.length).map fun s => blockSize (cpSize * 2) (lens.getD s 0) i)) i := by
  have hsizes : ((List.range lens.length).map fun s => blockSize (cpSize * 2) (lens.getD s 0) i) =
      ((List.range lens.length).map fun s => blockTokens (cpSize * 2) lens xs s i).map
      List.length := by
    rw [List.map_map]
    exact map_congr_left fun s hs => (length_blockTokens hlen (mem_range.mp hs) hi).symm
  have hcu : ∀ s ≤ lens.length, (cuSeqlens ((List.range lens.length).map fun s =>
      blockSize (cpSize * 2) (lens.getD s 0) i))[s]? = some ((((List.range lens.length).map fun s =>
        blockTokens (cpSize * 2) lens xs s i).map List.length).take s).sum := by
    intro s hs
    rw [cuSeqlens, hsizes, getElem?_scanl_add _ _ (by simpa using hs), Nat.zero_add]
  refine ⟨by rw [hcu 0 (Nat.zero_le _)]; rfl, ?_,
    fun s hs => ⟨_, _, hcu s hs.le, hcu (s + 1) hs, ?_⟩⟩
  · rw [hcu _ le_rfl, length_flatten, take_of_length_le (by simp)]
  · refine slice_flatten ?_
    rw [getElem?_map, getElem?_range hs]
    rfl

theorem blockStart_succ (N L i : Nat) : blockStart N L
    (i + 1) = blockStart N L i + blockSize N L i := by
  rw [blockStart, range_succ, map_append, sum_append, map_singleton, sum_singleton]
  rfl

theorem seesPast_of_blocks {prefixLens : List Nat} {i : Nat} :
    SeesPast (cpSize * 2) lens prefixLens xs
      ((List.range lens.length).map fun s =>
        prefixLens.getD s 0 + blockStart (cpSize * 2) (lens.getD s 0) (i + 1))
      ((List.range lens.length).map fun s => blockSize (cpSize * 2) (lens.getD s 0) i) i := by
  refine ⟨fun s hs => ?_, fun s hs cached hcached j hj => ?_⟩
  · rw [getElem?_map, getElem?_range hs]
    rfl
  · rw [getD_map_range hs, getD_map_range hs, causalKeys, blockStart_succ, take_take, ← hcached]
    have hlast : min
      (cached.length +
        (blockStart (cpSize * 2) (lens.getD s 0) i + blockSize (cpSize * 2) (lens.getD s 0) i) -
        blockSize (cpSize * 2) (lens.getD s 0) i + j +
        1) (cached.length + (blockStart (cpSize * 2) (lens.getD s 0) i +
          blockSize (cpSize * 2) (lens.getD s 0) i)) =
          cached.length + (blockStart (cpSize * 2) (lens.getD s 0) i + j + 1) := by
      omega
    rw [hlast, take_length_add_append]

theorem sum_take_blockSizes {s i : Nat} (hs : s < lens.length) (hi : i ≤ cpSize * 2) :
    (((lens.map (blockSizes (cpSize * 2))).getD s []).take i).sum = blockStart (cpSize * 2)
    (lens.getD s 0) i := by
  rw [map_lens, getD_map_range hs, blockSizes, ← map_take, take_range, Nat.min_eq_left hi]
  rfl

theorem getLastD_cuSeqlens (l : List Nat) : (cuSeqlens l).getLastD 0 = l.sum := by
  have hlen : (cuSeqlens l).length = l.length + 1 := length_scanl ..
  have hget : (cuSeqlens l)[l.length]? = some l.sum := by
    rw [cuSeqlens, getElem?_scanl_add l 0 le_rfl, take_length, Nat.zero_add]
  rw [getLastD_eq_getLast?, getLast?_eq_getElem?, hlen, Nat.add_sub_cancel, hget]
  rfl

/-- What a rank holds: the front blocks of the sequences, then the back blocks, each with its
metadata. -/
structure RankLayout (nsaMode : Bool) (cpSize : Nat) (lens prefixLens : List Nat) (xs : List α)
    (r : Nat)
    (m : ContextParallelMetadata) (rows : List α) : Prop where
  front : HalfRows (cpSize * 2) lens xs (qPrev m rows) m.cuSeqlensQPrev r
  back : HalfRows (cpSize * 2) lens xs (qNext m rows) m.cuSeqlensQNext (cpSize * 2 - 1 - r)
  frontPast : nsaMode = false →
    SeesPast (cpSize * 2) lens prefixLens xs m.kvLenPrevList m.actualSeqQPrevList r
  backPast : nsaMode = false →
    SeesPast (cpSize * 2) lens prefixLens xs m.kvLenNextList m.actualSeqQNextList
    (cpSize * 2 - 1 - r)

theorem metadata_actualSeqQPrev (hr : r < cpSize) :
    (zigzagMetadata nsaMode r cpSize offsets lens).actualSeqQPrevList =
      (List.range lens.length).map fun s => blockSize (cpSize * 2) (lens.getD s 0) r :=
  getD_row hr 0

theorem metadata_actualSeqQNext (hr : r < cpSize) :
    (zigzagMetadata nsaMode r cpSize offsets lens).actualSeqQNextList =
      (List.range lens.length).map fun s => blockSize (cpSize * 2) (lens.getD s 0)
      (cpSize * 2 - 1 - r) := by
  have hback := @getD_row cpSize r lens hr 1
  rw [show side (cpSize * 2) r 1 = cpSize * 2 - 1 - r from rfl] at hback
  rw [← hback, show cpSize * 2 - 1 - r = cpSize * 2 - r - 1 by omega]
  rfl

theorem metadata_kvLenPrev (hr : r < cpSize) :
    (zigzagMetadata false r cpSize offsets lens).kvLenPrevList =
      (List.range lens.length).map fun s => offsets.getD s 0 + blockStart (cpSize * 2)
      (lens.getD s 0) (r + 1) := by
  refine map_congr_left fun s hs => ?_
  rw [← sum_take_blockSizes (mem_range.mp hs) (by omega)]
  rfl

theorem metadata_kvLenNext (hr : r < cpSize) :
    (zigzagMetadata false r cpSize offsets lens).kvLenNextList =
      (List.range lens.length).map fun s =>
      offsets.getD s 0 + blockStart (cpSize * 2) (lens.getD s 0) (cpSize * 2 - 1 - r + 1) := by
  refine map_congr_left fun s hs => ?_
  rw [← sum_take_blockSizes (mem_range.mp hs) (by omega),
    show cpSize * 2 - 1 - r + 1 = cpSize * 2 - r by omega]
  rfl

theorem rankLayout (hr : r < cpSize) (hlen : xs.length = lens.sum) :
    RankLayout nsaMode cpSize lens offsets xs r (zigzagMetadata nsaMode r cpSize offsets lens)
      (rankBlocks cpSize lens xs r).flatten := by
  have hprev : (zigzagMetadata nsaMode r cpSize offsets lens).cuSeqlensQPrev =
      cuSeqlens ((List.range lens.length).map fun s => blockSize (cpSize * 2) (lens.getD s 0) r) :=
    congrArg cuSeqlens (@metadata_actualSeqQPrev nsaMode cpSize r offsets lens hr)
  have hnext : (zigzagMetadata nsaMode r cpSize offsets lens).cuSeqlensQNext =
      cuSeqlens ((List.range lens.length).map fun s =>
        blockSize (cpSize * 2) (lens.getD s 0) (cpSize * 2 - 1 - r)) :=
    congrArg cuSeqlens (@metadata_actualSeqQNext nsaMode cpSize r offsets lens hr)
  have hrows : (rankBlocks cpSize lens xs r).flatten =
      ((List.range lens.length).map fun s => blockTokens (cpSize * 2) lens xs s r).flatten ++
        ((List.range lens.length).map fun s =>
          blockTokens (cpSize * 2) lens xs s (cpSize * 2 - 1 - r)).flatten := by
    rw [rankBlocks, grid_two, flatten_append]
    rfl
  have htotal : (zigzagMetadata nsaMode r cpSize offsets lens).totalQPrevTokens =
      ((List.range lens.length).map
        fun s => blockTokens (cpSize * 2) lens xs s r).flatten.length := by
    have hsum : (zigzagMetadata nsaMode r cpSize offsets lens).totalQPrevTokens =
        (zigzagMetadata nsaMode r cpSize offsets lens).actualSeqQPrevList.sum :=
          getLastD_cuSeqlens _
    rw [hsum, metadata_actualSeqQPrev hr, length_flatten, List.map_map]
    congr 1
    exact map_congr_left fun s hs => (length_blockTokens hlen (mem_range.mp hs) (by omega)).symm
  refine ⟨?_, ?_, ?_, ?_⟩
  · rw [qPrev, hrows, htotal, take_left, hprev]
    exact halfRows_of_blocks hlen (by omega)
  · rw [qNext, hrows, htotal, drop_left, hnext]
    exact halfRows_of_blocks hlen (by omega)
  · rintro rfl
    rw [metadata_kvLenPrev hr, metadata_actualSeqQPrev hr]
    exact seesPast_of_blocks
  · rintro rfl
    rw [metadata_kvLenNext hr, metadata_actualSeqQNext hr]
    exact seesPast_of_blocks

end Halves

/-! ## Section 6: The plan of a batch -/

section Plan

variable {n : Nat} {xs ps : List Nat}

theorem padLast_append (n : Nat) (init : List Nat) (a : Nat) : padLast n (init ++ [a]) = init ++
    [a + n] := by
  simp [padLast]

theorem exists_append (hne : xs ≠ []) : ∃ init a, xs = init ++ [a] :=
  ⟨xs.dropLast, xs.getLast hne, (dropLast_append_getLast hne).symm⟩

theorem length_padLast (hne : xs ≠ []) : (padLast n xs).length = xs.length := by
  obtain ⟨init, a, rfl⟩ := exists_append hne
  simp [padLast_append]

theorem sum_padLast (hne : xs ≠ []) : (padLast n xs).sum = xs.sum + n := by
  obtain ⟨init, a, rfl⟩ := exists_append hne
  simp [padLast_append, Nat.add_assoc]

theorem addToLast_eq (hne : xs ≠ []) : addToLast n xs = some (padLast n xs) := by
  obtain ⟨init, a, rfl⟩ := exists_append hne
  rw [addToLast, padLast_append]
  split
  · simp
  · next hn => simp [show n = 0 by omega]

theorem zipWith_padLast (hne : xs ≠ []) (hlen : ps.length = xs.length) :
    padLast n (List.zipWith (· + ·) ps xs) = List.zipWith (· + ·) ps (padLast n xs) := by
  obtain ⟨init, a, rfl⟩ := exists_append hne
  have hps : ps ≠ [] := by
    rintro rfl
    simp at hlen
  obtain ⟨pinit, p, rfl⟩ := exists_append hps
  have hinit : pinit.length = init.length := by simpa using hlen
  rw [padLast_append, zipWith_append hinit, zipWith_append hinit, zipWith_cons_cons,
    zipWith_nil_left, padLast_append, zipWith_cons_cons, zipWith_nil_left, Nat.add_assoc]

theorem offsets_eq (hlen : ps.length = xs.length) : ((List.range xs.length).map fun s =>
    (List.zipWith (· + ·) ps xs).getD s 0 - xs.getD s 0) = ps := by
  refine ext_getElem (by simp [hlen]) fun i hi hj => ?_
  have hx : i < xs.length := by omega
  have hz : i < (List.zipWith (· + ·) ps xs).length := by simp; omega
  simp [getD_eq_getElem?_getD, getElem?_eq_getElem hx, getElem?_eq_getElem hz]

theorem prepareContextParallelMetadata_eq (nsaMode : Bool) {cpSize kvLen r : Nat}
    {extendLens prefixLens : List Nat} (hr : r < cpSize) (hne : extendLens ≠ [])
    (hlen : prefixLens.length = extendLens.length) :
    prepareContextParallelMetadata nsaMode kvLen r cpSize
    (some (List.zipWith (· + ·) prefixLens extendLens)) extendLens = some
    (zigzagMetadata nsaMode r cpSize prefixLens (paddedLens kvLen extendLens)) := by
  have hzip : List.zipWith (· + ·) prefixLens extendLens ≠ [] := by
    rw [← length_pos_iff, length_zipWith, hlen, Nat.min_self]
    exact length_pos_iff.mpr hne
  have hlenPadded : (paddedLens kvLen extendLens).length = extendLens.length := length_padLast hne
  have hnePadded : paddedLens kvLen extendLens ≠ [] := by
    rw [← length_pos_iff, hlenPadded]
    exact length_pos_iff.mpr hne
  have hseqs : (List.zipWith (· + ·) prefixLens extendLens).length =
      (paddedLens kvLen extendLens).length := by
    rw [length_zipWith, hlen, Nat.min_self, hlenPadded]
  have hoffsets := offsets_eq (hlen.trans hlenPadded.symm)
  have hext : addToLast (kvLen - extendLens.sum) extendLens = some (paddedLens kvLen extendLens) :=
    addToLast_eq hne
  have hadd : addToLast (kvLen - extendLens.sum) (List.zipWith (· + ·) prefixLens extendLens) =
      some (List.zipWith (· + ·) prefixLens (paddedLens kvLen extendLens)) := by
    rw [addToLast_eq hzip, zipWith_padLast hne hlen]
    rfl
  simp only [prepareContextParallelMetadata, hext, hadd, hseqs, if_true, bind_eq_bind, bind_some,
    hoffsets, metadata_isPlan hr hnePadded]

end Plan

/-- The zigzag split is lossless and causal: the metadata of the ranks exist, their indices are a
partition of the blocks, the exchange of the rows of all ranks gives every rank the batch, and each
rank holds its front blocks and its back blocks with what causal attention needs. -/
theorem zigzag_lossless_causal (pad : α) (nsaMode : Bool) {cpSize kvLen : Nat}
    {extendLens prefixLens : List Nat} (hcp : 1 ≤ cpSize) (hne : extendLens ≠ [])
    (hlen : prefixLens.length = extendLens.length)
    (hkv : extendLens.sum ≤ kvLen) :
    ∃ metas : Nat → ContextParallelMetadata,
      (∀ r < cpSize, prepareContextParallelMetadata nsaMode kvLen r cpSize
        (some (List.zipWith (· + ·) prefixLens extendLens)) extendLens = some (metas r)) ∧
      ((List.range cpSize).flatMap fun r => (metas r).zigzagIndex).Perm
        (List.range (extendLens.length * (cpSize * 2))) ∧
      ∀ xs : List α, xs.length = kvLen →
        (∃ blocks : List (List α), blocks.length = extendLens.length * (cpSize * 2) ∧
          blocks.flatten = xs ∧
          ∀ r < cpSize, torchSplit (metas r).splitList xs = some blocks) ∧
        ∃ rows : Nat → List α, (∀ r < cpSize, cpSplitAndRebuildData (metas r) xs = some (rows r)) ∧
          (∀ r < cpSize, cpAllGatherRerangeOutput (metas r) (gathered pad cpSize metas rows) =
            some xs) ∧
          ∀ r < cpSize, RankLayout nsaMode cpSize (paddedLens kvLen extendLens) prefixLens xs r
          (metas r) (rows r) := by
  have hlenPadded : (paddedLens kvLen extendLens).length = extendLens.length := length_padLast hne
  have hpos : 0 < (paddedLens kvLen extendLens).length := by
    rw [hlenPadded]
    exact length_pos_iff.mpr hne
  have hsum : (paddedLens kvLen extendLens).sum = kvLen := by
    rw [paddedLens, sum_padLast hne]
    omega
  have hnePadded := length_pos_iff.mp hpos
  refine ⟨fun r => zigzagMetadata nsaMode r cpSize prefixLens (paddedLens kvLen extendLens),
    fun r hr => prepareContextParallelMetadata_eq nsaMode hr hne hlen, ?_, fun xs hxs => ?_⟩
  · rw [flatMap_congr fun r hr => metadata_zigzagIndex (mem_range.mp hr) hnePadded, ← hlenPadded]
    exact zigzag_perm
  · rw [← hsum] at hxs
    refine ⟨⟨_, ?_, flatten_blocks hcp hxs, fun r _ => torchSplit_blocks hcp hxs⟩,
      fun r => (rankBlocks cpSize (paddedLens kvLen extendLens) xs r).flatten,
      fun r hr => cpSplitAndRebuildData_eq hr hnePadded hxs,
      fun r _ => cpAllGatherRerangeOutput_eq pad hcp hxs, fun r hr => rankLayout hr hxs⟩
    rw [length_grid, hlenPadded]

/-- Two ranks, two sequences with a cached prefix before the first, and one token of padding. -/
theorem zigzag_two_ranks : ∃ metas : Nat → ContextParallelMetadata,
    (∀ r < 2, prepareContextParallelMetadata false 9 r 2 (some [7, 3]) [5, 3] = some (metas r)) ∧
    ((List.range 2).flatMap fun r => (metas r).zigzagIndex).Perm (List.range 8) ∧
    ∀ xs : List Nat, xs.length = 9 →
      (∃ blocks : List (List Nat), blocks.length = 8 ∧ blocks.flatten = xs ∧
        ∀ r < 2, torchSplit (metas r).splitList xs = some blocks) ∧
      ∃ rows : Nat → List Nat, (∀ r < 2, cpSplitAndRebuildData (metas r) xs = some (rows r)) ∧
        (∀ r < 2, cpAllGatherRerangeOutput (metas r) (gathered 0 2 metas rows) = some xs) ∧
        ∀ r < 2, RankLayout false 2 [5, 4] [2, 0] xs r (metas r) (rows r) :=
  @zigzag_lossless_causal Nat 0 false 2 9 [5, 3] [2, 0] (by decide) (by decide) (by decide)
    (by decide)

end Sglang.Layers
