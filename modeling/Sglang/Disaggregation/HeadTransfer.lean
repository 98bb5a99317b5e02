import Mathlib.Tactic
import Sglang.Disaggregation.HeadSlices
import Sglang.Lib.Gather

/-!
# What the Transfer of a Slice Writes

The writes of every path, named by layer, page, token of the page and byte of the slice.

- `byteAt`: the address of a byte, which determines page, token and byte,
- `mem_gatherTorch`, `mem_gatherTriton`: both gathers copy the same bytes,
- `mem_scatterTorch`, `mem_scatterTriton`: both scatters copy the same bytes,
- `overwrites_sendKvcacheSlice`: the per-token path.
-/

namespace Sglang.Disaggregation.HeadSlices

open List
open Lib (Overwrites getD_map_range)

variable {β : Type*}

/-! ## Section 1: Addresses -/

theorem mul_add_inj {n a b x y : Nat} (hx : x < n) (hy : y < n) (h : a * n + x = b * n + y) :
    a = b ∧ x = y := by
  have hdiv : (a * n + x) / n = (b * n + y) / n := by rw [h]
  have hpos : 0 < n := by omega
  rw [Nat.mul_comm a, Nat.mul_comm b, Nat.mul_add_div hpos, Nat.mul_add_div hpos,
    Nat.div_eq_of_lt hx, Nat.div_eq_of_lt hy, Nat.add_zero, Nat.add_zero] at hdiv
  subst hdiv
  exact ⟨rfl, Nat.add_left_cancel h⟩

theorem mul_add_lt {a n x m : Nat} (ha : a < m) (hx : x < n) : a * n + x < m * n := by
  calc a * n + x < a * n + n := Nat.add_lt_add_left hx _
    _ = (a + 1) * n := by ring
    _ ≤ m * n := Nat.mul_le_mul_right n ha

/-- The address of byte `x` of a token of a page, in the pool of a rank that keeps `heads` heads. -/
def byteAt (g : Geometry) (heads page token x : Nat) : Nat :=
  (page * g.pageSize + token) * (heads * g.bytesPerHead) + x

theorem byteAt_add (g : Geometry) (heads page token x y : Nat) :
    byteAt g heads page token x + y = byteAt g heads page token (x + y) := Nat.add_assoc _ x y

variable {g : Geometry} {pages : List Nat} {totalHeads : Nat} {w : Nat × β}

theorem byteAt_inj {heads page page' o o' x x' : Nat} (ho : o < g.pageSize) (ho' : o' < g.pageSize)
    (hx : x < heads * g.bytesPerHead) (hx' : x' < heads * g.bytesPerHead)
    (h : byteAt g heads page o x = byteAt g heads page' o' x') :
    page = page' ∧ o = o' ∧ x = x' := by
  obtain ⟨htoken, hbyte⟩ := mul_add_inj hx hx' h
  obtain ⟨hpage, hoffset⟩ := mul_add_inj ho ho' htoken
  exact ⟨hpage, hoffset, hbyte⟩

theorem DtypeSize.bytes_pos (d : DtypeSize) : 0 < d.bytes := by
  cases d
  all_goals exact Nat.succ_pos _

theorem Geometry.bytesPerHead_pos (g : Geometry) : 0 < g.bytesPerHead :=
  Nat.mul_pos g.headDim_pos g.dtypeSize.bytes_pos

/-- Byte `x` of token `o` of the `i`-th page. -/
structure InPages (g : Geometry) (pages : List Nat) (width i page o x : Nat) : Prop where
  page : pages[i]? = some page
  token : o < g.pageSize
  byte : x < width

theorem InPages.lt {width i page o x : Nat}
    (h : InPages g pages width i page o x) : i < pages.length :=
  (List.getElem?_eq_some_iff.mp h.page).1

theorem mem_zipIdx_tokens {ps : Nat} (pages : List Nat) : ∀ {n t k : Nat},
    (t, k) ∈ (pages.flatMap fun page => (List.range ps).map fun o => page * ps + o).zipIdx n ↔
      ∃ i page o, pages[i]? = some page ∧ o < ps ∧ t = page * ps + o ∧ k = n + (i * ps + o) := by
  induction pages with
  | nil => simp
  | cons p pages ih =>
    intro n t k
    rw [flatMap_cons, zipIdx_append, mem_append, ih]
    constructor
    · rintro (hfirst | ⟨i, page, o, hpage, ho, rfl, rfl⟩)
      · obtain ⟨o, ho⟩ := mem_iff_getElem?.mp hfirst
        rw [getElem?_zipIdx, getElem?_map] at ho
        have hlt : o < ps := by
          by_contra hge
          rw [getElem?_eq_none (by rw [length_range]; omega)] at ho
          simp at ho
        rw [getElem?_range hlt] at ho
        simp only [Option.map_some, Option.some.injEq, Prod.mk.injEq] at ho
        exact ⟨0, p, o, rfl, hlt, ho.1.symm, by omega⟩
      · refine ⟨i + 1, page, o, hpage, ho, rfl, ?_⟩
        rw [length_map, length_range]
        ring
    · rintro ⟨i, page, o, hpage, ho, rfl, rfl⟩
      cases i with
      | zero =>
        cases hpage
        refine .inl (mem_iff_getElem?.mpr ⟨o, ?_⟩)
        rw [getElem?_zipIdx, getElem?_map, getElem?_range ho]
        simp
      | succ i =>
        refine .inr ⟨i, page, o, hpage, ho, rfl, ?_⟩
        rw [length_map, length_range]
        ring

theorem tokenIndices_eq (ps : Nat) (pages : List Nat) : tokenIndices ps pages =
    pages.flatMap fun page => (List.range ps).map fun o => page * ps + o := by
  rw [tokenIndices]
  split
  · next h =>
    subst h
    simp
  · rfl

theorem mem_tokens {γ : Type*} (g : Geometry) (pages : List Nat) (width : Nat)
    (f : Nat → Nat → Nat → γ) {w : γ} :
    (w ∈ (tokenIndices g.pageSize pages).zipIdx.flatMap fun token =>
        (List.range width).map fun x => f token.1 token.2 x) ↔
      ∃ i page o x, InPages g pages width i page o x ∧ w = f (page * g.pageSize + o)
      (i * g.pageSize + o) x := by
  rw [tokenIndices_eq, mem_flatMap]
  constructor
  · rintro ⟨⟨t, k⟩, hmem, hw⟩
    obtain ⟨i, page, o, hpage, ho, rfl, rfl⟩ := (mem_zipIdx_tokens pages).mp hmem
    obtain ⟨x, hx, rfl⟩ := mem_map.mp hw
    refine ⟨i, page, o, x, ⟨hpage, ho, mem_range.mp hx⟩, ?_⟩
    rw [Nat.zero_add]
  · rintro ⟨i, page, o, x, hin, rfl⟩
    refine ⟨(page * g.pageSize + o, i * g.pageSize + o), ?_, ?_⟩
    · exact (mem_zipIdx_tokens pages).mpr ⟨i, page, o, hin.page, hin.token,
        rfl, by rw [Nat.zero_add]⟩
    · exact mem_map.mpr ⟨x, mem_range.mpr hin.byte, rfl⟩

/-! ## Section 2: The loops over the layers -/

theorem forLayers_range' {ω : Type*} (body : Nat → Nat → List ω) (perLayerBytes : Nat) (n : Nat) :
    ∀ (start offset : Nat),
      (forLayers body perLayerBytes (List.range' start n) offset).2 = offset + n * perLayerBytes ∧
      ∀ w, w ∈ (forLayers body perLayerBytes (List.range' start n) offset).1 ↔
        ∃ i < n, w ∈ body (start + i) (offset + i * perLayerBytes) := by
  induction n with
  | zero => simp [forLayers]
  | succ n ih =>
    intro start offset
    rw [range'_succ]
    obtain ⟨hoffset, hmem⟩ := ih (start + 1) (offset + perLayerBytes)
    refine ⟨?_, fun w => ?_⟩
    · simp only [forLayers]
      rw [hoffset]
      ring
    · simp only [forLayers, mem_append, hmem]
      constructor
      · rintro (hfirst | ⟨i, hi, hw⟩)
        · exact ⟨0, by omega, by simpa using hfirst⟩
        · refine ⟨i + 1, by omega, ?_⟩
          have hidx : start + 1 + i = start + (i + 1) := by omega
          have hoff : offset + perLayerBytes + i * perLayerBytes =
            offset + (i + 1) * perLayerBytes := by ring
          rwa [← hidx, ← hoff]
      · rintro ⟨i, hi, hw⟩
        cases i with
        | zero => exact .inl (by simpa using hw)
        | succ i =>
          refine .inr ⟨i, by omega, ?_⟩
          have hidx : start + 1 + i = start + (i + 1) := by omega
          have hoff : offset + perLayerBytes + i * perLayerBytes =
            offset + (i + 1) * perLayerBytes := by ring
          rwa [hidx, hoff]

theorem mem_forKeysAndValues {ω : Type*} {body : Nat → Nat → List ω}
    {perLayerBytes numLayers offset : Nat} {w : ω} :
    w ∈ forKeysAndValues body perLayerBytes numLayers offset ↔
      ∃ layer < 2 * numLayers, w ∈ body layer (offset + layer * perLayerBytes) := by
  have hkeys := forLayers_range' body perLayerBytes numLayers 0 offset
  rw [← range_eq_range'] at hkeys
  have hvalues := forLayers_range' body perLayerBytes numLayers numLayers
    (offset + numLayers * perLayerBytes)
  simp only [forKeysAndValues, mem_append, hkeys.1, hkeys.2, hvalues.2, Nat.zero_add]
  constructor
  · rintro (⟨i, hi, hw⟩ | ⟨i, hi, hw⟩)
    · exact ⟨i, by omega, hw⟩
    · refine ⟨numLayers + i, by omega, ?_⟩
      rw [Nat.add_mul, ← Nat.add_assoc]
      exact hw
  · rintro ⟨layer, hlayer, hw⟩
    rcases Nat.lt_or_ge layer numLayers with hlt | hge
    · exact .inl ⟨layer, hlt, hw⟩
    · obtain ⟨i, rfl⟩ := Nat.exists_eq_add_of_le hge
      refine .inr ⟨i, by omega, ?_⟩
      rw [Nat.add_mul, ← Nat.add_assoc] at hw
      exact hw

/-! ## Section 3: The gathers -/

/-- The staging offset of a byte of a slice, from the start of the region of its writer. -/
def stagedAt (g : Geometry) (numPages numHeads layer i token x : Nat) : Nat :=
  layer * (numPages * g.pageSize * (numHeads * g.bytesPerHead)) +
    ((i * g.pageSize + token) * (numHeads * g.bytesPerHead) + x)

theorem layerBytes_eq (g : Geometry) (numTokens numHeads : Nat) :
    numTokens * numHeads * g.headDim * g.dtypeSize.bytes = numTokens *
    (numHeads * g.bytesPerHead) := by
  rw [Geometry.bytesPerHead]
  ring

theorem mem_gatherTorch {kvData : Pool β}
    {headStart numHeads : Nat} :
    w ∈ gatherTorch g totalHeads kvData pages headStart numHeads ↔
      ∃ layer i page o x, layer < 2 * g.numLayers ∧
      InPages g pages (numHeads * g.bytesPerHead) i page o x ∧ w =
        (stagedAt g pages.length numHeads layer i o x,
          kvData layer (byteAt g totalHeads page o (headStart * g.bytesPerHead + x))) := by
  simp only [gatherTorch, mem_forKeysAndValues, gatherKvHeadSlices, layerBytes_eq]
  constructor
  · rintro ⟨layer, hlayer, hw⟩
    obtain ⟨i, page, o, x, hin, rfl⟩ :=
      (mem_tokens g pages (numHeads * g.bytesPerHead) (fun page token x =>
      (0 + layer * (pages.length * g.pageSize * (numHeads * g.bytesPerHead)) +
          (token * (numHeads * g.bytesPerHead) + x),
        kvData layer (page * (totalHeads * g.bytesPerHead) + headStart * g.bytesPerHead + x)))).mp
        hw
    refine ⟨layer, i, page, o, x, hlayer, hin, ?_⟩
    rw [stagedAt, byteAt, Nat.zero_add, ← Nat.add_assoc _ (headStart * g.bytesPerHead)]
  · rintro ⟨layer, i, page, o, x, hlayer, hin, rfl⟩
    refine ⟨layer, hlayer, (mem_tokens g pages (numHeads * g.bytesPerHead) (fun page token x =>
      (0 + layer * (pages.length * g.pageSize * (numHeads * g.bytesPerHead)) +
          (token * (numHeads * g.bytesPerHead) + x),
        kvData layer (page * (totalHeads * g.bytesPerHead) + headStart * g.bytesPerHead + x)))).mpr
      ⟨i, page, o, x, hin, ?_⟩⟩
    rw [stagedAt, byteAt, Nat.zero_add, ← Nat.add_assoc _ (headStart * g.bytesPerHead)]

theorem exists_programOffsets {offset n : Nat} :
    (∃ blockId ∈ List.range (cdiv n blockSize), offset ∈ programOffsets blockId n) ↔
    offset < n := by
  simp only [programOffsets, mem_filter, mem_map, mem_range, decide_eq_true_eq]
  constructor
  · rintro ⟨_, _, _, h⟩
    exact h
  · intro h
    refine ⟨offset / blockSize, ?_, ⟨offset % blockSize, Nat.mod_lt _ (by decide), ?_⟩, h⟩
    · rw [cdiv, Nat.div_lt_iff_lt_mul (by decide)]
      have := Nat.div_add_mod (n + blockSize - 1) blockSize
      have := Nat.mod_lt (n + blockSize - 1) (show 0 < blockSize by decide)
      rw [Nat.mul_comm]
      omega
    · rw [Nat.mul_comm]
      exact Nat.div_add_mod offset blockSize

theorem exists_element {numHeads : Nat} {P : Nat → Nat → Prop} :
    (∃ offset < pages.length * g.pageSize * (numHeads * g.headDim), ∃ b < g.dtypeSize.bytes,
      P offset b) ↔ ∃ i page o x, InPages g pages (numHeads * g.bytesPerHead) i page o x ∧
        P ((i * g.pageSize + o) * (numHeads * g.headDim) + x / g.dtypeSize.bytes)
        (x % g.dtypeSize.bytes) := by
  have hbytes := g.dtypeSize.bytes_pos
  have hps := g.pageSize_pos
  constructor
  · rintro ⟨offset, hoffset, b, hb, hP⟩
    have hept : 0 < numHeads * g.headDim := by
      apply Nat.pos_of_ne_zero
      intro hzero
      rw [hzero, Nat.mul_zero] at hoffset
      exact Nat.not_lt_zero _ hoffset
    have ht : offset / (numHeads * g.headDim) < pages.length * g.pageSize :=
      Nat.div_lt_of_lt_mul (by rwa [Nat.mul_comm (numHeads * g.headDim)])
    have hi : offset / (numHeads * g.headDim) / g.pageSize < pages.length :=
      Nat.div_lt_of_lt_mul (by rwa [Nat.mul_comm g.pageSize])
    refine ⟨_, _, offset / (numHeads * g.headDim) % g.pageSize,
      offset % (numHeads * g.headDim) * g.dtypeSize.bytes + b,
      ⟨getElem?_eq_getElem hi, Nat.mod_lt _ hps, ?_⟩, ?_⟩
    · rw [Geometry.bytesPerHead, ← Nat.mul_assoc]
      exact mul_add_lt (Nat.mod_lt _ hept) hb
    · rw [Nat.mul_comm _ g.pageSize, Nat.div_add_mod, Nat.mul_add_mod', Nat.mod_eq_of_lt hb,
        Nat.mul_comm (offset % _), Nat.mul_add_div hbytes, Nat.div_eq_of_lt hb, Nat.add_zero,
        Nat.mul_comm _ (_ * _),
        Nat.div_add_mod]
      exact hP
  · rintro ⟨i, page, o, x, hin, hP⟩
    refine ⟨_, ?_, _, Nat.mod_lt _ hbytes, hP⟩
    refine mul_add_lt (mul_add_lt hin.lt hin.token) (Nat.div_lt_of_lt_mul ?_)
    calc x < numHeads * g.bytesPerHead := hin.byte
      _ = g.dtypeSize.bytes * (numHeads * g.headDim) := by rw [Geometry.bytesPerHead]; ring

theorem element_token {numHeads i page o x : Nat}
    (hin : InPages g pages (numHeads * g.bytesPerHead) i page o x) :
    ((i * g.pageSize + o) * (numHeads * g.headDim) + x / g.dtypeSize.bytes) /
    (numHeads * g.headDim) = i * g.pageSize + o ∧
      ((i * g.pageSize + o) * (numHeads * g.headDim) + x / g.dtypeSize.bytes) %
      (numHeads * g.headDim) = x / g.dtypeSize.bytes ∧
      pages.getD ((i * g.pageSize + o) / g.pageSize) 0 = page ∧
      (i * g.pageSize + o) % g.pageSize = o := by
  have hlt : x / g.dtypeSize.bytes < numHeads * g.headDim := by
    refine Nat.div_lt_of_lt_mul ?_
    calc x < numHeads * g.bytesPerHead := hin.byte
      _ = g.dtypeSize.bytes * (numHeads * g.headDim) := by rw [Geometry.bytesPerHead]; ring
  refine ⟨?_, ?_, ?_, ?_⟩
  · rw [Nat.mul_comm _ (_ * _), Nat.mul_add_div (Nat.zero_lt_of_lt hlt), Nat.div_eq_of_lt hlt,
      Nat.add_zero]
  · rw [Nat.mul_add_mod', Nat.mod_eq_of_lt hlt]
  · rw [Nat.mul_comm i, Nat.mul_add_div g.pageSize_pos, Nat.div_eq_of_lt hin.token, Nat.add_zero,
      getD_eq_getElem?_getD, hin.page, Option.getD_some]
  · rw [Nat.mul_add_mod', Nat.mod_eq_of_lt hin.token]

theorem element_byte (base x : Nat) (d : DtypeSize) :
    (base + x / d.bytes) * d.bytes + x % d.bytes = base * d.bytes + x := by
  have := Nat.div_add_mod x d.bytes
  calc (base + x / d.bytes) * d.bytes + x % d.bytes
      = base * d.bytes + (d.bytes * (x / d.bytes) + x % d.bytes) := by ring
    _ = base * d.bytes + x := by rw [this]

theorem mem_gatherTriton {kvData : Pool β}
    {headStart numHeads : Nat} :
    w ∈ gatherTriton g totalHeads kvData pages headStart numHeads ↔
      ∃ layer i page o x, layer < 2 * g.numLayers ∧
      InPages g pages (numHeads * g.bytesPerHead) i page o x ∧ w =
        (stagedAt g pages.length numHeads layer i o x,
          kvData layer (byteAt g totalHeads page o (headStart * g.bytesPerHead + x))) := by
  -- the grid, as one offset for each layer
  have hgrid : w ∈ gatherTriton g totalHeads kvData pages headStart numHeads ↔
      ∃ layer < 2 * g.numLayers, ∃ offset < pages.length * g.pageSize * (numHeads * g.headDim),
        ∃ b < g.dtypeSize.bytes, w =
          ((layer * (pages.length * g.pageSize * (numHeads * g.headDim)) + offset) *
            g.dtypeSize.bytes + b,
            kvData layer
            (((pages.getD (offset / (numHeads * g.headDim) / g.pageSize) 0 * g.pageSize +
              offset / (numHeads * g.headDim) % g.pageSize) * (totalHeads * g.headDim) +
              headStart * g.headDim +
              offset % (numHeads * g.headDim)) * g.dtypeSize.bytes + b)) := by
    simp only [gatherTriton, gatherKernel, mem_flatMap, mem_map]
    constructor
    · rintro ⟨layer, hlayer, blockId, hblock, offset, hoffset, b, hb, rfl⟩
      exact ⟨layer, mem_range.mp hlayer, offset,
        exists_programOffsets.mp ⟨blockId, hblock, hoffset⟩, b, mem_range.mp hb, rfl⟩
    · rintro ⟨layer, hlayer, offset, hoffset, b, hb, rfl⟩
      obtain ⟨blockId, hblock, hoffset⟩ := exists_programOffsets.mpr hoffset
      exact ⟨layer, mem_range.mpr hlayer, blockId, hblock, offset, hoffset, b, mem_range.mpr hb,
        rfl⟩
  rw [hgrid]
  simp only [exists_element]
  constructor
  · rintro ⟨layer, hlayer, i, page, o, x, hin, rfl⟩
    obtain ⟨htoken, helem, hpage, ho⟩ := element_token hin
    refine ⟨layer, i, page, o, x, hlayer, hin, ?_⟩
    rw [htoken, helem, hpage, ho, element_byte, ← Nat.add_assoc, element_byte, stagedAt, byteAt,
      Geometry.bytesPerHead]
    congr 1
    · ring
    · congr 1
      ring
  · rintro ⟨layer, i, page, o, x, hlayer, hin, rfl⟩
    obtain ⟨htoken, helem, hpage, ho⟩ := element_token hin
    refine ⟨layer, hlayer, i, page, o, x, hin, ?_⟩
    rw [htoken, helem, hpage, ho, element_byte, ← Nat.add_assoc, element_byte, stagedAt, byteAt,
      Geometry.bytesPerHead]
    congr 1
    · ring
    · congr 1
      ring

/-! ## Section 4: The scatters -/

def rankBytes (g : Geometry) (numPages numHeads : Nat) : Nat :=
  2 * g.numLayers * (numPages * g.pageSize * (numHeads * g.bytesPerHead))

theorem rankBytes_eq (g : Geometry) (numPages numHeads : Nat) :
    numPages * g.pageSize * (numHeads * g.bytesPerHead) * g.numLayers * 2 =
      rankBytes g numPages numHeads := by
  rw [rankBytes]
  ring

theorem numHeadsToSend_eq (S D r r' d H : Nat) : (computeHeadSliceParams S D r d H).numHeadsToSend =
    (computeHeadSliceParams S D r' d H).numHeadsToSend := by
  simp only [computeHeadSliceParams]
  split
  · rfl
  · rfl

theorem mem_scatterTorch {staging : Nat → β} {S D d H : Nat}
    {w : (Nat × Nat) × β} :
    w ∈ scatterTorch g totalHeads staging pages S D d H ↔
      ∃ wr layer i page o x, wr < numWriters S D ∧ layer < 2 * g.numLayers ∧
        InPages g pages
        ((computeHeadSliceParams S D wr d H).numHeadsToSend * g.bytesPerHead) i page o x ∧
        w = ((layer, byteAt g totalHeads page o
            ((computeHeadSliceParams S D wr d H).dstHeadStart * g.bytesPerHead + x)),
          staging (wr * rankBytes g pages.length
            (computeHeadSliceParams S D wr d H).numHeadsToSend +
            stagedAt g pages.length
            (computeHeadSliceParams S D wr d H).numHeadsToSend layer i o x)) := by
  rw [scatterTorch, mem_flatMap]
  simp only [mem_range, mem_forKeysAndValues, scatterKvHeadSlices, layerBytes_eq, rankBytes_eq]
  have hbody (wr layer : Nat) := mem_tokens (w := w) g pages
    ((computeHeadSliceParams S D wr d H).numHeadsToSend * g.bytesPerHead) (fun page token x =>
      ((layer, page * (totalHeads * g.bytesPerHead) +
          (computeHeadSliceParams S D wr d H).dstHeadStart * g.bytesPerHead + x),
        staging (wr * rankBytes g pages.length (computeHeadSliceParams S D wr d H).numHeadsToSend +
          layer * (pages.length * g.pageSize *
            ((computeHeadSliceParams S D wr d H).numHeadsToSend * g.bytesPerHead)) +
          (token * ((computeHeadSliceParams S D wr d H).numHeadsToSend * g.bytesPerHead) + x))))
  constructor
  · rintro ⟨wr, hwr, layer, hlayer, hw⟩
    obtain ⟨i, page, o, x, hin, rfl⟩ := (hbody wr layer).mp hw
    refine ⟨wr, layer, i, page, o, x, hwr, hlayer, hin, ?_⟩
    rw [stagedAt, byteAt, ← Nat.add_assoc _ (_ * g.bytesPerHead), ← Nat.add_assoc (wr * _)]
  · rintro ⟨wr, layer, i, page, o, x, hwr, hlayer, hin, rfl⟩
    refine ⟨wr, hwr, layer, hlayer, (hbody wr layer).mpr ⟨i, page, o, x, hin, ?_⟩⟩
    rw [stagedAt, byteAt, ← Nat.add_assoc _ (_ * g.bytesPerHead), ← Nat.add_assoc (wr * _)]

theorem mem_scatterTriton {staging : Nat → β} {S D d H : Nat}
    {w : (Nat × Nat) × β} :
    w ∈ scatterTriton g totalHeads staging pages S D d H ↔
      ∃ wr layer i page o x, wr < numWriters S D ∧ layer < 2 * g.numLayers ∧
        InPages g pages
        ((computeHeadSliceParams S D wr d H).numHeadsToSend * g.bytesPerHead) i page o x ∧
        w = ((layer, byteAt g totalHeads page o
            ((computeHeadSliceParams S D wr d H).dstHeadStart * g.bytesPerHead + x)),
          staging (wr * rankBytes g pages.length
            (computeHeadSliceParams S D wr d H).numHeadsToSend +
            stagedAt g pages.length
            (computeHeadSliceParams S D wr d H).numHeadsToSend layer i o x)) := by
  -- the kernel counts the heads of writer 0 for every writer
  simp only [fun wr => numHeadsToSend_eq S D wr 0 d H]
  generalize hnum : (computeHeadSliceParams S D 0 d H).numHeadsToSend = num
  have hgrid : w ∈ scatterTriton g totalHeads staging pages S D d H ↔
      ∃ wr layer, wr < numWriters S D ∧ layer < 2 * g.numLayers ∧
        ∃ offset < pages.length * g.pageSize * (num * g.headDim), ∃ b < g.dtypeSize.bytes, w =
          ((layer, ((pages.getD (offset / (num * g.headDim) / g.pageSize) 0 * g.pageSize +
              offset / (num * g.headDim) % g.pageSize) * (totalHeads * g.headDim) +
              (computeHeadSliceParams S D wr d H).dstHeadStart * g.headDim +
              offset % (num * g.headDim)) * g.dtypeSize.bytes + b),
            staging ((wr * (pages.length * g.pageSize * (num * g.headDim) * (2 * g.numLayers)) +
              layer * (pages.length * g.pageSize * (num * g.headDim)) +
              offset) * g.dtypeSize.bytes + b)) := by
    simp only [scatterTriton, scatterKernel, mem_flatMap, mem_map, hnum]
    constructor
    · rintro ⟨progId, hprog, blockId, hblock, offset, hoffset, b, hb, rfl⟩
      have hprog := mem_range.mp hprog
      have hlayers : 0 < 2 * g.numLayers := by
        apply Nat.pos_of_ne_zero
        intro hzero
        rw [hzero, Nat.mul_zero] at hprog
        exact Nat.not_lt_zero _ hprog
      have hwr : progId / (2 * g.numLayers) < numWriters S D :=
        Nat.div_lt_of_lt_mul (by rwa [Nat.mul_comm (2 * g.numLayers)])
      refine ⟨_, _, hwr, Nat.mod_lt progId hlayers, offset,
        exists_programOffsets.mp ⟨blockId, hblock, hoffset⟩, b, mem_range.mp hb, ?_⟩
      rw [getD_map_range hwr]
    · rintro ⟨wr, layer, hwr, hlayer, offset, hoffset, b, hb, rfl⟩
      obtain ⟨blockId, hblock, hoffset⟩ := exists_programOffsets.mpr hoffset
      refine ⟨wr * (2 * g.numLayers) + layer, mem_range.mpr (mul_add_lt hwr hlayer), blockId,
        hblock, offset, hoffset, b, mem_range.mpr hb, ?_⟩
      have hdiv : (wr * (2 * g.numLayers) + layer) / (2 * g.numLayers) = wr := by
        rw [Nat.mul_comm, Nat.mul_add_div (Nat.zero_lt_of_lt hlayer), Nat.div_eq_of_lt hlayer,
          Nat.add_zero]
      rw [hdiv, Nat.mul_add_mod', Nat.mod_eq_of_lt hlayer, getD_map_range hwr]
  rw [hgrid]
  simp only [exists_element]
  constructor
  · rintro ⟨wr, layer, hwr, hlayer, i, page, o, x, hin, rfl⟩
    obtain ⟨htoken, helem, hpage, ho⟩ := element_token hin
    refine ⟨wr, layer, i, page, o, x, hwr, hlayer, hin, ?_⟩
    rw [htoken, helem, hpage, ho, element_byte, ← Nat.add_assoc, element_byte, stagedAt, byteAt,
      rankBytes, Geometry.bytesPerHead]
    congr 1
    · congr 1
      ring
    · congr 1
      ring
  · rintro ⟨wr, layer, i, page, o, x, hwr, hlayer, hin, rfl⟩
    obtain ⟨htoken, helem, hpage, ho⟩ := element_token hin
    refine ⟨wr, layer, hwr, hlayer, i, page, o, x, hin, ?_⟩
    rw [htoken, helem, hpage, ho, element_byte, ← Nat.add_assoc, element_byte, stagedAt, byteAt,
      rankBytes, Geometry.bytesPerHead]
    congr 1
    · congr 1
      ring
    · congr 1
      ring

/-! ## Section 5: The per-token path -/

theorem zipWith_flatMap {α γ δ : Type*} {ps : Nat} (f : γ → γ → δ) (src dst : α → Nat → γ) :
    ∀ (as bs : List α), List.zipWith f (as.flatMap fun a => (List.range ps).map (src a))
        (bs.flatMap fun b => (List.range ps).map (dst b)) =
      (as.zip bs).flatMap fun p => (List.range ps).map fun o => f (src p.1 o) (dst p.2 o) := by
  intro as
  induction as with
  | nil => simp
  | cons a as ih =>
    intro bs
    cases bs with
    | nil => simp
    | cons b bs =>
      rw [flatMap_cons, flatMap_cons, zipWith_append (by simp), ih, zip_cons_cons,
        flatMap_cons, zipWith_map_left, zipWith_map_right, zipWith_self]

/-- The bytes that prefill rank `r` sends to decode rank `d`. -/
def SliceWrite (g : Geometry) (S D H d r : Nat) (kvData : Pool β) (prefillPages dstPages : List Nat)
    (key : Nat × Nat) (value : β) : Prop :=
  ∃ layer i srcPage page o x, layer < 2 * g.numLayers ∧ prefillPages[i]? = some srcPage ∧
    InPages g dstPages ((computeHeadSliceParams S D r d H).numHeadsToSend * g.bytesPerHead)
      i page o x ∧
    key = (layer, byteAt g (headsPerRank H D) page o
      ((computeHeadSliceParams S D r d H).dstHeadStart * g.bytesPerHead + x)) ∧
    value = kvData layer (byteAt g (headsPerRank H S) srcPage o
      ((computeHeadSliceParams S D r d H).srcHeadStart * g.bytesPerHead + x))

def bytesOf (pool : Pool β) (key : Nat × Nat) : β := pool key.1 key.2

theorem kvItemLen_div (g : Geometry) (heads : Nat) : g.kvItemLen heads / g.pageSize =
    heads * g.bytesPerHead := by
  rw [Geometry.kvItemLen, Nat.mul_div_cancel_left _ g.pageSize_pos]

theorem mem_copyBlocks {src : Nat → β} {blocks : List (Nat × Nat × Nat)} :
    (w ∈ blocks.flatMap fun block => (List.range block.2.2).map fun x =>
      (block.2.1 + x, src (block.1 + x))) ↔ ∃ s d len, (s, d, len) ∈ blocks ∧ ∃ x < len, w =
        (d + x, src (s + x)) := by
  simp only [mem_flatMap, mem_map, mem_range]
  constructor
  · rintro ⟨⟨s, d, len⟩, hmem, x, hx, rfl⟩
    exact ⟨s, d, len, hmem, x, hx, rfl⟩
  · rintro ⟨s, d, len, hmem, x, hx, rfl⟩
    exact ⟨(s, d, len), hmem, x, hx, rfl⟩

theorem mem_sliceBlocks {prefillPages dstPages : List Nat}
    {srcHeads dstHeads srcOffset dstOffset len : Nat} {block : Nat × Nat × Nat} :
    block ∈ sliceBlocks g.pageSize prefillPages dstPages (g.kvItemLen srcHeads)
    (g.kvItemLen dstHeads) srcOffset
        dstOffset len ↔
      ∃ (i srcPage page o : Nat), prefillPages[i]? = some srcPage ∧ dstPages[i]? = some page ∧
      o < g.pageSize ∧ block =
        (byteAt g srcHeads srcPage o srcOffset, byteAt g dstHeads page o dstOffset, len) := by
  have haddr (heads page o offset : Nat) : page * g.kvItemLen heads +
    (o * (heads * g.bytesPerHead) + offset) = byteAt g heads page o offset := by
    rw [byteAt, Geometry.kvItemLen]
    ring
  simp only [sliceBlocks, zipWith_flatMap, kvItemLen_div, haddr, mem_flatMap, mem_map, mem_range]
  constructor
  · rintro ⟨⟨srcPage, page⟩, hmem, o, ho, rfl⟩
    obtain ⟨i, hi⟩ := mem_iff_getElem?.mp hmem
    obtain ⟨hsrc, hdst⟩ := getElem?_zip_eq_some.mp hi
    exact ⟨i, srcPage, page, o, hsrc, hdst, ho, rfl⟩
  · rintro ⟨i, srcPage, page, o, hsrc, hdst, ho, rfl⟩
    exact ⟨(srcPage, page), mem_iff_getElem?.mpr ⟨i, getElem?_zip_eq_some.mpr ⟨hsrc, hdst⟩⟩, o, ho,
      rfl⟩

theorem overwrites_sendKvcacheSlice (engine : TransferEngine β) {S D H d r : Nat}
    (hfit : (computeHeadSliceParams S D r d H).numHeadsToSend ≤ headsPerRank H D) (kvData : Pool β)
    (prefillPages dstPages : List Nat) (dstKvData : Pool β) :
    ∃ result, sendKvcacheSlice engine g S r H kvData prefillPages dstPages d D
    (g.kvItemLen (headsPerRank H D))
        dstKvData = some result ∧
      Overwrites (SliceWrite g S D H d r kvData prefillPages dstPages) (bytesOf dstKvData)
      (bytesOf result) := by
  have hpos : 0 < headsPerRank H D := Nat.lt_of_lt_of_le Nat.one_pos (Nat.le_max_left _ _)
  have hbytes : g.kvItemLen (headsPerRank H D) / g.pageSize / headsPerRank H D =
      g.bytesPerHead := by
    rw [kvItemLen_div, Nat.mul_div_cancel_left _ hpos]
  -- the slice fits, so the size check does not raise
  have hlen : ¬ (computeHeadSliceParams S D r d H).numHeadsToSend * g.bytesPerHead >
      g.kvItemLen (headsPerRank H D) / g.pageSize := by
    rw [kvItemLen_div]
    exact Nat.not_lt.mpr (Nat.mul_le_mul_right _ hfit)
  have hsend : sendKvcacheSlice engine g S r H kvData prefillPages dstPages d D
      (g.kvItemLen (headsPerRank H D)) dstKvData = some fun layer =>
        if layer < 2 * g.numLayers then
          engine.batchTransferSync (kvData layer) (dstKvData layer)
            (sliceBlocks g.pageSize prefillPages dstPages (g.kvItemLen (headsPerRank H S))
              (g.kvItemLen (headsPerRank H D))
              ((computeHeadSliceParams S D r d H).srcHeadStart * g.bytesPerHead)
              ((computeHeadSliceParams S D r d H).dstHeadStart * g.bytesPerHead)
              ((computeHeadSliceParams S D r d H).numHeadsToSend * g.bytesPerHead))
        else dstKvData layer := by
    rw [← hbytes] at hlen ⊢
    exact if_neg hlen
  refine ⟨_, hsend, ?_⟩
  rintro ⟨layer, offset⟩
  rcases Nat.lt_or_ge layer (2 * g.numLayers) with hlayer | hlayer
  · simp only [bytesOf, if_pos hlayer, engine.copies]
    rcases Lib.overwrites_scatter (dstKvData layer) _ offset with ⟨hnot, heq⟩ | hmem
    · refine .inl ⟨?_, heq⟩
      rintro b ⟨layer', i, srcPage, page, o, x, _, hsrc, hin, hkey, hvalue⟩
      obtain ⟨rfl, rfl⟩ := Prod.mk.inj hkey
      refine hnot b
        (mem_copyBlocks.mpr ⟨_, _, _, mem_sliceBlocks.mpr ⟨i, srcPage, page, o, hsrc, hin.page,
        hin.token, rfl⟩, x, hin.byte, ?_⟩)
      rw [hvalue, byteAt_add, byteAt_add]
    · refine .inr ?_
      obtain ⟨s, d', len, hblock, x, hx, heq⟩ := mem_copyBlocks.mp hmem
      obtain ⟨i, srcPage, page, o, hsrc, hdst, ho, hfields⟩ := mem_sliceBlocks.mp hblock
      obtain ⟨hs, htail⟩ := Prod.mk.inj hfields
      obtain ⟨hd, hlen'⟩ := Prod.mk.inj htail
      subst hs hd hlen'
      obtain ⟨hkey, hvalue⟩ := Prod.mk.inj heq
      refine ⟨layer, i, srcPage, page, o, x, hlayer, hsrc, ⟨hdst, ho, hx⟩, ?_, ?_⟩
      · rw [hkey, byteAt_add]
      · rw [copyBlocks, hvalue, byteAt_add]
  · -- there is no such layer, and nothing is written
    refine .inl ⟨?_, ?_⟩
    · rintro b ⟨layer', i, srcPage, page, o, x, hlayer', _, _, hkey, _⟩
      obtain ⟨rfl, _⟩ := Prod.mk.inj hkey
      exact Nat.not_lt.mpr hlayer hlayer'
    · simp only [bytesOf, if_neg (Nat.not_lt.mpr hlayer)]

end Sglang.Disaggregation.HeadSlices
