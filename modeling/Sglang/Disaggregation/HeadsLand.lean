import Mathlib.Tactic
import Sglang.Disaggregation.HeadOwnership
import Sglang.Disaggregation.HeadTransfer

/-!
# Heads Land on the Rank That Owns Them

- `LandWrite`: what the decode rank is to receive, which no two writes contradict,
- `sliceWrite_iff`: what the slices of all its writers carry,
- `Transfer.sendSlices`, `Transfer.sendStaged`: the transfers to one decode rank,
- `headsLand_iff`: they are right unless the decode ranks replicate heads that a prefill rank keeps
  several of.
-/

namespace Sglang.Disaggregation.HeadSlices

open List
open Lib (Overwrites)

variable {β : Type*}

/-! ## Section 1: What is to be received -/

/-- The pool of a rank holds the values of the request for the heads that the rank owns. -/
def Holds (g : Geometry) (heads : Nat) (own : Nat → Nat) (pages : List Nat)
    (kv : Nat → Nat → Nat → Nat → β) (pool : Pool β) : Prop :=
  ∀ layer i page o j b, layer < 2 * g.numLayers → pages[i]? = some page → o < g.pageSize →
    j < heads → b < g.bytesPerHead →
    pool layer (byteAt g heads page o (j * g.bytesPerHead + b)) =
    kv layer (i * g.pageSize + o) (own j) b

/-- The bytes of a rank that owns `own j` as its head `j`. -/
def LandWrite (g : Geometry) (heads : Nat) (own : Nat → Nat) (pages : List Nat)
    (kv : Nat → Nat → Nat → Nat → β) (key : Nat × Nat) (value : β) : Prop :=
  ∃ layer i page o j b, layer < 2 * g.numLayers ∧ pages[i]? = some page ∧ o < g.pageSize ∧
    j < heads ∧ b < g.bytesPerHead ∧ key = (layer, byteAt g heads page o (j * g.bytesPerHead + b)) ∧
    value = kv layer (i * g.pageSize + o) (own j) b

variable {g : Geometry} {heads : Nat} {own : Nat → Nat} {pages : List Nat}
  {kv : Nat → Nat → Nat → Nat → β}

theorem getElem?_inj {pages : List Nat} (hnodup : pages.Nodup) {i j page : Nat}
    (hi : pages[i]? = some page) (hj : pages[j]? = some page) : i = j := by
  have hlt : i < pages.length := (List.getElem?_eq_some_iff.mp hi).1
  exact (List.getElem?_inj hlt hnodup).mp (hi.trans hj.symm)

theorem landWrite_unique (hnodup : pages.Nodup) (key : Nat × Nat) (value value' : β)
    (h : LandWrite g heads own pages kv key value)
    (h' : LandWrite g heads own pages kv key value') :
    value = value' := by
  obtain ⟨layer, i, page, o, j, b, _, hpage, ho, hj, hb, rfl, rfl⟩ := h
  obtain ⟨layer', i', page', o', j', b', _, hpage', ho', hj', hb', hkey, rfl⟩ := h'
  obtain ⟨rfl, haddr⟩ := Prod.mk.inj hkey
  obtain ⟨rfl, rfl, hbyte⟩ := byteAt_inj ho ho' (mul_add_lt hj hb) (mul_add_lt hj' hb') haddr
  obtain ⟨rfl, rfl⟩ := mul_add_inj hb hb' hbyte
  rw [getElem?_inj hnodup hpage hpage']

theorem holds_of_overwrites (hnodup : pages.Nodup) (pool : Pool β) {result : Pool β}
    (h : Overwrites (LandWrite g heads own pages kv) (bytesOf pool) (bytesOf result)) :
    Holds g heads own pages kv result := by
  intro layer i page o j b hlayer hpage ho hj hb
  have hmem : LandWrite g heads own pages kv (layer, byteAt g heads page o (j * g.bytesPerHead + b))
      (kv layer (i * g.pageSize + o) (own j) b) :=
    ⟨layer, i, page, o, j, b, hlayer, hpage, ho, hj, hb, rfl, rfl⟩
  exact h.apply_eq hmem fun value hvalue => landWrite_unique hnodup _ _ _ hvalue hmem

theorem slice_byte {x num : Nat} (g : Geometry) (start : Nat) (hx : x < num * g.bytesPerHead) :
    x / g.bytesPerHead < num ∧ x % g.bytesPerHead < g.bytesPerHead ∧
      start * g.bytesPerHead + x =
        (start + x / g.bytesPerHead) * g.bytesPerHead + x % g.bytesPerHead := by
  refine ⟨Nat.div_lt_of_lt_mul (by rwa [Nat.mul_comm]), Nat.mod_lt _ g.bytesPerHead_pos, ?_⟩
  calc start * g.bytesPerHead + x
      = start * g.bytesPerHead + (g.bytesPerHead * (x / g.bytesPerHead) + x % g.bytesPerHead) := by
        rw [Nat.div_add_mod]
    _ = (start + x / g.bytesPerHead) * g.bytesPerHead + x % g.bytesPerHead := by ring

/-! ## Section 2: What the slices carry -/

variable {S D H d : Nat} {prefillPages : Nat → List Nat} {dstPages : List Nat}
  {kvData : Nat → Pool β}

/-- The writers of a decode rank send it the bytes it is to receive. -/
theorem sliceWrite_iff (h : Sizes S D H) (hnot : ¬ Replicated S D H) (hd : d < D)
    (hlen : ∀ r, (prefillPages r).length = dstPages.length)
    (hholds : ∀ r < S, Holds g (headsPerRank H S) (ownedHead H S r) (prefillPages r) kv (kvData r))
    (key : Nat × Nat) (value : β) :
    (∃ r ∈ resolveRankMapping D S d,
      SliceWrite g S D H d r (kvData r) (prefillPages r) dstPages key value) ↔
      LandWrite g (headsPerRank H D) (ownedHead H D d) dstPages kv key value := by
  have hranks := (mem_resolveRankMapping h hd).2.1
  constructor
  · rintro ⟨r, hr, layer, i, srcPage, page, o, x, hlayer, hsrc, hin, rfl, rfl⟩
    have hfits := slice_fits h hd hr
    obtain ⟨hk, hb, hdst⟩ := slice_byte g (computeHeadSliceParams S D r d H).dstHeadStart hin.byte
    obtain ⟨_, _, hsrcByte⟩ := slice_byte g (computeHeadSliceParams S D r d H).srcHeadStart hin.byte
    refine ⟨layer, i, page, o, (computeHeadSliceParams S D r d H).dstHeadStart + x / g.bytesPerHead,
      _, hlayer, hin.page, hin.token, ?_, hb, ?_, ?_⟩
    · have := hfits.dst
      omega
    · rw [hdst]
    · rw [hsrcByte, ← hfits.head hnot _ hk]
      apply hholds r (hranks r hr) layer i srcPage o _ _ hlayer hsrc hin.token _ hb
      have := hfits.src
      omega
  · rintro ⟨layer, i, page, o, j, b, hlayer, hpage, ho, hj, hb, rfl, rfl⟩
    obtain ⟨r, hr, k, hk, rfl⟩ := slice_covers h hd hj
    have hfits := slice_fits h hd hr
    have hlt : i < (prefillPages r).length := by
      rw [hlen]
      exact (List.getElem?_eq_some_iff.mp hpage).1
    refine ⟨r, hr, layer, i, (prefillPages r)[i], page, o, k * g.bytesPerHead + b, hlayer,
      getElem?_eq_getElem hlt, ⟨hpage, ho, mul_add_lt hk hb⟩, ?_, ?_⟩
    · rw [← Nat.add_assoc, ← Nat.add_mul]
    · rw [← hfits.head hnot k hk, ← Nat.add_assoc, ← Nat.add_mul]
      refine (hholds r (hranks r hr) layer i _ o _ b hlayer (getElem?_eq_getElem hlt) ho ?_ hb).symm
      have := hfits.src
      omega

/-! ## Section 3: The staged path -/

/-- The writes of `gather_all_layers_to_staging`: the torch loops, or the programs of the kernel in
any order. -/
inductive GatherWrites (g : Geometry) (totalHeads : Nat) (kvData : Pool β) (pages : List Nat)
    (srcHeadStart numHeads : Nat) : List (Nat × β) → Prop
  | torch : GatherWrites g totalHeads kvData pages srcHeadStart numHeads
      (gatherTorch g totalHeads kvData pages srcHeadStart numHeads)
  | triton {writes : List (Nat × β)} : writes.Perm
      (gatherTriton g totalHeads kvData pages srcHeadStart numHeads) →
      GatherWrites g totalHeads kvData pages srcHeadStart numHeads writes

/-- The writes of `scatter_staging_to_kv`. -/
inductive ScatterWrites (g : Geometry) (totalHeads : Nat) (staging : Nat → β) (pages : List Nat)
    (prefillAttnTpSize decodeAttnTpSize dstTpRank totalKvHeads : Nat) :
    List ((Nat × Nat) × β) → Prop
  | torch : ScatterWrites g totalHeads staging pages prefillAttnTpSize decodeAttnTpSize dstTpRank
      totalKvHeads
      (scatterTorch g totalHeads staging pages prefillAttnTpSize decodeAttnTpSize dstTpRank
        totalKvHeads)
  | triton {writes : List ((Nat × Nat) × β)} :
      writes.Perm
      (scatterTriton g totalHeads staging pages prefillAttnTpSize decodeAttnTpSize dstTpRank
        totalKvHeads) →
      ScatterWrites g totalHeads staging pages prefillAttnTpSize decodeAttnTpSize dstTpRank
      totalKvHeads writes

variable {totalHeads headStart numHeads : Nat} {pool : Pool β}

theorem GatherWrites.mem_iff {writes : List (Nat × β)}
    (h : GatherWrites g totalHeads pool pages headStart numHeads writes) {w : Nat × β} :
    w ∈ writes ↔ ∃ layer i page o x, layer < 2 * g.numLayers ∧
      InPages g pages (numHeads * g.bytesPerHead) i page o x ∧
      w = (stagedAt g pages.length numHeads layer i o x,
        pool layer (byteAt g totalHeads page o (headStart * g.bytesPerHead + x))) := by
  cases h with
  | torch => exact mem_gatherTorch
  | triton hperm => rw [hperm.mem_iff, mem_gatherTriton]

theorem ScatterWrites.mem_iff {totalHeads totalKvHeads : Nat} {staging : Nat → β}
    {writes : List ((Nat × Nat) × β)}
    (h : ScatterWrites g totalHeads staging pages S D d totalKvHeads writes) {w : (Nat × Nat) × β} :
    w ∈ writes ↔ ∃ wr layer i page o x, wr < numWriters S D ∧ layer < 2 * g.numLayers ∧
      InPages g pages
      ((computeHeadSliceParams S D wr d totalKvHeads).numHeadsToSend * g.bytesPerHead) i page o x ∧
      w = ((layer, byteAt g totalHeads page o
          ((computeHeadSliceParams S D wr d totalKvHeads).dstHeadStart * g.bytesPerHead + x)),
        staging (wr * rankBytes g pages.length
          (computeHeadSliceParams S D wr d totalKvHeads).numHeadsToSend +
          stagedAt g pages.length
          (computeHeadSliceParams S D wr d totalKvHeads).numHeadsToSend layer i o x)) := by
  cases h with
  | torch => exact mem_scatterTorch
  | triton hperm => rw [hperm.mem_iff, mem_scatterTriton]

theorem stagedAt_inj {numPages numHeads layer layer' i i' o o' x x' : Nat} (hi : i < numPages)
    (hi' : i' < numPages) (ho : o < g.pageSize) (ho' : o' < g.pageSize)
    (hx : x < numHeads * g.bytesPerHead)
    (hx' : x' < numHeads * g.bytesPerHead)
    (h : stagedAt g numPages numHeads layer i o x = stagedAt g numPages numHeads layer' i' o' x') :
    layer = layer' ∧ i = i' ∧ o = o' ∧ x = x' := by
  obtain ⟨hlayer, hrest⟩ :=
    mul_add_inj (mul_add_lt (mul_add_lt hi ho) hx) (mul_add_lt (mul_add_lt hi' ho') hx') h
  obtain ⟨htoken, hbyte⟩ := mul_add_inj hx hx' hrest
  obtain ⟨hpage, hoffset⟩ := mul_add_inj ho ho' htoken
  exact ⟨hlayer, hpage, hoffset, hbyte⟩

theorem stagedAt_lt {numPages numHeads layer i o x : Nat} (hlayer : layer < 2 * g.numLayers)
    (hi : i < numPages) (ho : o < g.pageSize) (hx : x < numHeads * g.bytesPerHead) :
    stagedAt g numPages numHeads layer i o x < rankBytes g numPages numHeads :=
  mul_add_lt hlayer (mul_add_lt (mul_add_lt hi ho) hx)

theorem scatter_gather_eq (staging : Nat → β)
    {writes writes' : List (Nat × β)}
    (h : GatherWrites g totalHeads pool pages headStart numHeads writes)
    (h' : GatherWrites g totalHeads pool pages headStart numHeads writes') :
    Lib.scatter staging writes = Lib.scatter staging writes' := by
  refine (Lib.overwrites_scatter staging writes).unique
    ((Lib.overwrites_scatter staging writes').congr fun k b => h'.mem_iff.trans h.mem_iff.symm) ?_
  intro k b c hb hc
  obtain ⟨layer, i, page, o, x, _, hin, hw⟩ := h.mem_iff.mp hb
  obtain ⟨layer', i', page', o', x', _, hin', hw'⟩ := h.mem_iff.mp hc
  obtain ⟨rfl, rfl⟩ := Prod.mk.inj hw
  obtain ⟨haddr, rfl⟩ := Prod.mk.inj hw'
  obtain ⟨rfl, rfl, rfl, rfl⟩ :=
    stagedAt_inj hin.lt hin'.lt hin.token hin'.token hin.byte hin'.byte haddr
  rw [Option.some.inj (hin.page.symm.trans hin'.page)]

theorem gathered_byte (staging : Nat → β)
    {writes : List (Nat × β)} (h : GatherWrites g totalHeads pool pages headStart numHeads writes)
    {layer i page o x : Nat} (hlayer : layer < 2 * g.numLayers)
    (hin : InPages g pages (numHeads * g.bytesPerHead) i page o x) :
    Lib.scatter staging writes (stagedAt g pages.length numHeads layer i o x) =
      pool layer (byteAt g totalHeads page o (headStart * g.bytesPerHead + x)) := by
  refine (Lib.overwrites_scatter staging writes).apply_eq
    (h.mem_iff.mpr ⟨layer, i, page, o, x, hlayer, hin, rfl⟩) fun c hc => ?_
  obtain ⟨layer', i', page', o', x', _, hin', hw⟩ := h.mem_iff.mp hc
  obtain ⟨haddr, rfl⟩ := Prod.mk.inj hw
  obtain ⟨rfl, rfl, rfl, rfl⟩ :=
    stagedAt_inj hin.lt hin'.lt hin.token hin'.token hin.byte hin'.byte haddr
  rw [Option.some.inj (hin.page.symm.trans hin'.page)]

/-- The bytes that prefill rank `r` puts into the staging region of the decode rank. -/
def RegionWrite (g : Geometry) (S D H d r numPages : Nat) (gathered : Nat → β) (key : Nat)
    (value : β) : Prop :=
  ∃ x < rankBytes g numPages (computeHeadSliceParams S D r d H).numHeadsToSend,
    key = r % numWriters S D *
    rankBytes g numPages (computeHeadSliceParams S D r d H).numHeadsToSend + x ∧ value = gathered x

theorem computeStagingLayout_eq (g : Geometry) (S D d H numPages r : Nat) :
    computeStagingLayout S D d H (numPages * g.pageSize)
    (g.headDim * g.dtypeSize.bytes) g.numLayers = (numWriters S D, List.replicate (numWriters S D)
          (rankBytes g numPages (computeHeadSliceParams S D r d H).numHeadsToSend),
        numWriters S D * rankBytes g numPages
        (computeHeadSliceParams S D r d H).numHeadsToSend) := by
  have hmap : (List.range (numWriters S D)).map (fun wr => numPages * g.pageSize *
      (computeHeadSliceParams S D wr d H).numHeadsToSend * (g.headDim * g.dtypeSize.bytes) *
      g.numLayers * 2) =
      List.replicate (numWriters S D)
      (rankBytes g numPages (computeHeadSliceParams S D r d H).numHeadsToSend) := by
    apply eq_replicate_iff.mpr
    refine ⟨by rw [length_map, length_range], fun b hb => ?_⟩
    obtain ⟨wr, _, rfl⟩ := mem_map.mp hb
    rw [numHeadsToSend_eq S D wr r d H, rankBytes, Geometry.bytesPerHead]
    ring
  simp only [computeStagingLayout, hmap, sum_replicate, smul_eq_mul]

/-- One prefill rank sends its slice through the staging buffers. -/
theorem overwrites_sendKvcacheStaged (engine : TransferEngine β) {r numPages : Nat} (hr : r < S)
    (hwriters : 0 < numWriters S D) (gather : HeadSlice → List (Nat × β)) (staging : Nat → β)
    (dstStaging : Nat → β)
    {stagingSize dstStagingSize : Nat}
    (hsize : rankBytes g numPages (computeHeadSliceParams S D r d H).numHeadsToSend ≤ stagingSize)
    (hdst : numWriters S D *
      rankBytes g numPages (computeHeadSliceParams S D r d H).numHeadsToSend ≤
      dstStagingSize) :
    ∃ region, sendKvcacheStaged engine g S r H gather numPages staging stagingSize dstStagingSize d
    D dstStaging = some region ∧
      Overwrites (RegionWrite g S D H d r numPages
        (Lib.scatter staging (gather (computeHeadSliceParams S D r d H)))) dstStaging region := by
  have hindex : (if numWriters S D > 1 then r % numWriters S D else 0) = r % numWriters S D := by
    split
    · rfl
    · next hle =>
      have : numWriters S D = 1 := by omega
      rw [this, Nat.mod_one]
  have hoffset : ((List.replicate (numWriters S D)
      (rankBytes g numPages (computeHeadSliceParams S D r d H).numHeadsToSend)).take
      (r % numWriters S D)).sum =
      r % numWriters S D *
        rankBytes g numPages (computeHeadSliceParams S D r d H).numHeadsToSend := by
    rw [take_replicate, Nat.min_eq_left (Nat.mod_lt r hwriters).le, sum_replicate, smul_eq_mul]
  have hsend : sendKvcacheStaged engine g S r H gather numPages staging stagingSize dstStagingSize
      d D dstStaging =
    some (copyBlocks (Lib.scatter staging (gather (computeHeadSliceParams S D r d H))) dstStaging
        [(0, r % numWriters S D *
          rankBytes g numPages (computeHeadSliceParams S D r d H).numHeadsToSend,
          rankBytes g numPages (computeHeadSliceParams S D r d H).numHeadsToSend)]) := by
    simp only [sendKvcacheStaged, Nat.mod_eq_of_lt hr, computeStagingLayout_eq g S D d H numPages r,
      layerBytes_eq, rankBytes_eq, hindex, hoffset, if_neg (Nat.not_lt.mpr hsize),
        if_neg (Nat.not_lt.mpr hdst), engine.copies]
  refine ⟨_, hsend, (Lib.overwrites_scatter dstStaging _).congr fun key value => ?_⟩
  rw [mem_copyBlocks]
  constructor
  · rintro ⟨s, t, len, hmem, x, hx, hw⟩
    obtain ⟨rfl, htail⟩ := Prod.mk.inj (mem_singleton.mp hmem)
    obtain ⟨rfl, rfl⟩ := Prod.mk.inj htail
    obtain ⟨hkey, hvalue⟩ := Prod.mk.inj hw
    rw [Nat.zero_add] at hvalue
    exact ⟨x, hx, hkey, hvalue⟩
  · rintro ⟨x, hx, hkey, hvalue⟩
    refine ⟨_, _, _, mem_singleton_self _, x, hx, ?_⟩
    rw [hkey, hvalue, Nat.zero_add]

theorem region_byte (h : Sizes S D H) (hd : d < D) {numPages r x : Nat} {gathered : Nat → Nat → β}
    (hr : r ∈ resolveRankMapping D S d)
    (hx : x < rankBytes g numPages (computeHeadSliceParams S D r d H).numHeadsToSend)
    {order : List Nat}
    (horder : order.Perm (resolveRankMapping D S d)) {region₀ region : Nat → β}
    (hregion : Overwrites (fun key value => ∃ r ∈ order,
      RegionWrite g S D H d r numPages (gathered r) key value)
      region₀ region) :
    region (r % numWriters S D *
      rankBytes g numPages (computeHeadSliceParams S D r d H).numHeadsToSend + x) =
        gathered r x := by
  apply hregion.apply_eq
  · exact ⟨r, horder.mem_iff.mpr hr, x, hx, rfl, rfl⟩
  · rintro value ⟨r', hr', x', hx', hkey, rfl⟩
    rw [numHeadsToSend_eq S D r' r d H] at hx' hkey
    obtain ⟨hwriter, rfl⟩ := mul_add_inj hx hx' hkey
    rw [(mem_resolveRankMapping h hd).2.2.1 r hr r' (horder.mem_iff.mp hr') hwriter]

theorem scatter_region_iff (h : Sizes S D H) (hd : d < D) {gathered : Nat → Nat → β}
    {region : Nat → β} (hlen : ∀ r, (prefillPages r).length = dstPages.length)
    (hgathered : ∀ r ∈ resolveRankMapping D S d, ∀ layer i page o x, layer < 2 * g.numLayers →
      InPages g (prefillPages r)
      ((computeHeadSliceParams S D r d H).numHeadsToSend * g.bytesPerHead) i page o x →
      gathered r (stagedAt g dstPages.length (computeHeadSliceParams S D r d H).numHeadsToSend layer
        i o x) = kvData r layer (byteAt g (headsPerRank H S) page o
          ((computeHeadSliceParams S D r d H).srcHeadStart * g.bytesPerHead + x)))
    (hregion : ∀ r ∈ resolveRankMapping D S d,
      ∀ x < rankBytes g dstPages.length (computeHeadSliceParams S D r d H).numHeadsToSend,
      region (r % numWriters S D * rankBytes g dstPages.length
        (computeHeadSliceParams S D r d H).numHeadsToSend + x) = gathered r x)
    {writes : List ((Nat × Nat) × β)}
    (hwrites : ScatterWrites g (headsPerRank H D) region dstPages S D d
      (headsPerRank H D * D) writes)
    (key : Nat × Nat) (value : β) : (key, value) ∈ writes ↔
      ∃ r ∈ resolveRankMapping D S d,
        SliceWrite g S D H d r (kvData r) (prefillPages r) dstPages key value := by
  obtain ⟨hpos, _, _, hsurj⟩ := mem_resolveRankMapping h hd
  rw [hwrites.mem_iff]
  -- a byte of the region, traced back to the pool of the writer
  have hbyte {r layer i srcPage page o x : Nat} (hr : r ∈ resolveRankMapping D S d)
      (hlayer : layer < 2 * g.numLayers) (hsrc : (prefillPages r)[i]? = some srcPage)
      (hin : InPages g dstPages ((computeHeadSliceParams S D r d H).numHeadsToSend * g.bytesPerHead)
        i page o x) :
      region (r % numWriters S D * rankBytes g dstPages.length
        (computeHeadSliceParams S D r d H).numHeadsToSend +
          stagedAt g dstPages.length (computeHeadSliceParams S D r d H).numHeadsToSend layer i
            o x) =
        kvData r layer (byteAt g (headsPerRank H S) srcPage o
          ((computeHeadSliceParams S D r d H).srcHeadStart * g.bytesPerHead + x)) := by
    rw [hregion r hr _ (stagedAt_lt hlayer hin.lt hin.token hin.byte)]
    exact hgathered r hr layer i srcPage o x hlayer ⟨hsrc, hin.token, hin.byte⟩
  constructor
  · rintro ⟨wr, layer, i, page, o, x, hwr, hlayer, hin, hw⟩
    obtain ⟨r, hr, rfl⟩ := hsurj wr hwr
    obtain ⟨hnum, hstart⟩ := slice_writer h hd hr
    rw [hnum] at hin hw
    rw [hstart] at hw
    have hlt : i < (prefillPages r).length := by
      rw [hlen]
      exact hin.lt
    have hsrc := getElem?_eq_getElem hlt
    rw [hbyte hr hlayer hsrc hin] at hw
    obtain ⟨hkey, hvalue⟩ := Prod.mk.inj hw
    exact ⟨r, hr, layer, i, _, page, o, x, hlayer, hsrc, hin, hkey, hvalue⟩
  · rintro ⟨r, hr, layer, i, srcPage, page, o, x, hlayer, hsrc, hin, hkey, hvalue⟩
    obtain ⟨hnum, hstart⟩ := slice_writer h hd hr
    refine ⟨r % numWriters S D, layer, i, page, o, x, Nat.mod_lt r hpos, hlayer, ?_, ?_⟩
    · rw [hnum]
      exact hin
    · rw [hnum, hstart, hbyte hr hlayer hsrc hin, hkey, hvalue]

/-! ## Section 4: Transfers -/

/-- A transfer of the pages of a request to decode rank `d`, by prefill ranks that hold its
values. -/
structure Transfer (S D H d : Nat) where
  engine : TransferEngine UInt8
  geometry : Geometry
  /-- The byte of the value for a layer, token and head. -/
  kv : Nat → Nat → Nat → Nat → UInt8
  prefillPages : Nat → List Nat
  kvData : Nat → Pool UInt8
  dstPages : List Nat
  dstKvData : Pool UInt8
  /-- The order in which the prefill ranks happen to send. -/
  order : List Nat
  length_eq : ∀ r, (prefillPages r).length = dstPages.length
  nodup : dstPages.Nodup
  holds : ∀ r < S,
    Holds geometry (headsPerRank H S) (ownedHead H S r) (prefillPages r) kv (kvData r)
  perm : order.Perm (resolveRankMapping D S d)

/-- The staging buffers of a transfer, and how each prefill rank fills its own. -/
structure Staging (S D H d : Nat) (t : Transfer S D H d) where
  staging : Nat → Nat → UInt8
  stagingSize : Nat → Nat
  dstStaging : Nat → UInt8
  dstStagingSize : Nat
  gather : Nat → HeadSlice → List (Nat × UInt8)
  gathers : ∀ r slice, GatherWrites t.geometry (headsPerRank H S) (t.kvData r) (t.prefillPages r)
    slice.srcHeadStart slice.numHeadsToSend (gather r slice)

namespace Transfer

variable {S D H d : Nat} (t : Transfer S D H d)

/-- Every writer sends its slice token by token. -/
def sendSlices : Option (Pool UInt8) :=
  t.order.foldlM (fun pool r =>
    sendKvcacheSlice t.engine t.geometry S r H (t.kvData r) (t.prefillPages r) t.dstPages
    d D (t.geometry.kvItemLen (headsPerRank H D)) pool) t.dstKvData

/-- Every writer sends its slice through the staging buffers. -/
def sendStaged (b : Staging S D H d t) : Option (Nat → UInt8) :=
  t.order.foldlM (fun region r =>
    sendKvcacheStaged t.engine t.geometry S r H (b.gather r) t.dstPages.length
    (b.staging r) (b.stagingSize r) b.dstStagingSize d D region) b.dstStaging

def layout : Nat × List Nat × Nat :=
  computeStagingLayout S D d H (t.dstPages.length * t.geometry.pageSize)
    (t.geometry.headDim * t.geometry.dtypeSize.bytes) t.geometry.numLayers

/-- The decode rank has the values of the heads that it owns. -/
def Lands (result : Pool UInt8) : Prop :=
  Holds t.geometry (headsPerRank H D) (ownedHead H D d) t.dstPages t.kv result

end Transfer

/-- Heads land on the rank that owns them. -/
structure HeadsLand (S D H : Nat) : Prop where
  perToken : ∀ d < D, ∀ t : Transfer S D H d, ∃ result, t.sendSlices = some result ∧ t.Lands result
  staged : ∀ d < D, ∀ (t : Transfer S D H d) (b : Staging S D H d t),
    (∀ r ∈ t.order, ∀ bytes ∈ t.layout.2.1, bytes ≤ b.stagingSize r) →
    t.layout.2.2 ≤ b.dstStagingSize →
    ∃ region, t.sendStaged b = some region ∧
      ∀ writes, ScatterWrites t.geometry (headsPerRank H D) region t.dstPages S D d
      (headsPerRank H D * D) writes → t.Lands (store t.dstKvData writes) ∧
          store t.dstKvData writes =
          store t.dstKvData (scatterTorch t.geometry (headsPerRank H D) region t.dstPages
            S D d (headsPerRank H D * D))
  gather : ∀ (g : Geometry) (totalHeads : Nat) (kvData : Pool UInt8) (pages : List Nat)
    (srcHeadStart numHeads : Nat) (staging : Nat → UInt8) (writes : List (Nat × UInt8)),
    GatherWrites g totalHeads kvData pages srcHeadStart numHeads writes →
      Lib.scatter staging writes =
        Lib.scatter staging (gatherTorch g totalHeads kvData pages srcHeadStart numHeads)

/-! ## Section 5: When heads land -/

section Lands

variable (h : Sizes S D H) (hnot : ¬ Replicated S D H) (hd : d < D) (t : Transfer S D H d)
include h hnot hd

theorem lands_sendSlices : ∃ result, t.sendSlices = some result ∧ t.Lands result := by
  have hsend : ∀ r ∈ t.order, ∀ pool : Pool UInt8, ∃ result,
      sendKvcacheSlice t.engine t.geometry S r H (t.kvData r) (t.prefillPages r) t.dstPages d D
        (t.geometry.kvItemLen (headsPerRank H D)) pool = some result ∧
      Overwrites (SliceWrite t.geometry S D H d r (t.kvData r) (t.prefillPages r) t.dstPages)
      (bytesOf pool)
        (bytesOf result) := by
    intro r hr pool
    apply overwrites_sendKvcacheSlice
    have := (slice_fits h hd (t.perm.mem_iff.mp hr)).dst
    omega
  obtain ⟨result, hresult, hwrites⟩ := Overwrites.foldlM hsend t.dstKvData
  refine ⟨result, hresult,
    holds_of_overwrites t.nodup t.dstKvData (hwrites.congr fun key value => ?_)⟩
  rw [← sliceWrite_iff h hnot hd t.length_eq t.holds]
  simp only [t.perm.mem_iff]

theorem lands_sendStaged (b : Staging S D H d t)
    (hsize : ∀ r ∈ t.order, ∀ bytes ∈ t.layout.2.1, bytes ≤ b.stagingSize r)
    (hdst : t.layout.2.2 ≤ b.dstStagingSize) : ∃ region, t.sendStaged b = some region ∧
      ∀ writes, ScatterWrites t.geometry (headsPerRank H D) region t.dstPages S D d
      (headsPerRank H D * D) writes → t.Lands (store t.dstKvData writes) ∧
          store t.dstKvData writes = store t.dstKvData
          (scatterTorch t.geometry (headsPerRank H D) region t.dstPages
            S D d (headsPerRank H D * D)) := by
  obtain ⟨hpos, hlt, -, -⟩ := mem_resolveRankMapping h hd
  have hsend : ∀ r ∈ t.order, ∀ region, ∃ region',
    sendKvcacheStaged t.engine t.geometry S r H (b.gather r)
        t.dstPages.length (b.staging r) (b.stagingSize r) b.dstStagingSize d D region =
        some region' ∧
      Overwrites (RegionWrite t.geometry S D H d r t.dstPages.length
        (Lib.scatter (b.staging r) (b.gather r (computeHeadSliceParams S D r d H)))) region
        region' := by
    intro r hr region
    have hlayout := computeStagingLayout_eq t.geometry S D d H t.dstPages.length r
    apply overwrites_sendKvcacheStaged t.engine (hlt r (t.perm.mem_iff.mp hr)) hpos
    · apply hsize r hr
      rw [Transfer.layout, hlayout]
      exact mem_replicate.mpr ⟨hpos.ne', rfl⟩
    · rw [Transfer.layout, hlayout] at hdst
      exact hdst
  obtain ⟨region, hregion, hwritten⟩ := Overwrites.foldlM hsend b.dstStaging
  -- every scatter writes what the slices carry
  have hmem (writes : List ((Nat × Nat) × UInt8))
    (hwrites : ScatterWrites t.geometry (headsPerRank H D) region
      t.dstPages S D d (headsPerRank H D * D) writes) (key : Nat × Nat) (value : UInt8) :
      (key, value) ∈ writes ↔
      LandWrite t.geometry (headsPerRank H D) (ownedHead H D d) t.dstPages t.kv key value := by
    rw [← sliceWrite_iff h hnot hd t.length_eq t.holds]
    refine scatter_region_iff h hd t.length_eq ?_ (fun r hr x hx =>
      region_byte h hd hr hx t.perm hwritten) hwrites
      key value
    intro r _ layer i page o x hlayer hin
    have hbyte :=
      gathered_byte (b.staging r) (b.gathers r (computeHeadSliceParams S D r d H)) hlayer hin
    rwa [t.length_eq] at hbyte
  have hstore (writes : List ((Nat × Nat) × UInt8))
    (hwrites : ScatterWrites t.geometry (headsPerRank H D) region
      t.dstPages S D d (headsPerRank H D * D) writes) :
      Overwrites (LandWrite t.geometry (headsPerRank H D) (ownedHead H D d) t.dstPages t.kv)
      (bytesOf t.dstKvData)
        (bytesOf (store t.dstKvData writes)) :=
    (Lib.overwrites_scatter _ writes).congr (hmem writes hwrites)
  refine ⟨region, hregion, fun writes hwrites =>
    ⟨holds_of_overwrites t.nodup t.dstKvData (hstore writes hwrites), ?_⟩⟩
  have heq := (hstore writes hwrites).unique (hstore _ .torch) (landWrite_unique t.nodup)
  funext layer offset
  exact congrFun heq (layer, offset)

end Lands

/-- The decode ranks replicate heads that a prefill rank keeps several of: rank 1 gets a head that
it does not own. -/
theorem not_headsLand (h : Sizes S D H) (hrep : Replicated S D H) : ¬ HeadsLand S D H := by
  intro hland
  obtain ⟨hD, hmap, hslice, hdst, hsrc, hsent, howned⟩ := slice_head_wrong h hrep
  let g : Geometry := ⟨1, 1, 1, .one, Nat.one_pos, Nat.one_pos⟩
  let kv : Nat → Nat → Nat → Nat → UInt8 := fun _ _ head _ => if head = 0 then 0 else 1
  let t : Transfer S D H 1 :=
    { engine := ⟨copyBlocks, fun _ _ _ => rfl⟩
      geometry := g
      kv := kv
      prefillPages := fun _ => [0]
      -- one token of one byte for each head
      kvData := fun r layer offset => kv layer 0 (ownedHead H S r offset) 0
      dstPages := [0]
      dstKvData := fun _ _ => 0
      order := resolveRankMapping D S 1
      length_eq := fun _ => rfl
      nodup := nodup_singleton 0
      holds := by
        intro r _ layer i page o j b _ hpage ho _ hb
        obtain rfl : i = 0 := by
          have := (List.getElem?_eq_some_iff.mp hpage).1
          exact Nat.lt_one_iff.mp this
        cases hpage
        obtain rfl : o = 0 := Nat.lt_one_iff.mp ho
        obtain rfl : b = 0 := Nat.lt_one_iff.mp hb
        simp [byteAt, g, Geometry.bytesPerHead, DtypeSize.bytes]
      perm := List.Perm.refl _ }
  obtain ⟨result, hresult, hlands⟩ := hland.perToken 1 hD t
  have hnum : (computeHeadSliceParams S D 0 1 H).numHeadsToSend ≤ headsPerRank H D := by
    rw [hslice, hdst]
  obtain ⟨result', hresult', hwrites⟩ :=
    overwrites_sendKvcacheSlice t.engine (g := g) hnum (t.kvData 0) [0] [0]
    t.dstKvData
  have heq : result' = result := by
    have horder : t.order = [0] := hmap
    rw [Transfer.sendSlices, horder] at hresult
    rw [foldlM_cons, hresult'] at hresult
    exact Option.some.inj hresult
  subst heq
  -- the byte of the only head, which is head 0
  have howner : result' 0 (byteAt g (headsPerRank H D) 0 0 (0 * g.bytesPerHead + 0)) = 0 := by
    rw [hlands 0 0 0 0 0 0 Nat.two_pos rfl Nat.one_pos
      (by rw [hdst]; exact Nat.one_pos) Nat.one_pos]
    show (if ownedHead H D 1 0 = 0 then (0 : UInt8) else 1) = 0
    rw [if_pos howned]
  -- head 1 was sent
  have hvalue : result' 0 (byteAt g (headsPerRank H D) 0 0 (0 * g.bytesPerHead + 0)) = 1 := by
    have hdstByte : (0 : Nat) * g.bytesPerHead + 0 =
        (computeHeadSliceParams S D 0 1 H).dstHeadStart * g.bytesPerHead + 0 := by rw [hslice]
    have hsrcByte : byteAt g (headsPerRank H S) 0 0
        ((computeHeadSliceParams S D 0 1 H).srcHeadStart * g.bytesPerHead + 0) = 1 := by
      rw [hslice]
      simp [byteAt, g, Geometry.bytesPerHead, DtypeSize.bytes]
    rcases hwrites (0, byteAt g (headsPerRank H D) 0 0 (0 * g.bytesPerHead + 0))
      with ⟨hno, _⟩ | hmem
    · refine (hno _ ⟨0, 0, 0, 0, 0, 0, Nat.two_pos, rfl, ⟨rfl, Nat.one_pos, ?_⟩, by rw [hdstByte],
        rfl⟩).elim
      rw [hslice]
      exact Nat.one_pos
    · obtain ⟨layer, i, srcPage, page, o, x, _, hpage, hin, _, hbyte⟩ := hmem
      obtain rfl : i = 0 := by
        have : i < [0].length := hin.lt
        exact Nat.lt_one_iff.mp this
      cases hpage
      obtain rfl : o = 0 := Nat.lt_one_iff.mp hin.token
      obtain rfl : x = 0 := by
        have hx := hin.byte
        rw [hslice] at hx
        exact Nat.lt_one_iff.mp hx
      rw [hsrcByte] at hbyte
      refine hbyte.trans ?_
      show (if ownedHead H S 0 1 = 0 then (0 : UInt8) else 1) = 1
      rw [hsent, if_neg Nat.one_ne_zero]
  rw [howner] at hvalue
  exact absurd hvalue (by decide)

/-- Heads land unless the decode ranks replicate heads that a prefill rank keeps several of. -/
theorem headsLand_iff (h : Sizes S D H) : HeadsLand S D H ↔ ¬ Replicated S D H := by
  constructor
  · intro hland hrep
    exact not_headsLand h hrep hland
  · intro hnot
    exact
      { perToken := fun _ hd t => lands_sendSlices h hnot hd t
        staged := fun _ hd t b => lands_sendStaged h hnot hd t b
        gather := fun _ _ _ _ _ _ staging _ hwrites => scatter_gather_eq staging hwrites .torch }

theorem sizes_two_four : Sizes 2 4 8 := by
  refine ⟨by decide, by decide, by decide, .inl ⟨2, rfl⟩, .inl ⟨4, rfl⟩, .inl ⟨2, rfl⟩⟩

theorem headsLand_two_four : HeadsLand 2 4 8 ↔ ¬ Replicated 2 4 8 := headsLand_iff sizes_two_four

/-- One prefill rank and two heads, each on two decode ranks. -/
theorem not_headsLand_one_four : Sizes 1 4 2 ∧ ¬ HeadsLand 1 4 2 := by
  have h : Sizes 1 4 2 :=
    ⟨by decide, by decide, by decide, .inl ⟨4, rfl⟩, .inl ⟨2, rfl⟩, .inr ⟨2, rfl⟩⟩
  exact ⟨h, not_headsLand h (by decide)⟩

end Sglang.Disaggregation.HeadSlices
