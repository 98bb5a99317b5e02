import Mathlib.Tactic
import Sglang.Lib.Scatter

/-!
# KV Heads Between Different TP Sizes

Model of how the KV cache of a request goes from the prefill ranks to a decode rank when their TP
sizes differ (`disaggregation/common/conn.py`, `disaggregation/common/staging_buffer.py`,
`disaggregation/mooncake/conn.py`).

- `resolveRankMapping`: the prefill ranks a decode rank receives from,
- `computeHeadSliceParams`, `computeStagingLayout`: which heads, and where,
- `sendKvcacheSlice`: one copy for each token,
- `sendKvcacheStaged`, `scatterTorch`, `scatterTriton`: through the staging buffers.

## Conventions

- A pool has one buffer for each layer, first those of the keys and then those of the values; a
  buffer is the byte at each offset from its pointer.
- A store is a list of writes, the later ones winning. The writes of a Triton kernel have no order:
  where it matters they are given as a list up to permutation.
- `return -1` is `none`.
-/

namespace Sglang.Disaggregation.HeadSlices

/-! ## Section 1: Ranks and heads -/

/-- `max(1, total_kv_heads // tp_size)`. -/
def headsPerRank (totalKvHeads tpSize : Nat) : Nat := max 1 (totalKvHeads / tpSize)

/-- The head that a rank keeps as its local head `j`. -/
def ownedHead (totalKvHeads tpSize rank j : Nat) : Nat :=
  if tpSize ≤ totalKvHeads then rank * (totalKvHeads / tpSize) + j
    else rank / (tpSize / totalKvHeads)

/-- `target_tp_ranks` of `_resolve_rank_mapping`. -/
def resolveRankMapping (attnTpSize prefillTpSize engineRank : Nat) : List Nat :=
  if attnTpSize = prefillTpSize then [engineRank % attnTpSize]
  else if attnTpSize > prefillTpSize then
    [engineRank % attnTpSize / (attnTpSize / prefillTpSize)]
  else
    List.range' (engineRank % attnTpSize * (prefillTpSize / attnTpSize))
      ((engineRank % attnTpSize + 1) * (prefillTpSize / attnTpSize) -
        engineRank % attnTpSize * (prefillTpSize / attnTpSize))

structure HeadSlice where
  srcHeadStart : Nat
  numHeadsToSend : Nat
  dstHeadStart : Nat
deriving DecidableEq, Repr

def computeHeadSliceParams (srcAttnTpSize dstAttnTpSize srcTpRank dstTpRank totalKvHeads : Nat) :
    HeadSlice :=
  let srcHeadsPerRank := headsPerRank totalKvHeads srcAttnTpSize
  let dstHeadsPerRank := headsPerRank totalKvHeads dstAttnTpSize
  let localTpRank := srcTpRank % srcAttnTpSize
  let dstTpRankInGroup := dstTpRank % dstAttnTpSize
  if srcAttnTpSize > dstAttnTpSize then
    let srcReplication := max 1 (srcAttnTpSize / totalKvHeads)
    let uniqueHeadIdx := localTpRank / srcReplication
    { srcHeadStart := 0
      numHeadsToSend := srcHeadsPerRank
      dstHeadStart := uniqueHeadIdx * srcHeadsPerRank % dstHeadsPerRank }
  else
    { srcHeadStart := dstTpRankInGroup * dstHeadsPerRank % srcHeadsPerRank
      numHeadsToSend := dstHeadsPerRank
      dstHeadStart := 0 }

/-- The ranks that write to one decode rank. -/
def numWriters (srcAttnTpSize dstAttnTpSize : Nat) : Nat :=
  if srcAttnTpSize > dstAttnTpSize then srcAttnTpSize / max 1 dstAttnTpSize else 1

/-- `compute_staging_layout`: the writers, the bytes of each, and all bytes. -/
def computeStagingLayout
    (srcAttnTpSize dstAttnTpSize dstTpRank totalKvHeads numTokens bytesPerHeadToken
    numLayers : Nat) : Nat × List Nat × Nat :=
  let writers := numWriters srcAttnTpSize dstAttnTpSize
  let writerBytes := (List.range writers).map fun wr =>
    numTokens *
      (computeHeadSliceParams srcAttnTpSize dstAttnTpSize wr dstTpRank
        totalKvHeads).numHeadsToSend * bytesPerHeadToken * numLayers * 2
  (writers, writerBytes, writerBytes.sum)

/-! ## Section 2: Memory -/

/-- The element sizes of KV pools. -/
inductive DtypeSize where
  | one
  | two
  | four
deriving DecidableEq, Repr

def DtypeSize.bytes : DtypeSize → Nat
  | .one => 1
  | .two => 2
  | .four => 4

/-- What both sides agree on. -/
structure Geometry where
  pageSize : Nat
  numLayers : Nat
  headDim : Nat
  dtypeSize : DtypeSize
  pageSize_pos : 0 < pageSize
  headDim_pos : 0 < headDim

namespace Geometry

variable (g : Geometry)

def bytesPerHead : Nat := g.headDim * g.dtypeSize.bytes

/-- `kv_item_lens[0]`: the bytes of one page. -/
def kvItemLen (heads : Nat) : Nat := g.pageSize * (heads * g.bytesPerHead)

end Geometry

variable {β : Type*}

/-- The byte at an offset of the buffer of a layer. -/
abbrev Pool (β : Type*) := Nat → Nat → β

/-- The transfer engine, which copies every block `(source, destination, length)`. -/
def copyBlocks (src dst : Nat → β) (blocks : List (Nat × Nat × Nat)) : Nat → β :=
  Lib.scatter dst (blocks.flatMap fun block =>
    (List.range block.2.2).map fun x => (block.2.1 + x, src (block.1 + x)))

structure TransferEngine (β : Type*) where
  batchTransferSync : (Nat → β) → (Nat → β) → List (Nat × Nat × Nat) → Nat → β
  copies : ∀ src dst blocks, batchTransferSync src dst blocks = copyBlocks src dst blocks

/-! ## Section 3: The per-token path -/

/-- The blocks of `process_layer_tp_aware`, relative to the pointers of the layer. -/
def sliceBlocks (pageSize : Nat) (prefillKvIndices dstKvIndices : List Nat)
    (srcKvItemLen dstKvItemLen
    srcHeadSliceOffset dstHeadSliceOffset length : Nat) : List (Nat × Nat × Nat) :=
  let srcAddrs := prefillKvIndices.flatMap fun page => (List.range pageSize).map fun token =>
    page * srcKvItemLen + (token * (srcKvItemLen / pageSize) + srcHeadSliceOffset)
  let dstAddrs := dstKvIndices.flatMap fun page => (List.range pageSize).map fun token =>
    page * dstKvItemLen + (token * (dstKvItemLen / pageSize) + dstHeadSliceOffset)
  List.zipWith (fun src dst => (src, dst, length)) srcAddrs dstAddrs

/-- `send_kvcache_slice` of a prefill rank. -/
def sendKvcacheSlice (engine : TransferEngine β) (g : Geometry)
    (attnTpSize engineRank totalKvHeads : Nat) (kvData : Pool β) (prefillKvIndices : List Nat)
    (dstKvIndices : List Nat) (dstTpRank dstAttnTpSize : Nat)
    (dstKvItemLen : Nat) (dstKvData : Pool β) : Option (Pool β) :=
  let localTpRankInGroup := engineRank % attnTpSize
  let dstTpRankInGroup := dstTpRank % dstAttnTpSize
  let srcHeadsPerRank := headsPerRank totalKvHeads attnTpSize
  let dstHeadsPerRank := headsPerRank totalKvHeads dstAttnTpSize
  let srcKvItemLen := g.kvItemLen srcHeadsPerRank
  let bytesPerHeadSliceToSend := dstKvItemLen / g.pageSize / dstHeadsPerRank
  let srcReplication := max 1 (attnTpSize / totalKvHeads)
  let slice : HeadSlice :=
    if attnTpSize > dstAttnTpSize then
      let uniqueHeadIdx := localTpRankInGroup / srcReplication
      { srcHeadStart := 0
        numHeadsToSend := srcHeadsPerRank
        dstHeadStart := uniqueHeadIdx * srcHeadsPerRank % dstHeadsPerRank }
    else
      { srcHeadStart := dstTpRankInGroup * dstHeadsPerRank % srcHeadsPerRank
        numHeadsToSend := dstHeadsPerRank
        dstHeadStart := 0 }
  let headsBytesPerTokenToSend := slice.numHeadsToSend * bytesPerHeadSliceToSend
  if headsBytesPerTokenToSend > dstKvItemLen / g.pageSize then none
  else
    let blocks := sliceBlocks g.pageSize prefillKvIndices dstKvIndices srcKvItemLen dstKvItemLen
      (slice.srcHeadStart * bytesPerHeadSliceToSend) (slice.dstHeadStart * bytesPerHeadSliceToSend)
      headsBytesPerTokenToSend
    some fun layer =>
      if layer < 2 * g.numLayers then
        engine.batchTransferSync (kvData layer) (dstKvData layer) blocks
      else dstKvData layer

/-! ## Section 4: Into the staging buffer -/

def tokenIndices (pageSize : Nat) (pages : List Nat) : List Nat :=
  if pageSize = 1 then pages
  else pages.flatMap fun page => (List.range pageSize).map fun offset => page * pageSize + offset

/-- `for layer_id in range(num_layers)`: the buffer of the layer, and the growing `offset`. -/
def forLayers {ω : Type*} (body : Nat → Nat → List ω) (perLayerBytes : Nat) : List Nat → Nat →
    List ω × Nat
  | [], offset => ([], offset)
  | layer :: layers, offset =>
    let (writes, final) := forLayers body perLayerBytes layers (offset + perLayerBytes)
    (body layer offset ++ writes, final)

/-- Both loops: over the keys, then over the values. -/
def forKeysAndValues {ω : Type*} (body : Nat → Nat → List ω)
    (perLayerBytes numLayers offset : Nat) :
    List ω :=
  let (keys, offset) := forLayers body perLayerBytes (List.range numLayers) offset
  let (values, _) := forLayers body perLayerBytes (List.range' numLayers numLayers) offset
  keys ++ values

/-- `gather_kv_head_slices`: the heads of one token are neighbours. -/
def gatherKvHeadSlices (g : Geometry) (totalHeads : Nat) (buffer : Nat → β) (tokens : List Nat)
    (headStart numHeads offset : Nat) : List (Nat × β) :=
  tokens.zipIdx.flatMap fun token =>
    (List.range (numHeads * g.bytesPerHead)).map fun x =>
      (offset + (token.2 * (numHeads * g.bytesPerHead) + x),
        buffer (token.1 * (totalHeads * g.bytesPerHead) + headStart * g.bytesPerHead + x))

/-- `_gather_all_layers_torch`. -/
def gatherTorch (g : Geometry) (totalHeads : Nat) (kvData : Pool β) (pages : List Nat)
    (srcHeadStart numHeads : Nat) : List (Nat × β) :=
  let numTokens := pages.length * g.pageSize
  let perLayerBytes := numTokens * numHeads * g.headDim * g.dtypeSize.bytes
  forKeysAndValues (fun layer offset =>
    gatherKvHeadSlices g totalHeads (kvData layer) (tokenIndices g.pageSize pages) srcHeadStart
      numHeads offset)
    perLayerBytes g.numLayers 0

def blockSize : Nat := 1024

def cdiv (x y : Nat) : Nat := (x + y - 1) / y

/-- The offsets of one program that its mask lets through. -/
def programOffsets (blockId perLayerElems : Nat) : List Nat :=
  ((List.range blockSize).map fun lane => blockId * blockSize + lane).filter (· < perLayerElems)

/-- `_fused_gather_to_staging_kernel` of one program: elements of the integer type. -/
def gatherKernel (g : Geometry) (kvData : Pool β) (pages : List Nat)
    (stridePoolToken headOffset perLayerElems
    elemsPerToken layerId blockId : Nat) : List (Nat × β) :=
  (programOffsets blockId perLayerElems).flatMap fun offset =>
    let tIdx := offset / elemsPerToken
    let eIdx := offset % elemsPerToken
    let poolToken := pages.getD (tIdx / g.pageSize) 0 * g.pageSize + tIdx % g.pageSize
    let src := poolToken * stridePoolToken + headOffset + eIdx
    let dst := layerId * perLayerElems + offset
    (List.range g.dtypeSize.bytes).map fun b =>
      (dst * g.dtypeSize.bytes + b, kvData layerId (src * g.dtypeSize.bytes + b))

/-- `_gather_all_layers_triton`: the programs of the grid. -/
def gatherTriton (g : Geometry) (totalHeads : Nat) (kvData : Pool β) (pages : List Nat)
    (srcHeadStart numHeads : Nat) : List (Nat × β) :=
  let numTokens := pages.length * g.pageSize
  let elemsPerToken := numHeads * g.headDim
  let perLayerElems := numTokens * elemsPerToken
  (List.range (2 * g.numLayers)).flatMap fun layerId =>
    (List.range (cdiv perLayerElems blockSize)).flatMap fun blockId =>
      gatherKernel g kvData pages (totalHeads * g.headDim) (srcHeadStart * g.headDim) perLayerElems
        elemsPerToken
        layerId blockId

/-- `send_kvcache_staged` of a prefill rank whose staging buffer holds `staging`: the staging region
of the decode rank after the transfer. `gathered` are the writes of the gather, which is called only
if both buffers are large enough. -/
def sendKvcacheStaged (engine : TransferEngine β) (g : Geometry)
    (attnTpSize engineRank totalKvHeads : Nat) (gather : HeadSlice → List (Nat × β))
    (numPages : Nat) (staging : Nat → β) (stagingSize : Nat)
    (dstStagingSize dstTpRank dstAttnTpSize : Nat) (dstStaging : Nat → β) : Option (Nat → β) :=
  let localTpRank := engineRank % attnTpSize
  let slice := computeHeadSliceParams attnTpSize dstAttnTpSize localTpRank dstTpRank totalKvHeads
  let numTokens := numPages * g.pageSize
  let perLayerBytes := numTokens * slice.numHeadsToSend * g.headDim * g.dtypeSize.bytes
  let perRankBytes := perLayerBytes * g.numLayers * 2
  let (writers, writerRankBytes, totalStagingNeeded) :=
    computeStagingLayout attnTpSize dstAttnTpSize dstTpRank
    totalKvHeads numTokens (g.headDim * g.dtypeSize.bytes) g.numLayers
  let writerIdx := if writers > 1 then localTpRank % writers else 0
  let rankOffset := (writerRankBytes.take writerIdx).sum
  if perRankBytes > stagingSize then none
  else if dstStagingSize < totalStagingNeeded then none
  else some (engine.batchTransferSync (Lib.scatter staging (gather slice)) dstStaging
    [(0, rankOffset, perRankBytes)])

/-! ## Section 5: Out of the staging buffer -/

/-- `scatter_kv_head_slices`, from an offset of the staging region into the buffer of a layer. -/
def scatterKvHeadSlices (g : Geometry) (totalHeads : Nat) (staging : Nat → β) (layer : Nat)
    (tokens : List Nat) (headStart numHeads offset : Nat) : List ((Nat × Nat) × β) :=
  tokens.zipIdx.flatMap fun token =>
    (List.range (numHeads * g.bytesPerHead)).map fun x =>
      ((layer, token.1 * (totalHeads * g.bytesPerHead) + headStart * g.bytesPerHead + x),
        staging (offset + (token.2 * (numHeads * g.bytesPerHead) + x)))

/-- `_scatter_staging_to_kv_torch`. -/
def scatterTorch (g : Geometry) (totalHeads : Nat) (staging : Nat → β) (pages : List Nat)
    (prefillAttnTpSize decodeAttnTpSize dstTpRank totalKvHeads : Nat) : List ((Nat × Nat) × β) :=
  let numTokens := pages.length * g.pageSize
  (List.range (numWriters prefillAttnTpSize decodeAttnTpSize)).flatMap fun writerRank =>
    let slice :=
      computeHeadSliceParams prefillAttnTpSize decodeAttnTpSize writerRank dstTpRank totalKvHeads
    let perLayerBytes := numTokens * slice.numHeadsToSend * g.headDim * g.dtypeSize.bytes
    let perRankBytes := perLayerBytes * g.numLayers * 2
    let rankBase := writerRank * perRankBytes
    forKeysAndValues (fun layer offset => scatterKvHeadSlices g totalHeads staging layer
      (tokenIndices g.pageSize pages) slice.dstHeadStart slice.numHeadsToSend offset)
      perLayerBytes g.numLayers rankBase

/-- `_fused_scatter_from_staging_kernel` of one program. -/
def scatterKernel (g : Geometry) (staging : Nat → β) (pages writerHeadOffsets : List Nat)
    (stridePoolToken perLayerElems elemsPerToken numLayersX2 progId blockId : Nat) : List
    ((Nat × Nat) × β) :=
  let writerId := progId / numLayersX2
  let layerKvId := progId % numLayersX2
  let headOffset := writerHeadOffsets.getD writerId 0
  (programOffsets blockId perLayerElems).flatMap fun offset =>
    let tIdx := offset / elemsPerToken
    let eIdx := offset % elemsPerToken
    let poolToken := pages.getD (tIdx / g.pageSize) 0 * g.pageSize + tIdx % g.pageSize
    let perRankElems := perLayerElems * numLayersX2
    let src := writerId * perRankElems + layerKvId * perLayerElems + offset
    let dst := poolToken * stridePoolToken + headOffset + eIdx
    (List.range g.dtypeSize.bytes).map fun b =>
      ((layerKvId, dst * g.dtypeSize.bytes + b), staging (src * g.dtypeSize.bytes + b))

/-- `_scatter_staging_to_kv_triton`: the programs of the grid. -/
def scatterTriton (g : Geometry) (totalHeads : Nat) (staging : Nat → β) (pages : List Nat)
    (prefillAttnTpSize decodeAttnTpSize dstTpRank totalKvHeads : Nat) : List ((Nat × Nat) × β) :=
  let numTokens := pages.length * g.pageSize
  let writers := numWriters prefillAttnTpSize decodeAttnTpSize
  let slice :=
    fun wr => computeHeadSliceParams prefillAttnTpSize decodeAttnTpSize wr dstTpRank totalKvHeads
  let elemsPerToken := (slice 0).numHeadsToSend * g.headDim
  let perLayerElems := numTokens * elemsPerToken
  let writerHeadOffsets := (List.range writers).map fun wr => (slice wr).dstHeadStart * g.headDim
  let numLayersX2 := 2 * g.numLayers
  (List.range (writers * numLayersX2)).flatMap fun progId =>
    (List.range (cdiv perLayerElems blockSize)).flatMap fun blockId =>
      scatterKernel g staging pages writerHeadOffsets (totalHeads * g.headDim) perLayerElems
        elemsPerToken
        numLayersX2 progId blockId

/-- The pool after writes to its buffers. -/
def store (pool : Pool β) (writes : List ((Nat × Nat) × β)) : Pool β :=
  fun layer offset => Lib.scatter (fun key => pool key.1 key.2) writes (layer, offset)

end Sglang.Disaggregation.HeadSlices
