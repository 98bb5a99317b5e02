import Mathlib.Tactic

/-!
# Buffer Pointers of a Pipeline Stage

Model of the functions of `CommonKVManager` (`disaggregation/common/conn.py`) that tell a prefill
pipeline stage which buffers of the decode engine receive its layers.

- `getMhaKvPtrsWithPp`: keys and values, one buffer a layer each,
- `mlaSlicePtrsForPp`: the flat lists of a compressed-MLA pool, sorted by kind of buffer and not by
  layer.

A pointer list is the image of a list of buffers under an arbitrary address map, so that pairing the
right buffers is an equation between lists.
-/

namespace Sglang.Disaggregation.PipelinePointers

open List

variable {α β : Type}

/-- `xs[a:b]`. -/
def slice (xs : List α) (a b : Nat) : List α := (xs.take b).drop a

theorem slice_map (f : α → β) (xs : List α) (a b : Nat) :
    slice (xs.map f) a b = (slice xs a b).map f := by
  simp [slice]

theorem getElem?_slice (xs : List α) (a b i : Nat) :
    (slice xs a b)[i]? = if a + i < b then xs[a + i]? else none := by
  unfold slice
  rw [getElem?_drop, getElem?_take]

theorem slice_middle (front middle back : List α) :
    slice (front ++ middle ++ back) front.length (front.length + middle.length) = middle := by
  unfold slice
  rw [take_left' (by simp), drop_left]

theorem slice_append_left {xs : List α} {b : Nat} (h : b ≤ xs.length) (ys : List α) (a : Nat) :
    slice (xs ++ ys) a b = slice xs a b := by
  unfold slice
  rw [take_append_of_le_length h]

theorem slice_append_right (xs ys : List α) (a b : Nat) :
    slice (xs ++ ys) (xs.length + a) (xs.length + b) = slice ys a b := by
  unfold slice
  rw [take_length_add_append, drop_length_add_append]

/-! Three sections behind one another, each sliced by positions counted from its own start. -/

theorem slice_first {xs : List α} {b : Nat} (h : b ≤ xs.length) (ys zs : List α) (a : Nat) :
    slice (xs ++ ys ++ zs) a b = slice xs a b := by
  rw [append_assoc, slice_append_left h]

theorem slice_second {ys : List α} {b : Nat} (h : b ≤ ys.length) (xs zs : List α) (a : Nat) :
    slice (xs ++ ys ++ zs) (xs.length + a) (xs.length + b) = slice ys a b := by
  rw [append_assoc, slice_append_right, slice_append_left h]

theorem slice_third (xs ys zs : List α) (a b : Nat) :
    slice (xs ++ ys ++ zs) (xs.length + ys.length + a) (xs.length + ys.length + b) =
      slice zs a b := by
  rw [← length_append, slice_append_right]

/-! ## Section 1: Keys and values -/

/-- The pointer lists that `get_mha_kv_ptrs_with_pp` returns, without the layer count. -/
structure MhaPtrs (α : Type) where
  srcK : List α
  srcV : List α
  dstK : List α
  dstV : List α
deriving DecidableEq, Repr

/-- `get_mha_kv_ptrs_with_pp`; `startLayer` is `prefill_start_layer`, and `none` is the
`ZeroDivisionError` of an empty source list. -/
def getMhaKvPtrsWithPp (startLayer : Nat) (srcKvPtrs dstKvPtrs : List α) : Option (MhaPtrs α) :=
  let numKvLayers := srcKvPtrs.length / 2
  let endLayer := startLayer + numKvLayers
  let dstNumTotalLayers := dstKvPtrs.length / 2
  let srcK := srcKvPtrs.take numKvLayers
  let srcV := srcKvPtrs.drop numKvLayers
  if numKvLayers = dstNumTotalLayers then
    some ⟨srcK, srcV, dstKvPtrs.take dstNumTotalLayers, dstKvPtrs.drop dstNumTotalLayers⟩
  else if numKvLayers < dstNumTotalLayers ∧ numKvLayers = 0 then
    none
  else if numKvLayers < dstNumTotalLayers ∧ dstNumTotalLayers % numKvLayers ≠ 0 then
    -- taken for a decode engine with draft layers behind the main ones
    let multiplierRatio := dstNumTotalLayers / numKvLayers
    let vPtrOffset := numKvLayers * multiplierRatio
    some ⟨srcK, srcV, slice dstKvPtrs startLayer endLayer,
      slice dstKvPtrs (vPtrOffset + startLayer) (vPtrOffset + endLayer)⟩
  else
    some ⟨srcK, srcV, slice dstKvPtrs startLayer endLayer,
      slice dstKvPtrs (dstNumTotalLayers + startLayer) (dstNumTotalLayers + endLayer)⟩

/-- The buffers of an engine: the keys of a range of layers, then the values. -/
def kvPtrs (k v : Nat → α) (start stop : Nat) : List α :=
  (List.range' start (stop - start)).map k ++ (List.range' start (stop - start)).map v

variable (k v : Nat → α) {L s e : Nat} {mlaRatios : List Nat}

theorem length_kvPtrs (start stop : Nat) :
    (kvPtrs k v start stop).length = 2 * (stop - start) := by
  simp [kvPtrs]
  omega

/-- Where an engine keeps the keys and values of its layers. -/
structure Addresses where
  k : Nat → Nat
  v : Nat → Nat

/-- The lists of an engine that holds the layers `[s, e)`. -/
def Addresses.ptrs (addr : Addresses) (s e : Nat) : List Nat := kvPtrs addr.k addr.v s e

/-- The keys and the values of the layers `[s, e)` go to those of the same layers. -/
def PairsLayers (s e : Nat) (src dst : Addresses) (ptrs : Option (MhaPtrs Nat)) : Prop :=
  ptrs = some ⟨(List.range' s (e - s)).map src.k, (List.range' s (e - s)).map src.v,
    (List.range' s (e - s)).map dst.k, (List.range' s (e - s)).map dst.v⟩

theorem take_kvPtrs (s e : Nat) :
    (kvPtrs k v s e).take (e - s) = (List.range' s (e - s)).map k :=
  take_left' (by simp)

theorem drop_kvPtrs (s e : Nat) :
    (kvPtrs k v s e).drop (e - s) = (List.range' s (e - s)).map v :=
  drop_left' (by simp)

theorem slice_eq_map {f : Nat → Nat} {xs : List Nat} {s n : Nat} (off : Nat)
    (h : ∀ i, i < n → xs[off + s + i]? = some (f (s + i))) :
    slice xs (off + s) (off + (s + n)) = (List.range' s n).map f := by
  apply ext_getElem?
  intro i
  rw [getElem?_slice, getElem?_map]
  by_cases hi : i < n
  · rw [if_pos (by omega), h i hi]
    simp [hi]
  · rw [if_neg (by omega)]
    simp [hi]

section Layout

variable {k v : Nat → Nat} {L : Nat} {extra : List Nat}

theorem getElem?_keys {i : Nat} (hi : i < L) : (kvPtrs k v 0 L ++ extra)[i]? = some (k i) := by
  rw [getElem?_append_left (by simp [kvPtrs]; omega), kvPtrs,
    getElem?_append_left (by simpa using hi)]
  simp [hi]

theorem getElem?_values {i : Nat} (hi : i < L) :
    (kvPtrs k v 0 L ++ extra)[L + i]? = some (v i) := by
  rw [getElem?_append_left (by simp [kvPtrs]; omega), kvPtrs,
    getElem?_append_right (by simp)]
  simp [hi]

theorem slice_keys {s e : Nat} (he : e ≤ L) (hs : s ≤ e) :
    slice (kvPtrs k v 0 L ++ extra) s (s + (e - s)) = (List.range' s (e - s)).map k := by
  have hread : ∀ i, i < e - s → (kvPtrs k v 0 L ++ extra)[0 + s + i]? = some (k (s + i)) := by
    intro i hi
    rw [Nat.zero_add]
    exact getElem?_keys (by omega)
  simpa using slice_eq_map 0 hread

theorem slice_values {s e : Nat} (he : e ≤ L) (hs : s ≤ e) :
    slice (kvPtrs k v 0 L ++ extra) (L + s) (L + (s + (e - s))) =
      (List.range' s (e - s)).map v :=
  slice_eq_map L fun i hi => by rw [Nat.add_assoc]; exact getElem?_values (by omega)

end Layout

theorem slice_ne_values {L s e off : Nat} {extra : List Nat} (hs : s < e) (he : e ≤ L)
    (hextra : ∀ p ∈ extra, 2 * L ≤ p) (hoff : off ≠ L) :
    slice (kvPtrs id (L + ·) 0 L ++ extra) (off + s) (off + (s + (e - s))) ≠
      (List.range' s (e - s)).map (L + ·) := by
  intro heq
  have hfirst := congrArg (fun l : List Nat => l[0]?) heq
  have hpos : (kvPtrs id (L + ·) 0 L ++ extra)[off + s]? = some (L + s) := by
    rw [getElem?_slice, if_pos (by omega)] at hfirst
    rw [← Nat.add_zero (off + s), hfirst]
    simp [hs]
  -- with these addresses a main buffer's address is its position in the list
  rcases Nat.lt_or_ge (off + s) L with hlow | hhigh
  · rw [getElem?_keys hlow] at hpos
    simp at hpos
    omega
  · rcases Nat.lt_or_ge (off + s) (2 * L) with hmid | hbig
    · obtain ⟨d, hd⟩ : ∃ d, off + s = L + d := ⟨off + s - L, by omega⟩
      rw [hd, getElem?_values (by omega)] at hpos
      simp at hpos
      omega
    · rw [getElem?_append_right (by simp [kvPtrs]; omega)] at hpos
      have := hextra _ (mem_of_getElem? hpos)
      omega

section Branches

variable {s e : Nat} {src : Addresses}

theorem getMhaKvPtrsWithPp_stage (dst : List Nat) :
    getMhaKvPtrsWithPp s (src.ptrs s e) dst =
      if e - s = dst.length / 2 then
        some ⟨(List.range' s (e - s)).map src.k, (List.range' s (e - s)).map src.v,
          dst.take (dst.length / 2), dst.drop (dst.length / 2)⟩
      else if e - s < dst.length / 2 ∧ e - s = 0 then none
      else if e - s < dst.length / 2 ∧ (dst.length / 2) % (e - s) ≠ 0 then
        some ⟨(List.range' s (e - s)).map src.k, (List.range' s (e - s)).map src.v,
          slice dst s (s + (e - s)),
          slice dst ((e - s) * (dst.length / 2 / (e - s)) + s)
            ((e - s) * (dst.length / 2 / (e - s)) + (s + (e - s)))⟩
      else
        some ⟨(List.range' s (e - s)).map src.k, (List.range' s (e - s)).map src.v,
          slice dst s (s + (e - s)), slice dst (dst.length / 2 + s)
          (dst.length / 2 + (s + (e - s)))⟩ := by
  have hhalf : (src.ptrs s e).length / 2 = e - s := by
    rw [Addresses.ptrs, length_kvPtrs]
    omega
  have htake : (src.ptrs s e).take (e - s) = (List.range' s (e - s)).map src.k :=
    take_kvPtrs _ _ _ _
  have hdrop : (src.ptrs s e).drop (e - s) = (List.range' s (e - s)).map src.v :=
    drop_kvPtrs _ _ _ _
  simp only [getMhaKvPtrsWithPp, hhalf, htake, hdrop]

/-- The offset the function reads the values of a stage at, when it slices. -/
def valueOffset (n total : Nat) : Nat := if total % n ≠ 0 then n * (total / n) else total

theorem getMhaKvPtrsWithPp_slices {dst : List Nat} (hs : s < e) (hlt : e - s < dst.length / 2) :
    getMhaKvPtrsWithPp s (src.ptrs s e) dst =
      some ⟨(List.range' s (e - s)).map src.k, (List.range' s (e - s)).map src.v,
        slice dst s (s + (e - s)),
        slice dst (valueOffset (e - s) (dst.length / 2) + s)
          (valueOffset (e - s) (dst.length / 2) + (s + (e - s)))⟩ := by
  rw [getMhaKvPtrsWithPp_stage, if_neg (by omega), if_neg (by omega), valueOffset]
  by_cases hdvd : (dst.length / 2) % (e - s) ≠ 0
  · rw [if_pos ⟨hlt, hdvd⟩, if_pos hdvd]
  · rw [if_neg (fun h => hdvd h.2), if_neg hdvd]

end Branches

theorem pairsLayers_sliced_iff {s e L n : Nat} (hs : s < e) (he : e ≤ L) (hlt : e - s < L + n) :
    (∀ src dst extra : Addresses,
        PairsLayers s e src dst
        (getMhaKvPtrsWithPp s (src.ptrs s e) (dst.ptrs 0 L ++ extra.ptrs 0 n))) ↔
      valueOffset (e - s) (L + n) = L := by
  have hlen : ∀ dst extra : Addresses, (dst.ptrs 0 L ++ extra.ptrs 0 n).length / 2 = L + n := by
    intro dst extra
    rw [length_append, Addresses.ptrs, Addresses.ptrs, length_kvPtrs, length_kvPtrs]
    omega
  constructor
  · intro hpairs
    by_contra hoff
    have hbad := hpairs ⟨id, id⟩ ⟨id, (L + ·)⟩ ⟨(2 * L + ·), (2 * L + ·)⟩
    rw [getMhaKvPtrsWithPp_slices hs (by rw [hlen]; exact hlt), hlen] at hbad
    have hv := congrArg MhaPtrs.dstV (Option.some.inj hbad)
    apply slice_ne_values hs he _ hoff hv
    intro p hp
    simp only [Addresses.ptrs, kvPtrs, mem_append, mem_map, or_self] at hp
    obtain ⟨d, -, rfl⟩ := hp
    exact Nat.le_add_right _ _
  · intro hoff src dst extra
    rw [getMhaKvPtrsWithPp_slices hs (by rw [hlen]; exact hlt), hlen, hoff]
    show some _ = some _
    rw [Addresses.ptrs, slice_keys he hs.le, slice_values he hs.le]

theorem pairsLayers_whole (src dst : Addresses) :
    PairsLayers 0 L src dst (getMhaKvPtrsWithPp 0 (src.ptrs 0 L) (dst.ptrs 0 L)) := by
  have hlen : (dst.ptrs 0 L).length / 2 = L - 0 := by
    rw [Addresses.ptrs, length_kvPtrs]
    omega
  rw [getMhaKvPtrsWithPp_stage, hlen, if_pos rfl, Addresses.ptrs, take_kvPtrs, drop_kvPtrs]
  rfl

/-- Stages `[s, e)` that are contiguous, not empty and cover the layers from `start` to `stop`. -/
def IsSplit : Nat → Nat → List (Nat × Nat) → Prop
  | start, stop, [] => start = stop
  | start, stop, st :: rest => st.1 = start ∧ st.1 < st.2 ∧ IsSplit st.2 stop rest

theorem IsSplit.le {start stop : Nat} {stages : List (Nat × Nat)} (h : IsSplit start stop stages) :
    start ≤ stop := by
  induction stages generalizing start with
  | nil => exact Nat.le_of_eq h
  | cons st rest ih =>
    obtain ⟨rfl, hlt, hrest⟩ := h
    exact hlt.le.trans (ih hrest)

theorem IsSplit.bounds {start stop : Nat} {stages : List (Nat × Nat)}
    (h : IsSplit start stop stages) {st : Nat × Nat} (hst : st ∈ stages) : start ≤ st.1 ∧
    st.1 < st.2 ∧ st.2 ≤ stop := by
  induction stages generalizing start with
  | nil => cases hst
  | cons first rest ih =>
    obtain ⟨rfl, hlt, hrest⟩ := h
    rcases mem_cons.mp hst with rfl | hin
    · exact ⟨le_rfl, hlt, hrest.le⟩
    · obtain ⟨hstart, hst', hstop⟩ := ih hrest hin
      exact ⟨hlt.le.trans hstart, hst', hstop⟩

theorem pairsLayers_stage_iff (hs : s < e) (he : e ≤ L) :
    (∀ src dst : Addresses,
        PairsLayers s e src dst (getMhaKvPtrsWithPp s (src.ptrs s e) (dst.ptrs 0 L))) ↔
      (e - s) ∣ L := by
  by_cases hwhole : e - s = L
  · obtain ⟨rfl, rfl⟩ : s = 0 ∧ e = L := by omega
    exact ⟨fun _ => by simp, fun _ src dst => pairsLayers_whole src dst⟩
  · have hnil : ∀ addr : Addresses, addr.ptrs 0 0 = [] := fun _ => rfl
    have hiff := pairsLayers_sliced_iff (n := 0) hs he (by omega)
    simp only [hnil, append_nil, Nat.add_zero] at hiff
    have hadr : Nonempty Addresses := ⟨⟨id, id⟩⟩
    simp only [forall_const] at hiff
    rw [hiff, valueOffset, Nat.dvd_iff_mod_eq_zero]
    by_cases hmod : L % (e - s) = 0
    · rw [if_neg (by simpa using hmod)]
      simp [hmod]
    · rw [if_pos hmod]
      have := Nat.div_add_mod L (e - s)
      omega

theorem pairsLayers_draft_iff (hL : 0 < L) (D : Nat) :
    (∀ src dst draft : Addresses,
        PairsLayers 0 L src dst
        (getMhaKvPtrsWithPp 0 (src.ptrs 0 L) (dst.ptrs 0 L ++ draft.ptrs 0 D))) ↔
      D < L := by
  cases D with
  | zero =>
    refine ⟨fun _ => hL, fun _ src dst draft => ?_⟩
    have hnil : draft.ptrs 0 0 = [] := rfl
    rw [hnil, append_nil]
    exact pairsLayers_whole src dst
  | succ d =>
    rw [pairsLayers_sliced_iff hL le_rfl (by omega), valueOffset, Nat.sub_zero, Nat.add_mod_left,
      Nat.add_div_left _ hL]
    by_cases hlt : d + 1 < L
    · rw [if_pos (by rw [Nat.mod_eq_of_lt hlt]; omega), Nat.div_eq_of_lt hlt]
      simp [hlt]
    · have hquot : 1 ≤ (d + 1) / L := (Nat.one_le_div_iff hL).mpr (by omega)
      have hbig : L * 2 ≤ L * ((d + 1) / L + 1) := Nat.mul_le_mul le_rfl (by omega)
      constructor
      · intro h
        split at h <;> omega
      · intro h
        exact absurd h hlt

/-! ## Section 2: Compressed-MLA lists -/

/-- The state component a list belongs to. -/
inductive StateType where
  | mamba
  | swa
  | dsa
  | minimaxIndexK
  | swaRing
  | c128State
deriving DecidableEq, Repr

/-- The checks of `_mla_slice_ptrs_for_pp` that raise. -/
inductive SliceError where
  /-- `KVArgs.prefill_end_layer must be set when using compressed-MLA PD with PP` -/
  | endLayerUnset
  /-- `Unexpected compressed-MLA dst_kv_ptrs length`, with what its message reports. -/
  | unexpectedLength (dstLen kvLayoutLen c4 c128 total : Nat)
deriving DecidableEq, Repr

/-- `_mla_slice_ptrs_for_pp`; `startLayer` and `endLayer` are the fields of `kv_args`. -/
def mlaSlicePtrsForPp (startLayer : Nat) (endLayer : Option Nat) (mlaRatios : List Nat)
    (stateType : Option StateType) (srcKvPtrs dstKvPtrs : List α) :
    Except SliceError (List α × List α) :=
  match endLayer with
  | none => .error .endLayerUnset
  | some endLayer =>
    let c4Full := mlaRatios.count 4
    let c128Full := mlaRatios.count 128
    let kvLayoutLen := 2 * c4Full + c128Full
    let c4OffS := (mlaRatios.take startLayer).count 4
    let c4OffE := (mlaRatios.take endLayer).count 4
    let c128OffS := (mlaRatios.take startLayer).count 128
    let c128OffE := (mlaRatios.take endLayer).count 128
    if stateType = some .c128State then
      .ok (srcKvPtrs, slice dstKvPtrs c128OffS c128OffE)
    else if stateType = some .swaRing then
      .ok (srcKvPtrs,
        slice dstKvPtrs (min startLayer dstKvPtrs.length) (min endLayer dstKvPtrs.length))
    else if stateType ≠ some .swa ∧ dstKvPtrs.length = kvLayoutLen then
      .ok (srcKvPtrs,
        slice dstKvPtrs c4OffS c4OffE ++ slice dstKvPtrs (c4Full + c4OffS) (c4Full + c4OffE) ++
        slice dstKvPtrs (2 * c4Full + c128OffS) (2 * c4Full + c128OffE))
    else if dstKvPtrs.length < 2 * c4Full ∨ mlaRatios.length < dstKvPtrs.length - 2 * c4Full then
      .error (.unexpectedLength dstKvPtrs.length kvLayoutLen c4Full c128Full mlaRatios.length)
    else
      let swaL := dstKvPtrs.length - 2 * c4Full
      .ok (srcKvPtrs, slice dstKvPtrs (min startLayer swaL) (min endLayer swaL) ++
        slice dstKvPtrs (swaL + c4OffS) (swaL + c4OffE) ++
        slice dstKvPtrs (swaL + c4Full + c4OffS) (swaL + c4Full + c4OffE))

/-- A buffer of a compressed-MLA pool: the section it belongs to and the layer it is for. -/
inductive Buffer where
  | c4 (layer : Nat)
  | c4Indexer (layer : Nat)
  | c128 (layer : Nat)
  | swa (layer : Nat)
  | c4State (layer : Nat)
  | c4IndexerState (layer : Nat)
  | c128State (layer : Nat)
deriving DecidableEq, Repr

/-- The lists a pool hands out; `swaL` is how many layers have a buffer in the sliding-window
pool. -/
inductive Layout where
  | kvData
  | swaState (swaL : Nat)
  | swaRing (swaL : Nat)
  | c128State
deriving DecidableEq, Repr

/-- The layers of `[s, e)` with compression ratio `r`; the position in the list for all layers is
the compressed-layer id. -/
def layersOf (mlaRatios : List Nat) (r s e : Nat) : List Nat :=
  (List.range' s (e - s)).filter (fun layer => mlaRatios[layer]? = some r)

/-- The layers of `[s, e)` with a buffer in a sliding-window pool of `swaL` layers. -/
def swaLayers (swaL s e : Nat) : List Nat := List.range' (min s swaL) (min e swaL - min s swaL)

/-- The list of an engine that holds the layers `[s, e)`, section by section. -/
def Layout.buffers (mlaRatios : List Nat) (s e : Nat) : Layout → List Buffer
  | .kvData =>
    (layersOf mlaRatios 4 s e).map .c4 ++ (layersOf mlaRatios 4 s e).map .c4Indexer ++
      (layersOf mlaRatios 128 s e).map .c128
  | .swaState swaL =>
    (swaLayers swaL s e).map .swa ++ (layersOf mlaRatios 4 s e).map .c4State ++
      (layersOf mlaRatios 4 s e).map .c4IndexerState
  | .swaRing swaL => (swaLayers swaL s e).map .swa
  | .c128State => (layersOf mlaRatios 128 s e).map .c128State

/-- The state types a list is sent under; a sliding-window list under none must not be taken for a
`kv_data` list, which its length decides. -/
def Layout.SentAs (mlaRatios : List Nat) : Layout → Option StateType → Prop
  | .kvData, stateType =>
    stateType ≠ some .swa ∧ stateType ≠ some .swaRing ∧ stateType ≠ some .c128State
  | .swaState swaL, stateType =>
    swaL ≤ mlaRatios.length ∧ stateType ≠ some .swaRing ∧ stateType ≠ some .c128State ∧
      (stateType = some .swa ∨ swaL ≠ mlaRatios.count 128)
  | .swaRing swaL, stateType => stateType = some .swaRing ∧ swaL ≤ mlaRatios.length
  | .c128State, stateType => stateType = some .c128State

section CompressedLayers

variable {mlaRatios : List Nat} {r s e : Nat}

theorem layersOf_append (h : s ≤ e) :
    layersOf mlaRatios r 0 e = layersOf mlaRatios r 0 s ++ layersOf mlaRatios r s e := by
  have hrange : List.range' 0 (e - 0) = List.range' 0 (s - 0) ++ List.range' s (e - s) := by
    have := range'_append_1 (s := 0) (m := s) (n := e - s)
    rw [Nat.zero_add, Nat.add_sub_cancel' h] at this
    exact this.symm
  unfold layersOf
  rw [hrange, filter_append]

theorem length_layersOf (hs : s ≤ mlaRatios.length) :
    (layersOf mlaRatios r 0 s).length = (mlaRatios.take s).count r := by
  induction s with
  | zero => rfl
  | succ s ih =>
    rw [layersOf_append (Nat.le_succ s), length_append, ih (by omega),
      take_succ_eq_append_getElem (by omega), count_append]
    congr 1
    have hget : mlaRatios[s]? = some mlaRatios[s] := getElem?_eq_getElem (by omega)
    by_cases hr : mlaRatios[s] = r
    · simp [layersOf, hget, hr]
    · simp [layersOf, hget, hr]

theorem slice_layersOf (h : s ≤ e) (he : e ≤ mlaRatios.length) :
    slice (layersOf mlaRatios r 0 mlaRatios.length) ((mlaRatios.take s).count r)
      ((mlaRatios.take e).count r) = layersOf mlaRatios r s e := by
  rw [← length_layersOf (h.trans he), ← length_layersOf he, layersOf_append he, layersOf_append h,
    length_append]
  exact slice_middle _ _ _

theorem count_take_le (e : Nat) : (mlaRatios.take e).count r ≤ mlaRatios.count r :=
  (take_sublist e mlaRatios).count_le r

theorem length_layersOf_all (mlaRatios : List Nat) (r : Nat) :
    (layersOf mlaRatios r 0 mlaRatios.length).length = mlaRatios.count r := by
  rw [length_layersOf le_rfl, take_length]

theorem slice_swaLayers {swaL total : Nat} (hswa : swaL ≤ total) (s e : Nat) :
    slice (swaLayers swaL 0 total) (min s swaL) (min e swaL) = swaLayers swaL s e := by
  apply ext_getElem?
  intro i
  rw [getElem?_slice]
  unfold swaLayers
  by_cases hi : min s swaL + i < min e swaL
  · rw [if_pos hi]
    have hi' : i < min e swaL - min s swaL := by omega
    have hfull : min s swaL + i < min total swaL - min 0 swaL := by omega
    rw [getElem?_eq_getElem (by simpa using hfull), getElem?_eq_getElem (by simpa using hi')]
    simp
  · rw [if_neg hi]
    simp
    omega

end CompressedLayers

variable {layout : Layout} {stateType : Option StateType}

/-- The sliced destination list is the list of the stage: each source buffer goes to the buffer of
the same section and compressed-layer id. -/
theorem mlaSlicePtrsForPp_pairs (h : s ≤ e) (he : e ≤ mlaRatios.length)
    (hsent : layout.SentAs mlaRatios stateType) (src dst : Buffer → Nat) :
    mlaSlicePtrsForPp s (some e) mlaRatios stateType ((layout.buffers mlaRatios s e).map src)
        ((layout.buffers mlaRatios 0 mlaRatios.length).map dst) =
      .ok ((layout.buffers mlaRatios s e).map src, (layout.buffers mlaRatios s e).map dst) := by
  have h4 := length_layersOf_all mlaRatios 4
  have h128 := length_layersOf_all mlaRatios 128
  have hslice4 : ∀ f : Nat → Buffer, slice ((layersOf mlaRatios 4 0 mlaRatios.length).map f)
      ((mlaRatios.take s).count 4) ((mlaRatios.take e).count 4) =
      (layersOf mlaRatios 4 s e).map f :=
    fun f => by rw [slice_map, slice_layersOf h he]
  have hslice128 : ∀ f : Nat → Buffer, slice ((layersOf mlaRatios 128 0 mlaRatios.length).map f)
      ((mlaRatios.take s).count 128) ((mlaRatios.take e).count 128) =
      (layersOf mlaRatios 128 s e).map f :=
    fun f => by rw [slice_map, slice_layersOf h he]
  have hfit : ∀ f : Nat → Buffer, (mlaRatios.take e).count 4 ≤
      ((layersOf mlaRatios 4 0 mlaRatios.length).map f).length := fun f => by
    rw [length_map, h4]
    exact count_take_le e
  unfold mlaSlicePtrsForPp
  dsimp only
  cases layout with
  | kvData =>
    -- the ring and state branches are off, and the length is that of a KV pool
    obtain ⟨hswa, hring, hstate⟩ := hsent
    have hlen : (Layout.kvData.buffers mlaRatios 0 mlaRatios.length).length =
        2 * mlaRatios.count 4 + mlaRatios.count 128 := by
      simp only [Layout.buffers, length_append, length_map, h4, h128]
      omega
    have hall : Layout.kvData.buffers mlaRatios 0 mlaRatios.length =
        (layersOf mlaRatios 4 0 mlaRatios.length).map .c4 ++
          (layersOf mlaRatios 4 0 mlaRatios.length).map .c4Indexer ++
          (layersOf mlaRatios 128 0 mlaRatios.length).map .c128 := rfl
    have hfirst := slice_first (hfit .c4) ((layersOf mlaRatios 4 0 mlaRatios.length).map .c4Indexer)
      ((layersOf mlaRatios 128 0 mlaRatios.length).map .c128) ((mlaRatios.take s).count 4)
    have hsecond :=
      slice_second (hfit .c4Indexer) ((layersOf mlaRatios 4 0 mlaRatios.length).map .c4)
      ((layersOf mlaRatios 128 0 mlaRatios.length).map .c128) ((mlaRatios.take s).count 4)
    have hthird := slice_third ((layersOf mlaRatios 4 0 mlaRatios.length).map Buffer.c4)
      ((layersOf mlaRatios 4 0 mlaRatios.length).map .c4Indexer)
      ((layersOf mlaRatios 128 0 mlaRatios.length).map .c128) ((mlaRatios.take s).count 128)
      ((mlaRatios.take e).count 128)
    rw [length_map, h4] at hsecond hthird
    rw [length_map, h4, ← Nat.two_mul] at hthird
    rw [if_neg hstate, if_neg hring, length_map, hlen, if_pos ⟨hswa, rfl⟩, slice_map, slice_map,
      slice_map, hall, hfirst, hsecond, hthird, hslice4, hslice4, hslice128, ← map_append,
      ← map_append]
    rfl
  | swaState swaL =>
    -- the length is not that of a KV pool, so the state layout is taken
    obtain ⟨hswa, hring, hstate, hnone⟩ := hsent
    have hswaLen : (swaLayers swaL 0 mlaRatios.length).length = swaL := by
      simp [swaLayers, hswa]
    have hlen : ((Layout.swaState swaL).buffers mlaRatios 0 mlaRatios.length).length =
        swaL + 2 * mlaRatios.count 4 := by
      simp only [Layout.buffers, length_append, length_map, h4, hswaLen]
      omega
    have hnotKv : ¬(stateType ≠ some .swa ∧
        swaL + 2 * mlaRatios.count 4 = 2 * mlaRatios.count 4 + mlaRatios.count 128) := by
      rintro ⟨hne, heq⟩
      rcases hnone with hnone | hnone
      · exact hne hnone
      · omega
    have hrest : swaL + 2 * mlaRatios.count 4 - 2 * mlaRatios.count 4 = swaL :=
      Nat.add_sub_cancel _ _
    have hall : (Layout.swaState swaL).buffers mlaRatios 0 mlaRatios.length =
        (swaLayers swaL 0 mlaRatios.length).map .swa ++
          (layersOf mlaRatios 4 0 mlaRatios.length).map .c4State ++
          (layersOf mlaRatios 4 0 mlaRatios.length).map .c4IndexerState := rfl
    have hfitSwa : min e swaL ≤ ((swaLayers swaL 0 mlaRatios.length).map Buffer.swa).length := by
      rw [length_map, hswaLen]
      exact Nat.min_le_right e swaL
    have hfirst := slice_first hfitSwa
      ((layersOf mlaRatios 4 0 mlaRatios.length).map .c4State)
      ((layersOf mlaRatios 4 0 mlaRatios.length).map .c4IndexerState) (min s swaL)
    have hsecond := slice_second (hfit .c4State) ((swaLayers swaL 0 mlaRatios.length).map .swa)
      ((layersOf mlaRatios 4 0 mlaRatios.length).map .c4IndexerState) ((mlaRatios.take s).count 4)
    have hthird := slice_third ((swaLayers swaL 0 mlaRatios.length).map Buffer.swa)
      ((layersOf mlaRatios 4 0 mlaRatios.length).map .c4State)
      ((layersOf mlaRatios 4 0 mlaRatios.length).map .c4IndexerState) ((mlaRatios.take s).count 4)
      ((mlaRatios.take e).count 4)
    rw [length_map, hswaLen] at hsecond hthird
    rw [length_map, h4] at hthird
    rw [if_neg hstate, if_neg hring, length_map, hlen, if_neg hnotKv, hrest,
      if_neg (by omega), slice_map, slice_map, slice_map, hall, hfirst, hsecond, hthird, hslice4,
      hslice4, slice_map, slice_swaLayers hswa, ← map_append, ← map_append]
    rfl
  | swaRing swaL =>
    obtain ⟨rfl, hswa⟩ := hsent
    have hlen : ((Layout.swaRing swaL).buffers mlaRatios 0 mlaRatios.length).length = swaL := by
      simp [Layout.buffers, swaLayers, hswa]
    rw [if_neg (by decide), if_pos rfl, slice_map, length_map, hlen]
    have hslice : slice ((Layout.swaRing swaL).buffers mlaRatios 0 mlaRatios.length) (min s swaL)
      (min e swaL) = (Layout.swaRing swaL).buffers mlaRatios s e := by
      simp only [Layout.buffers]
      rw [slice_map, slice_swaLayers hswa]
    rw [hslice]
  | c128State =>
    obtain rfl := hsent
    rw [if_pos rfl, slice_map]
    exact congrArg (fun buffers => Except.ok (_, List.map dst buffers)) (hslice128 .c128State)

/-- `get_mla_kv_ptrs_with_pp`, without the layer count. -/
def getMlaKvPtrsWithPp (startLayer : Nat) (endLayer : Option Nat) (mlaRatios : Option (List Nat))
    (stateType : Option StateType) (srcKvPtrs dstKvPtrs : List α) : Except SliceError
    (List α × List α) :=
  if srcKvPtrs.length = dstKvPtrs.length then
    .ok (srcKvPtrs, dstKvPtrs)
  else
    match mlaRatios with
    | some (r :: ratios) =>
      mlaSlicePtrsForPp startLayer endLayer (r :: ratios) stateType srcKvPtrs dstKvPtrs
    | _ => .ok (srcKvPtrs, slice dstKvPtrs startLayer (startLayer + srcKvPtrs.length))

theorem layersOf_sublist {r s e : Nat} (h : s ≤ e) (he : e ≤ mlaRatios.length) :
    (layersOf mlaRatios r s e).Sublist (layersOf mlaRatios r 0 mlaRatios.length) := by
  rw [layersOf_append he, layersOf_append h]
  exact (sublist_append_right _ _).trans (sublist_append_left _ _)

theorem slice_sublist (xs : List α) (a b : Nat) : (slice xs a b).Sublist xs :=
  (drop_sublist _ _).trans (take_sublist _ _)

theorem Layout.buffers_sublist (h : s ≤ e) (he : e ≤ mlaRatios.length)
    (hsent : layout.SentAs mlaRatios stateType) :
    (layout.buffers mlaRatios s e).Sublist (layout.buffers mlaRatios 0 mlaRatios.length) := by
  have hlayers : ∀ r,
      (layersOf mlaRatios r s e).Sublist (layersOf mlaRatios r 0 mlaRatios.length) :=
    fun r => layersOf_sublist h he
  have hswa : ∀ {swaL}, swaL ≤ mlaRatios.length →
      (swaLayers swaL s e).Sublist (swaLayers swaL 0 mlaRatios.length) := by
    intro swaL hle
    rw [← slice_swaLayers hle]
    exact slice_sublist _ _ _
  cases layout with
  | kvData => exact (((hlayers 4).map _).append ((hlayers 4).map _)).append ((hlayers 128).map _)
  | swaState swaL =>
    exact (((hswa hsent.1).map _).append ((hlayers 4).map _)).append ((hlayers 4).map _)
  | swaRing swaL => exact (hswa hsent.2).map _
  | c128State => exact (hlayers 128).map _

theorem getMlaKvPtrsWithPp_pairs (h : s ≤ e) (he : e ≤ mlaRatios.length)
    (hsent : layout.SentAs mlaRatios stateType) (src dst : Buffer → Nat) :
    getMlaKvPtrsWithPp s (some e) (some mlaRatios) stateType
    ((layout.buffers mlaRatios s e).map src)
        ((layout.buffers mlaRatios 0 mlaRatios.length).map dst) =
      .ok ((layout.buffers mlaRatios s e).map src, (layout.buffers mlaRatios s e).map dst) := by
  unfold getMlaKvPtrsWithPp
  by_cases hlen : (layout.buffers mlaRatios s e).length =
      (layout.buffers mlaRatios 0 mlaRatios.length).length
  · have hsame := (Layout.buffers_sublist h he hsent).eq_of_length hlen
    rw [if_pos (by simpa using hlen), hsame]
  · rw [if_neg (by simpa using hlen)]
    cases mlaRatios with
    | nil =>
      -- without layers every stage is the whole model
      obtain rfl : e = 0 := Nat.le_zero.mp he
      obtain rfl : s = 0 := Nat.le_zero.mp h
      exact absurd rfl hlen
    | cons r ratios => exact mlaSlicePtrsForPp_pairs h he hsent src dst

theorem getMlaKvPtrsWithPp_regular (h : s ≤ e) (he : e ≤ L) (endLayer : Option Nat)
    (stateType : Option StateType) (src dst : Nat → Nat) :
    getMlaKvPtrsWithPp s endLayer none stateType ((List.range' s (e - s)).map src)
        ((List.range' 0 L).map dst) =
      .ok ((List.range' s (e - s)).map src, (List.range' s (e - s)).map dst) := by
  unfold getMlaKvPtrsWithPp
  by_cases hlen : e - s = L
  · obtain ⟨rfl, rfl⟩ : s = 0 ∧ e = L := by omega
    rw [if_pos (by simp), Nat.sub_zero]
  · rw [if_neg (by simpa using hlen), length_map, length_range']
    have hread : ∀ i, i < e - s → ((List.range' 0 L).map dst)[0 + s + i]? = some (dst (s + i)) := by
      intro i hi
      have hlt : s + i < L := by omega
      simp [hlt]
    have hslice := slice_eq_map 0 hread
    rw [Nat.zero_add, Nat.zero_add] at hslice
    rw [hslice]

theorem Layout.buffers_append {s m e : Nat} (hs : s ≤ m) (he : m ≤ e) (layout : Layout) :
    (layout.buffers mlaRatios s m ++ layout.buffers mlaRatios m e).Perm
    (layout.buffers mlaRatios s e) := by
  have hlayers : ∀ r, layersOf mlaRatios r s e = layersOf mlaRatios r s m ++
      layersOf mlaRatios r m e := by
    intro r
    have h : layersOf mlaRatios r 0 s ++ layersOf mlaRatios r s e =
        layersOf mlaRatios r 0 m ++ layersOf mlaRatios r m e :=
      (layersOf_append (hs.trans he)).symm.trans (layersOf_append he)
    rwa [layersOf_append hs, append_assoc, append_cancel_left_eq] at h
  have hswa : ∀ swaL, swaLayers swaL s e = swaLayers swaL s m ++ swaLayers swaL m e := by
    intro swaL
    unfold swaLayers
    rw [show min e swaL - min s swaL =
      (min m swaL - min s swaL) + (min e swaL - min m swaL) by omega, ← range'_append_1,
      show min s swaL + (min m swaL - min s swaL) = min m swaL by omega]
  apply Multiset.coe_eq_coe.mp
  cases layout <;> simp only [Layout.buffers, hlayers, hswa, map_append, ← Multiset.coe_add] <;>
    abel

/-- The stages of a split send every buffer of the model once, each to the buffer of its kind and
layer; without compression, each to the buffer of its layer. -/
theorem stages_send_buffers_once {mlaRatios : List Nat} {stages : List (Nat × Nat)}
    (hsplit : IsSplit 0 mlaRatios.length stages) {layout : Layout} {stateType : Option StateType}
    (hsent : layout.SentAs mlaRatios stateType) :
    (∀ st ∈ stages, ∀ src dst : Buffer → Nat,
      getMlaKvPtrsWithPp st.1 (some st.2) (some mlaRatios) stateType
      ((layout.buffers mlaRatios st.1 st.2).map src)
          ((layout.buffers mlaRatios 0 mlaRatios.length).map dst) =
        .ok ((layout.buffers mlaRatios st.1 st.2).map src,
          (layout.buffers mlaRatios st.1 st.2).map dst)) ∧
      (stages.flatMap fun st => layout.buffers mlaRatios st.1 st.2).Perm
        (layout.buffers mlaRatios 0 mlaRatios.length) ∧
      ∀ st ∈ stages, ∀ (endLayer : Option Nat) (src dst : Nat → Nat),
        getMlaKvPtrsWithPp st.1 endLayer none stateType ((List.range' st.1 (st.2 - st.1)).map src)
            ((List.range' 0 mlaRatios.length).map dst) =
          .ok ((List.range' st.1 (st.2 - st.1)).map src,
            (List.range' st.1 (st.2 - st.1)).map dst) := by
  refine ⟨fun st hst src dst => ?_, ?_, fun st hst endLayer => ?_⟩
  · obtain ⟨-, hlt, hle⟩ := hsplit.bounds hst
    exact getMlaKvPtrsWithPp_pairs hlt.le hle hsent src dst
  · have hempty : ∀ n, layout.buffers mlaRatios n n = [] := by
      intro n
      cases layout <;> simp [Layout.buffers, layersOf, swaLayers]
    generalize mlaRatios.length = stop at hsplit ⊢
    generalize 0 = start at hsplit ⊢
    induction stages generalizing start with
    | nil =>
      obtain rfl : start = stop := hsplit
      rw [hempty, flatMap_nil]
    | cons st rest ih =>
      obtain ⟨rfl, hlt, hrest⟩ := hsplit
      exact ((ih st.2 hrest).append_left _).trans (layout.buffers_append hlt.le hrest.le)
  · obtain ⟨-, hlt, hle⟩ := hsplit.bounds hst
    exact getMlaKvPtrsWithPp_regular hlt.le hle endLayer stateType

/-- Three layers, one without compression, in two stages. -/
theorem stages_send_buffers_once_two :
    (∀ st ∈ [(0, 2), (2, 3)], ∀ src dst : Buffer → Nat,
      getMlaKvPtrsWithPp st.1 (some st.2) (some [0, 4, 128]) none
          ((Layout.kvData.buffers [0, 4, 128] st.1 st.2).map src)
          ((Layout.kvData.buffers [0, 4, 128] 0 3).map dst) =
        .ok ((Layout.kvData.buffers [0, 4, 128] st.1 st.2).map src,
          (Layout.kvData.buffers [0, 4, 128] st.1 st.2).map dst)) ∧
    ([(0, 2), (2, 3)].flatMap fun st => Layout.kvData.buffers [0, 4, 128] st.1 st.2).Perm
      (Layout.kvData.buffers [0, 4, 128] 0 3) ∧
    ∀ st ∈ [(0, 2), (2, 3)], ∀ (endLayer : Option Nat) (src dst : Nat → Nat),
      getMlaKvPtrsWithPp st.1 endLayer none none ((List.range' st.1 (st.2 - st.1)).map src)
          ((List.range' 0 3).map dst) =
        .ok ((List.range' st.1 (st.2 - st.1)).map src, (List.range' st.1 (st.2 - st.1)).map dst) :=
  @stages_send_buffers_once [0, 4, 128] [(0, 2), (2, 3)] ⟨rfl, by decide, rfl, by decide,
    rfl⟩ .kvData none
    (by simp [Layout.SentAs])

/-! ## Section 3: Every stage of a split -/

/-- The stages of a split send each layer to the same layer, whatever the addresses, exactly when
the layer count of every stage divides the number of layers; a single stage does so beside draft
layers exactly when these are fewer; compressed lists are always paired right. -/
theorem stages_pair_layers_iff {L : Nat} {stages : List (Nat × Nat)} (hsplit : IsSplit 0 L stages) :
    ((∀ src dst : Addresses, ∀ st ∈ stages, PairsLayers st.1 st.2 src dst
        (getMhaKvPtrsWithPp st.1 (src.ptrs st.1 st.2) (dst.ptrs 0 L))) ↔
      ∀ st ∈ stages, (st.2 - st.1) ∣ L) ∧
    (∀ D, 0 < L → ((∀ src dst draft : Addresses, PairsLayers 0 L src dst
        (getMhaKvPtrsWithPp 0 (src.ptrs 0 L) (dst.ptrs 0 L ++ draft.ptrs 0 D))) ↔ D < L)) ∧
    ∀ (mlaRatios : List Nat) (s e : Nat) (layout : Layout) (stateType : Option StateType),
      s ≤ e → e ≤ mlaRatios.length → layout.SentAs mlaRatios stateType → ∀ src dst : Buffer → Nat,
        mlaSlicePtrsForPp s (some e) mlaRatios stateType ((layout.buffers mlaRatios s e).map src)
            ((layout.buffers mlaRatios 0 mlaRatios.length).map dst) =
          .ok ((layout.buffers mlaRatios s e).map src, (layout.buffers mlaRatios s e).map dst) := by
  refine ⟨⟨?_, ?_⟩, fun D hL => pairsLayers_draft_iff hL D,
    fun mlaRatios s e layout stateType h he hsent src dst =>
      mlaSlicePtrsForPp_pairs h he hsent src dst⟩
  · intro hpairs st hst
    obtain ⟨-, hlt, hle⟩ := hsplit.bounds hst
    exact (pairsLayers_stage_iff hlt hle).mp (fun src dst => hpairs src dst st hst)
  · intro hdvd src dst st hst
    obtain ⟨-, hlt, hle⟩ := hsplit.bounds hst
    exact (pairsLayers_stage_iff hlt hle).mpr (hdvd st hst) src dst

/-- Four layers in two even stages. -/
theorem stages_pair_layers_even :
    IsSplit 0 4 [(0, 2), (2, 4)] ∧
      ∀ src dst : Addresses, ∀ st ∈ [(0, 2), (2, 4)], PairsLayers st.1 st.2 src dst
        (getMhaKvPtrsWithPp st.1 (src.ptrs st.1 st.2) (dst.ptrs 0 4)) :=
  have hsplit : IsSplit 0 4 [(0, 2), (2, 4)] := ⟨rfl, by decide, rfl, by decide, rfl⟩
  ⟨hsplit, (stages_pair_layers_iff hsplit).1.mpr (by decide)⟩

/-- Three layers in stages of two and one: the first stage reads the buffers for its values at
offset 2 and not 3 of the list of six, so `V_0` goes to `K_2` and `V_1` to `V_0`. -/
theorem uneven_stage_sends_astray :
    IsSplit 0 3 [(0, 2), (2, 3)] ∧
      getMhaKvPtrsWithPp 0 ((⟨id, (2 + ·)⟩ : Addresses).ptrs 0 2)
      ((⟨id, (3 + ·)⟩ : Addresses).ptrs 0 3) = some ⟨[0, 1], [2, 3], [0, 1], [2, 3]⟩ ∧
      ¬∀ src dst : Addresses, ∀ st ∈ [(0, 2), (2, 3)], PairsLayers st.1 st.2 src dst
        (getMhaKvPtrsWithPp st.1 (src.ptrs st.1 st.2) (dst.ptrs 0 3)) := by
  have hsplit : IsSplit 0 3 [(0, 2), (2, 3)] := ⟨rfl, by decide, rfl, by decide, rfl⟩
  have hgot : getMhaKvPtrsWithPp 0 ((⟨id, (2 + ·)⟩ : Addresses).ptrs 0 2)
      ((⟨id, (3 + ·)⟩ : Addresses).ptrs 0 3) = some ⟨[0, 1], [2, 3], [0, 1], [2, 3]⟩ := by decide
  refine ⟨hsplit, hgot, fun hpairs => ?_⟩
  have hfirst := hpairs ⟨id, (2 + ·)⟩ ⟨id, (3 + ·)⟩ (0, 2) (by decide)
  rw [PairsLayers, hgot] at hfirst
  exact absurd hfirst (by decide)

end Sglang.Disaggregation.PipelinePointers
