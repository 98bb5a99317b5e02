import Mathlib.Data.List.Forall2
import Mathlib.Tactic
import Sglang.Sampling.PenalizerRows
import Sglang.Sampling.SamplingBatchInfo

/-!
# Rows of the Sampling State

What row `i` of a `SamplingBatchInfo` shows of a request, and the invariant that keeps every row
with its request: `from_schedule_batch`, `filter_batch`, `merge_batch` and the accumulation of
penalties keep it.

- `SamplingBatchInfo.Aligned`: the invariant,
- `row_eq`: under it a row shows the parameters of its request,
- `aligned_fromScheduleBatch`, `Aligned.filterBatch`, `Aligned.mergeBatch`,
  `Aligned.cumulateOutputTokens`: the operations.
-/

namespace Sglang.Sampling

open List Option
open Lib (gather gather_map mem_of_mem_gather forall₂_gather)

variable {F C P K : Type}

/-! ## Section 1: What a row shows -/

/-- What the sampler reads of a row, apart from the penalties. -/
structure Row (F C P : Type) where
  temperature : Option F
  topP : Option F
  topK : Option Int
  minP : Option F
  samplingSeed : Option Int
  logitBias : Nat → F
  /-- The custom logit processors that the row is in the mask of. -/
  usesProcessor : P → Bool
  /-- The parameters that a custom logit processor gets for the row. -/
  customParams : Option C

/-- Row `i`. Custom logit processors are not applied unless the batch has some. -/
def SamplingBatchInfo.row [Zero F] [DecidableEq P] (s : SamplingBatchInfo F C P K) (i : Nat) :
    Row F C P where
  temperature := s.temperatures[i]?
  topP := s.topPs[i]?
  topK := s.topKs[i]?
  minP := s.minPs[i]?
  samplingSeed := s.samplingSeed.bind fun seeds => seeds[i]?
  logitBias := (s.logitBias.bind fun rows => rows[i]?).getD fun _ => 0
  usesProcessor := fun p => s.hasCustomLogitProcessor &&
    (s.customLogitProcessor.getD []).any fun e => e.processor = p && e.mask[i]?.getD false
  customParams :=
    if s.hasCustomLogitProcessor &&
        (s.customLogitProcessor.getD []).any fun e => e.mask[i]?.getD false then
      (s.customParams.bind fun params => params[i]?).join
    else none

/-- The custom logit processor of a request, where the server allows them. -/
def Sampler.ownProcessor (S : Sampler F C P K) (req : Req F C P) : Option P :=
  if S.enableCustomLogitProcessor then req.customLogitProcessor else none

/-- What the parameters of a request give. -/
def ownRow [Zero F] [DecidableEq P] (S : Sampler F C P K) (req : Req F C P) : Row F C P where
  temperature := some req.temperature
  topP := some req.topP
  topK := some req.topK
  minP := some req.minP
  samplingSeed := if S.enableDeterministicInference then some (req.samplingSeed.getD 42) else none
  logitBias := req.biasRow
  usesProcessor := fun p => S.ownProcessor req = some p
  customParams := if (S.ownProcessor req).isSome then req.customParams else none

/-! ## Section 2: The invariant -/

/-- The bias rows belong to the requests; there are none if no request has a bias. -/
def BiasAligned [Zero F] (bias : Option (List (Nat → F))) (reqs : List (Req F C P)) : Prop :=
  match bias with
  | none => ∀ req ∈ reqs, req.logitBias = none
  | some rows => rows = reqs.map Req.biasRow

/-- The parameters of the requests that have a custom logit processor are in their places. -/
def ParamsAligned (params : List (Option C)) (reqs : List (Req F C P)) : Prop :=
  List.Forall₂ (fun param req => req.customLogitProcessor.isSome → param = req.customParams) params
    reqs

/-- The mask of a processor is on for the requests that have it, and each processor has its
entry. -/
structure EntriesAligned [DecidableEq P] (S : Sampler F C P K)
    (entries : List (CustomProcessor P K))
    (reqs : List (Req F C P)) : Prop where
  key : ∀ e ∈ entries, e.key = S.hash e.processor
  mask : ∀ e ∈ entries,
    e.mask = reqs.map fun req => decide (req.customLogitProcessor = some e.processor)
  complete : ∀ req ∈ reqs, ∀ p, req.customLogitProcessor = some p → ∃ e ∈ entries, e.processor = p

/-- The custom logit processors and parameters of a batch. -/
inductive CustomAligned [DecidableEq P] (S : Sampler F C P K) (s : SamplingBatchInfo F C P K)
    (reqs : List (Req F C P)) : Prop where
  /-- No request may use one. -/
  | unused (has : s.hasCustomLogitProcessor = false) (params : s.customParams = none)
      (entries : s.customLogitProcessor = none)
      (own : ∀ req ∈ reqs, S.ownProcessor req = none)
  /-- Some request uses one. -/
  | used (has : s.hasCustomLogitProcessor = true) (enabled : S.enableCustomLogitProcessor = true)
      {params : List (Option C)} (hparams : s.customParams = some params)
      {entries : List (CustomProcessor P K)} (hentries : s.customLogitProcessor = some entries)
      (paramsAligned : ParamsAligned params reqs) (entriesAligned : EntriesAligned S entries reqs)

/-- Each row of the state belongs to the request, and to the tokens read for it, in its place. -/
structure SamplingBatchInfo.Aligned [Zero F] [One F] [Add F] [DecidableEq F] [DecidableEq P]
    (S : Sampler F C P K) (s : SamplingBatchInfo F C P K) (hs : List (Req F C P × List Nat)) :
    Prop where
  temperatures : s.temperatures = (hs.map Prod.fst).map Req.temperature
  topPs : s.topPs = (hs.map Prod.fst).map Req.topP
  topKs : s.topKs = (hs.map Prod.fst).map Req.topK
  minPs : s.minPs = (hs.map Prod.fst).map Req.minP
  samplingSeed : s.samplingSeed =
    if S.enableDeterministicInference then
      some ((hs.map Prod.fst).map fun req => req.samplingSeed.getD 42)
    else none
  logitBias : BiasAligned s.logitBias (hs.map Prod.fst)
  custom : CustomAligned S s (hs.map Prod.fst)
  orchestrator : s.penalizerOrchestrator.Aligned S.negInf hs

/-! ## Section 3: Rows under the invariant -/

variable {reqs : List (Req F C P)} {req : Req F C P}

theorem BiasAligned.row_eq [Zero F] {bias : Option (List (Nat → F))}
    (h : BiasAligned bias reqs) {i : Nat} (hi : reqs[i]? = some req) :
    ((bias.bind fun rows => rows[i]?).getD fun _ => 0) = req.biasRow := by
  cases bias with
  | none =>
    have hnone : req.logitBias = none := h req (mem_of_getElem? hi)
    change (fun _ => 0) = req.biasRow
    rw [Req.biasRow, hnone]
    rfl
  | some rows =>
    change rows = reqs.map Req.biasRow at h
    rw [bind_some, h, getElem?_map, hi]
    rfl

theorem ParamsAligned.getElem?_eq {params : List (Option C)} {i : Nat}
    (h : ParamsAligned params reqs) (hi : reqs[i]? = some req)
    (huses : req.customLogitProcessor.isSome) :
    params[i]? = some req.customParams := by
  obtain ⟨hlt, hget⟩ := List.getElem?_eq_some_iff.mp hi
  have hlt' : i < params.length := h.length_eq ▸ hlt
  have hparam := (forall₂_iff_get.mp h).2 i hlt' hlt
  rw [get_eq_getElem, get_eq_getElem, hget] at hparam
  rw [getElem?_eq_getElem hlt', hparam huses]

theorem ownProcessor_of_enabled {S : Sampler F C P K}
    (enabled : S.enableCustomLogitProcessor = true) :
    S.ownProcessor req = req.customLogitProcessor := if_pos enabled

section
variable [DecidableEq P] {S : Sampler F C P K} {s : SamplingBatchInfo F C P K}
  {reqs : List (Req F C P)} {i : Nat} {req : Req F C P}

section

variable {entries : List (CustomProcessor P K)} (h : EntriesAligned S entries reqs)
  (hi : reqs[i]? = some req)
include h hi

theorem EntriesAligned.mask_at {e : CustomProcessor P K}
    (he : e ∈ entries) :
    e.mask[i]?.getD false = decide (req.customLogitProcessor = some e.processor) := by
  rw [h.mask e he, getElem?_map, hi]
  rfl

theorem EntriesAligned.any_eq (p : P) :
    (entries.any fun e => e.processor = p && e.mask[i]?.getD false) =
      decide (req.customLogitProcessor = some p) := by
  rw [Bool.eq_iff_iff, List.any_eq_true, decide_eq_true_iff]
  constructor
  · intro hex
    obtain ⟨e, he, hand⟩ := hex
    rw [Bool.and_eq_true, decide_eq_true_iff, h.mask_at hi he, decide_eq_true_iff] at hand
    rw [hand.2, hand.1]
  · intro hp
    obtain ⟨e, he, rfl⟩ := h.complete req (mem_of_getElem? hi) p hp
    refine ⟨e, he, ?_⟩
    rw [h.mask_at hi he, hp]
    simp

theorem EntriesAligned.any_isSome :
    (entries.any fun e => e.mask[i]?.getD false) = req.customLogitProcessor.isSome := by
  rw [Bool.eq_iff_iff, List.any_eq_true, isSome_iff_exists]
  constructor
  · intro hex
    obtain ⟨e, he, hmask⟩ := hex
    rw [h.mask_at hi he, decide_eq_true_iff] at hmask
    exact ⟨e.processor, hmask⟩
  · intro hex
    obtain ⟨p, hp⟩ := hex
    obtain ⟨e, he, rfl⟩ := h.complete req (mem_of_getElem? hi) p hp
    refine ⟨e, he, ?_⟩
    rw [h.mask_at hi he, hp]
    exact decide_eq_true rfl

end

variable [Zero F]

theorem CustomAligned.usesProcessor_eq (h : CustomAligned S s reqs) (hi : reqs[i]? = some req)
    (p : P) : (s.row i).usesProcessor p = decide (S.ownProcessor req = some p) := by
  change (s.hasCustomLogitProcessor && _) = _
  cases h with
  | unused has params entries own =>
    rw [has, own req (mem_of_getElem? hi)]
    simp
  | used has enabled hparams hentries paramsAligned entriesAligned =>
    rw [has, hentries, ownProcessor_of_enabled enabled, Bool.true_and]
    exact entriesAligned.any_eq hi p

theorem CustomAligned.customParams_eq (h : CustomAligned S s reqs) (hi : reqs[i]? = some req) :
    (s.row i).customParams = if (S.ownProcessor req).isSome then req.customParams else none := by
  change (if (s.hasCustomLogitProcessor && _) = true then _ else none) = _
  cases h with
  | unused has params entries own =>
    rw [has, own req (mem_of_getElem? hi), Bool.false_and]
    rfl
  | used has enabled hparams hentries paramsAligned entriesAligned =>
    rw [has, hentries, hparams, ownProcessor_of_enabled enabled, Bool.true_and, getD_some,
      entriesAligned.any_isSome hi]
    split
    · next huses =>
      rw [bind_some, paramsAligned.getElem?_eq hi huses]
      rfl
    · rfl

end

section
variable [Zero F] [One F] [Add F] [DecidableEq F] [DecidableEq P] {S : Sampler F C P K}
  {s : SamplingBatchInfo F C P K} {hs : List (Req F C P × List Nat)} {i : Nat} {req : Req F C P}
  {read : List Nat}

/-- A row shows the parameters of its request and nothing of the rest of the batch. -/
theorem SamplingBatchInfo.Aligned.row_eq (h : s.Aligned S hs) (hi : hs[i]? = some (req, read)) :
    s.row i = ownRow S req := by
  have hi' : (hs.map Prod.fst)[i]? = some req := by
    rw [getElem?_map, hi]
    rfl
  have hat : ∀ {α : Type} (f : Req F C P → α), ((hs.map Prod.fst).map f)[i]? = some (f req) := by
    intro α f
    rw [getElem?_map, hi']
    rfl
  have huses := funext fun p => h.custom.usesProcessor_eq hi' p
  have hparams := h.custom.customParams_eq hi'
  have hseed : (s.samplingSeed.bind fun seeds => seeds[i]?) =
      if S.enableDeterministicInference then some (req.samplingSeed.getD 42) else none := by
    rw [h.samplingSeed]
    split
    · exact hat _
    · rfl
  have hbias := h.logitBias.row_eq hi'
  have htemperature : s.temperatures[i]? = _ := h.temperatures ▸ hat Req.temperature
  have htopP : s.topPs[i]? = _ := h.topPs ▸ hat Req.topP
  have htopK : s.topKs[i]? = _ := h.topKs ▸ hat Req.topK
  have hminP : s.minPs[i]? = _ := h.minPs ▸ hat Req.minP
  unfold row at huses hparams ⊢
  unfold ownRow
  congr 1

end

/-! ## Section 4: What the operations keep -/

section
variable [DecidableEq K]

theorem foldl_putProcessor {es acc : List (CustomProcessor P K)}
    (hnodup : ((acc ++ es).map CustomProcessor.key).Nodup) :
    es.foldl SamplingBatchInfo.putProcessor acc = acc ++ es := by
  induction es generalizing acc with
  | nil => rw [foldl_nil, append_nil]
  | cons e es ih =>
    have hnew : ¬ (acc.any fun other => decide (other.key = e.key)) = true := by
      rw [List.any_eq_true]
      intro hex
      obtain ⟨other, hmem, hkey⟩ := hex
      rw [map_append, nodup_append] at hnodup
      exact hnodup.2.2 _ (List.mem_map_of_mem hmem) _ (List.mem_map_of_mem (mem_cons_self ..))
        (of_decide_eq_true hkey)
    rw [foldl_cons, SamplingBatchInfo.putProcessor, if_neg hnew, ih]
    · rw [append_assoc, singleton_append]
    · rw [append_assoc, singleton_append]
      exact hnodup

variable [DecidableEq P] {S : Sampler F C P K}

theorem entriesAligned_processorDict (hhash : Function.Injective S.hash) (reqs : List (Req F C P)) :
    EntriesAligned S (SamplingBatchInfo.processorDict S reqs) reqs := by
  have hdict : SamplingBatchInfo.processorDict S reqs =
      (reqs.filterMap Req.customLogitProcessor).reverse.dedup.reverse.map
        (SamplingBatchInfo.processorEntry S reqs) := by
    rw [SamplingBatchInfo.processorDict, foldl_putProcessor, nil_append]
    rw [nil_append, List.map_map]
    exact (nodup_reverse.mpr (nodup_dedup _)).map hhash
  have hmem : ∀ p, p ∈ (reqs.filterMap Req.customLogitProcessor).reverse.dedup.reverse ↔
      ∃ req ∈ reqs, req.customLogitProcessor = some p := by
    intro p
    rw [mem_reverse, mem_dedup, mem_reverse, mem_filterMap]
  rw [hdict]
  refine ⟨?_, ?_, ?_⟩
  · intro e he
    obtain ⟨p, _, rfl⟩ := List.mem_map.mp he
    rfl
  · intro e he
    obtain ⟨p, _, rfl⟩ := List.mem_map.mp he
    rfl
  · intro req hreq p hp
    exact ⟨SamplingBatchInfo.processorEntry S reqs p,
      List.mem_map_of_mem ((hmem p).mpr ⟨req, hreq, hp⟩), rfl⟩

variable {entries : List (CustomProcessor P K)}

omit [DecidableEq K] in
theorem EntriesAligned.filter {reqs : List (Req F C P)}
    (h : EntriesAligned S entries reqs) (keepIndices : List Nat) :
    EntriesAligned S
      ((entries.map fun e => { e with mask := gather e.mask keepIndices }).filter
        fun e => e.mask.any id)
      (gather reqs keepIndices) := by
  have hmask : ∀ e ∈ entries, gather e.mask keepIndices = (gather reqs keepIndices).map
      fun req => decide (req.customLogitProcessor = some e.processor) := by
    intro e he
    rw [h.mask e he, gather_map]
  refine ⟨?_, ?_, ?_⟩
  · intro e he
    obtain ⟨e', he', rfl⟩ := List.mem_map.mp (mem_of_mem_filter he)
    exact h.key e' he'
  · intro e he
    obtain ⟨e', he', rfl⟩ := List.mem_map.mp (mem_of_mem_filter he)
    exact hmask e' he'
  · intro req hreq p hp
    obtain ⟨e, he, rfl⟩ := h.complete req (mem_of_mem_gather hreq) p hp
    refine ⟨{ e with mask := gather e.mask keepIndices }, ?_, rfl⟩
    rw [mem_filter]
    refine ⟨List.mem_map_of_mem he, ?_⟩
    change (gather e.mask keepIndices).any id = true
    rw [hmask e he, List.any_map, List.any_eq_true]
    exact ⟨req, hreq, decide_eq_true hp⟩

omit [DecidableEq P] in
theorem findProcessor_eq_some {key : K}
    {e : CustomProcessor P K} (h : SamplingBatchInfo.findProcessor entries key = some e) :
    e ∈ entries ∧ e.key = key := by
  unfold SamplingBatchInfo.findProcessor at h
  exact ⟨mem_of_find?_eq_some h, by simpa using find?_some h⟩

omit [DecidableEq P] in
theorem findProcessor_eq_none {key : K} :
    SamplingBatchInfo.findProcessor entries key = none ↔ ∀ e ∈ entries, e.key ≠ key := by
  simp [SamplingBatchInfo.findProcessor]

theorem EntriesAligned.replicate_eq
    {reqs : List (Req F C P)} (h : EntriesAligned S entries reqs) {p : P}
    (hnone : SamplingBatchInfo.findProcessor entries (S.hash p) = none) :
    List.replicate reqs.length false =
      reqs.map fun req => decide (req.customLogitProcessor = some p) := by
  rw [eq_comm, eq_replicate_iff]
  refine ⟨length_map .., ?_⟩
  intro b hb
  obtain ⟨req, hreq, rfl⟩ := List.mem_map.mp hb
  rw [decide_eq_false_iff_not]
  intro hp
  obtain ⟨e, he, rfl⟩ := h.complete req hreq p hp
  exact findProcessor_eq_none.mp hnone e he (h.key e he)

theorem EntriesAligned.merge (hhash : Function.Injective S.hash)
    {lhs rhs : Option (List (CustomProcessor P K))} {reqs others : List (Req F C P)}
    (hl : EntriesAligned S (lhs.getD []) reqs) (hr : EntriesAligned S (rhs.getD []) others)
    (hsome : ¬ (lhs.isNone ∧ rhs.isNone)) :
    ∃ entries, SamplingBatchInfo.mergeCustomLogitProcessor lhs rhs reqs.length others.length =
      some entries ∧ EntriesAligned S entries (reqs ++ others) := by
  refine ⟨_, if_neg hsome, ?_⟩
  -- the mask of the right batch is that of the same processor, or all false
  have hright : ∀ e ∈ lhs.getD [],
      ((SamplingBatchInfo.findProcessor (rhs.getD []) e.key).map CustomProcessor.mask).getD
          (List.replicate others.length false) =
        others.map fun req => decide (req.customLogitProcessor = some e.processor) := by
    intro e he
    cases hfind : SamplingBatchInfo.findProcessor (rhs.getD []) e.key with
    | none =>
      rw [hl.key e he] at hfind
      exact hr.replicate_eq hfind
    | some e' =>
      obtain ⟨he', hkey⟩ := findProcessor_eq_some hfind
      have heq : e'.processor = e.processor := by
        apply hhash
        rw [← hr.key e' he', ← hl.key e he, hkey]
      rw [← heq]
      exact hr.mask e' he'
  refine ⟨?_, ?_, ?_⟩
  · intro e he
    cases mem_append.mp he with
    | inl hmem =>
      obtain ⟨e', he', rfl⟩ := List.mem_map.mp hmem
      exact hl.key e' he'
    | inr hmem =>
      obtain ⟨e', he', rfl⟩ := List.mem_map.mp hmem
      exact hr.key e' (mem_of_mem_filter he')
  · intro e he
    rw [map_append]
    cases mem_append.mp he with
    | inl hmem =>
      obtain ⟨e', he', rfl⟩ := List.mem_map.mp hmem
      exact congrArg₂ (· ++ ·) (hl.mask e' he') (hright e' he')
    | inr hmem =>
      obtain ⟨e', he', rfl⟩ := List.mem_map.mp hmem
      obtain ⟨hmem', hnew⟩ := mem_filter.mp he'
      rw [isNone_iff_eq_none, hr.key e' hmem'] at hnew
      exact congrArg₂ (· ++ ·) (hl.replicate_eq hnew) (hr.mask e' hmem')
  · intro req hreq p hp
    by_cases hknown : ∃ e ∈ lhs.getD [], e.processor = p
    · obtain ⟨e, he, rfl⟩ := hknown
      exact ⟨_, mem_append_left _ (List.mem_map_of_mem he), rfl⟩
    · -- a processor that only the other batch has
      have hreq' : req ∈ others := by
        cases mem_append.mp hreq with
        | inl h => exact absurd (hl.complete req h p hp) hknown
        | inr h => exact h
      obtain ⟨e, he, rfl⟩ := hr.complete req hreq' p hp
      refine ⟨_, mem_append_right _ (List.mem_map_of_mem (mem_filter.mpr ⟨he, ?_⟩)), rfl⟩
      rw [isNone_iff_eq_none, findProcessor_eq_none]
      intro e' he' hkey
      apply hknown
      refine ⟨e', he', hhash ?_⟩
      rw [← hl.key e' he', ← hr.key e he, hkey]

end

theorem ParamsAligned.map (reqs : List (Req F C P)) :
    ParamsAligned (reqs.map Req.customParams) reqs := by
  unfold ParamsAligned
  rw [forall₂_map_left_iff, forall₂_same]
  exact fun _ _ _ => rfl

theorem ParamsAligned.replicate
    (hnone : ∀ req ∈ reqs, req.customLogitProcessor = none) :
    ParamsAligned (List.replicate reqs.length none) reqs := by
  have hreplicate : List.replicate reqs.length none = reqs.map fun _ => (none : Option C) := by
    rw [map_const']
  unfold ParamsAligned
  rw [hreplicate, forall₂_map_left_iff, forall₂_same]
  intro req hreq huses
  rw [hnone req hreq] at huses
  cases huses

theorem BiasAligned.mergeBiasTensor [Zero F] {lhs rhs : Option (List (Nat → F))}
    {reqs others : List (Req F C P)} (hl : BiasAligned lhs reqs) (hr : BiasAligned rhs others) :
    BiasAligned (SamplingBatchInfo.mergeBiasTensor lhs rhs reqs.length others.length)
      (reqs ++ others) := by
  -- a missing tensor is filled with the rows that its requests have
  have hfill : ∀ {bias : Option (List (Nat → F))} {reqs : List (Req F C P)},
      BiasAligned bias reqs →
      bias.getD (List.replicate reqs.length fun _ => 0) = reqs.map Req.biasRow := by
    intro bias reqs h
    cases bias with
    | none =>
      rw [getD_none, eq_comm, eq_replicate_iff]
      refine ⟨length_map .., ?_⟩
      intro row hrow
      obtain ⟨req, hreq, rfl⟩ := List.mem_map.mp hrow
      have hnone : req.logitBias = none := h req hreq
      rw [Req.biasRow, hnone]
      rfl
    | some rows => exact h
  unfold SamplingBatchInfo.mergeBiasTensor
  split
  · next hnone =>
    rw [isNone_iff_eq_none, isNone_iff_eq_none] at hnone
    rw [hnone.1] at hl
    rw [hnone.2] at hr
    intro req hreq
    cases mem_append.mp hreq with
    | inl h => exact hl req h
    | inr h => exact hr req h
  · change _ = _
    rw [hfill hl, hfill hr, map_append]

theorem BiasAligned.gather [Zero F] {bias : Option (List (Nat → F))}
    (h : BiasAligned bias reqs) (keepIndices : List Nat) :
    BiasAligned (bias.map fun rows => Lib.gather rows keepIndices)
    (Lib.gather reqs keepIndices) := by
  cases bias with
  | none => exact fun req hreq => h req (mem_of_mem_gather hreq)
  | some rows =>
    change rows = reqs.map Req.biasRow at h
    change Lib.gather rows keepIndices = _
    rw [h, gather_map]

section
variable [DecidableEq P] {S : Sampler F C P K} {s t : SamplingBatchInfo F C P K}
  {reqs others : List (Req F C P)}

theorem CustomAligned.congr (h : CustomAligned S s reqs)
    (hhas : t.hasCustomLogitProcessor = s.hasCustomLogitProcessor)
    (hparams : t.customParams = s.customParams)
    (hentries : t.customLogitProcessor = s.customLogitProcessor) : CustomAligned S t reqs := by
  cases h with
  | unused has params entries own =>
    exact .unused (hhas.trans has) (hparams.trans params) (hentries.trans entries) own
  | used has enabled hp he paramsAligned entriesAligned =>
    exact .used (hhas.trans has) enabled (hparams.trans hp) (hentries.trans he) paramsAligned
      entriesAligned

theorem CustomAligned.of_unused (h : CustomAligned S s reqs)
    (has : s.hasCustomLogitProcessor = false) :
    s.customParams = none ∧ s.customLogitProcessor = none ∧
      ∀ req ∈ reqs, S.ownProcessor req = none := by
  cases h with
  | unused _ params entries own => exact ⟨params, entries, own⟩
  | used has' =>
    rw [has] at has'
    cases has'

theorem CustomAligned.filled (h : CustomAligned S s reqs)
    (enabled : S.enableCustomLogitProcessor = true) :
    ParamsAligned (s.customParams.getD (List.replicate reqs.length none)) reqs ∧
      EntriesAligned S (s.customLogitProcessor.getD []) reqs := by
  cases h with
  | unused has params entries own =>
    have hnone : ∀ req ∈ reqs, req.customLogitProcessor = none := by
      intro req hreq
      rw [← ownProcessor_of_enabled enabled]
      exact own req hreq
    rw [params, entries]
    refine ⟨.replicate hnone, nofun, nofun, ?_⟩
    intro req hreq p hp
    rw [hnone req hreq] at hp
    cases hp
  | used has enabled hp he paramsAligned entriesAligned =>
    rw [hp, he]
    exact ⟨paramsAligned, entriesAligned⟩

theorem EntriesAligned.eq_none_of_nil (h : EntriesAligned S [] reqs) :
    ∀ req ∈ reqs, S.ownProcessor req = none := by
  intro req hreq
  unfold Sampler.ownProcessor
  split
  · cases hp : req.customLogitProcessor with
    | none => rfl
    | some p =>
      obtain ⟨e, he, _⟩ := h.complete req hreq p hp
      cases he
  · rfl

/-- Filtering the custom part keeps it aligned and changes nothing else. -/
theorem CustomAligned.filter (h : CustomAligned S s reqs) (keepIndices : List Nat) :
    ∃ has params entries,
      (if s.hasCustomLogitProcessor then s.filterBatchCustomLogitProcessor keepIndices else s) =
        { s with
          hasCustomLogitProcessor := has
          customParams := params
          customLogitProcessor := entries } ∧
      CustomAligned S
        { s with
          hasCustomLogitProcessor := has
          customParams := params
          customLogitProcessor := entries }
        (gather reqs keepIndices) := by
  cases h with
  | unused has params entries own =>
    refine ⟨s.hasCustomLogitProcessor, s.customParams, s.customLogitProcessor, ?_, ?_⟩
    · rw [if_neg (Bool.eq_false_iff.mp has)]
    · exact .unused has params entries fun req hreq => own req (mem_of_mem_gather hreq)
  | used has enabled hparams hentries paramsAligned entriesAligned =>
    have hkept := entriesAligned.filter keepIndices
    rw [if_pos has, SamplingBatchInfo.filterBatchCustomLogitProcessor, hentries, hparams,
      getD_some]
    split
    · next hlen =>
      rw [eq_nil_of_length_eq_zero hlen] at hkept
      exact ⟨false, none, none, rfl, .unused rfl rfl rfl hkept.eq_none_of_nil⟩
    · exact ⟨_, _, _, rfl,
        .used has enabled rfl rfl (forall₂_gather paramsAligned keepIndices) hkept⟩

/-- Merging the custom parts of two batches, of which one uses processors. -/
theorem CustomAligned.merge [DecidableEq K] (hhash : Function.Injective S.hash)
    (hl : CustomAligned S s reqs) (hr : CustomAligned S t others)
    (has : (s.hasCustomLogitProcessor || t.hasCustomLogitProcessor) = true) :
    S.enableCustomLogitProcessor = true ∧
      ParamsAligned (s.customParams.getD (List.replicate reqs.length none) ++
        t.customParams.getD (List.replicate others.length none)) (reqs ++ others) ∧
      ∃ entries, SamplingBatchInfo.mergeCustomLogitProcessor s.customLogitProcessor
          t.customLogitProcessor reqs.length others.length = some entries ∧
        EntriesAligned S entries (reqs ++ others) := by
  have hused : S.enableCustomLogitProcessor = true ∧
      ¬ (s.customLogitProcessor.isNone ∧ t.customLogitProcessor.isNone) := by
    cases hl with
    | used _ enabled _ hentries =>
      refine ⟨enabled, ?_⟩
      rw [hentries]
      exact fun hnone => nomatch hnone.1
    | unused hfalse =>
      cases hr with
      | used _ enabled _ hentries =>
        refine ⟨enabled, ?_⟩
        rw [hentries]
        exact fun hnone => nomatch hnone.2
      | unused hfalse' =>
        rw [hfalse, hfalse'] at has
        cases has
  obtain ⟨enabled, hsome⟩ := hused
  obtain ⟨hparams, hentries⟩ := hl.filled enabled
  obtain ⟨hparams', hentries'⟩ := hr.filled enabled
  exact ⟨enabled, rel_append hparams hparams', hentries.merge hhash hentries' hsome⟩

end

/-! ## Section 5: The whole state -/

section
variable [Zero F] [One F] [Add F] [DecidableEq F] [LT F] [DecidableLT F] [DecidableEq P]
  [DecidableEq K] {S : Sampler F C P K}

theorem aligned_fromScheduleBatch (h0 : (0 : F) + 0 = 0) (hhash : Function.Injective S.hash)
    (reqs : List (Req F C P)) :
    (SamplingBatchInfo.fromScheduleBatch S reqs).Aligned S (reqs.map fun req => (req, [])) := by
  have hfst : (reqs.map fun req => (req, ([] : List Nat))).map Prod.fst = reqs := by
    rw [List.map_map]
    exact List.map_id reqs
  have hbias : BiasAligned (SamplingBatchInfo.fromScheduleBatch S reqs).logitBias reqs := by
    change BiasAligned (if reqs.any _ = true then _ else none) reqs
    split
    · rfl
    · next hany => simpa [BiasAligned] using hany
  have hcustom : CustomAligned S (SamplingBatchInfo.fromScheduleBatch S reqs) reqs := by
    cases hhas : S.enableCustomLogitProcessor && reqs.any fun req =>
        req.customLogitProcessor.isSome with
    | true =>
      apply CustomAligned.used hhas (Bool.and_eq_true_iff.mp hhas).1 (if_pos hhas) (if_pos hhas)
      · exact .map reqs
      · exact entriesAligned_processorDict hhash reqs
    | false =>
      apply CustomAligned.unused hhas (if_neg (Bool.eq_false_iff.mp hhas))
        (if_neg (Bool.eq_false_iff.mp hhas))
      intro req hreq
      unfold Sampler.ownProcessor
      split
      · next enabled =>
        rw [enabled, Bool.true_and, List.any_eq_false] at hhas
        simpa using hhas req hreq
      · rfl
  refine ⟨?_, ?_, ?_, ?_, ?_, ?_, ?_, Orchestrator.aligned_new h0 reqs⟩
  all_goals rw [hfst]
  · rfl
  · rfl
  · rfl
  · rfl
  · rfl
  · exact hbias
  · exact hcustom

end

section
variable [Zero F] [One F] [Add F] [DecidableEq F] [DecidableEq P] {S : Sampler F C P K}
  {s other : SamplingBatchInfo F C P K} {hs others : List (Req F C P × List Nat)}

/-- One more token read for each request. -/
def readOn (ids : List Nat) (hs : List (Req F C P × List Nat)) : List (Req F C P × List Nat) :=
  ids.zipWith (fun id h => (h.1, h.2 ++ [id])) hs

omit [Zero F] [One F] [Add F] [DecidableEq F] [DecidableEq P] in
theorem map_fst_readOn {ids : List Nat} (hlen : ids.length = hs.length) :
    (readOn ids hs).map Prod.fst = hs.map Prod.fst := by
  induction hs generalizing ids with
  | nil => rw [readOn, zipWith_nil_right]
  | cons h hs ih =>
    cases ids with
    | nil => cases hlen
    | cons id ids => exact congrArg (h.1 :: ·) (ih (Nat.succ.inj hlen))

/-- Each request's penalizers count one more token; nothing else changes. -/
theorem SamplingBatchInfo.Aligned.cumulateOutputTokens (h0 : (0 : F) + 0 = 0) (h : s.Aligned S hs)
    {ids : List Nat} (hlen : ids.length = hs.length) :
    (s.cumulateOutputTokens S ids).Aligned S (readOn ids hs) := by
  have hfst := map_fst_readOn hlen
  have horchestrator := h.orchestrator.cumulateOutputTokens h0 hlen
  unfold SamplingBatchInfo.cumulateOutputTokens
  split
  · refine ⟨?_, ?_, ?_, ?_, ?_, ?_, ?_, horchestrator⟩
    all_goals rw [hfst]
    · exact h.temperatures
    · exact h.topPs
    · exact h.topKs
    · exact h.minPs
    · exact h.samplingSeed
    · exact h.logitBias
    · exact h.custom.congr rfl rfl rfl
  · next hidle =>
    -- nothing is prepared, so that the tokens leave no trace
    rw [h.orchestrator.idle (Bool.eq_false_iff.mpr hidle)] at horchestrator
    refine ⟨?_, ?_, ?_, ?_, ?_, ?_, ?_, ?_⟩
    · rw [hfst]
      exact h.temperatures
    · rw [hfst]
      exact h.topPs
    · rw [hfst]
      exact h.topKs
    · rw [hfst]
      exact h.minPs
    · rw [hfst]
      exact h.samplingSeed
    · rw [hfst]
      exact h.logitBias
    · rw [hfst]
      exact h.custom
    · rw [h.orchestrator.idle (Bool.eq_false_iff.mpr hidle)]
      exact horchestrator

theorem SamplingBatchInfo.Aligned.filterBatch (h : s.Aligned S hs) (keepIndices : List Nat) :
    (s.filterBatch S ((gather hs keepIndices).map Prod.fst) keepIndices).Aligned S
      (gather hs keepIndices) := by
  have hgather : ∀ {α : Type} {l : List α} {f : Req F C P → α}, l = (hs.map Prod.fst).map f →
      gather l keepIndices = ((gather hs keepIndices).map Prod.fst).map f := by
    intro α l f hl
    rw [hl, gather_map, gather_map]
  have hbias := h.logitBias.gather keepIndices
  rw [gather_map] at hbias
  have hcustom := h.custom.congr (t := { s with
    penalizerOrchestrator :=
      s.penalizerOrchestrator.filter S.negInf ((gather hs keepIndices).map Prod.fst) keepIndices })
    rfl rfl rfl
  obtain ⟨has, params, entries, heq, hcustom⟩ := hcustom.filter keepIndices
  rw [gather_map] at hcustom
  unfold SamplingBatchInfo.filterBatch
  dsimp only at heq ⊢
  rw [heq]
  refine ⟨hgather h.temperatures, hgather h.topPs, hgather h.topKs, hgather h.minPs, ?_, hbias,
    hcustom.congr rfl rfl rfl, h.orchestrator.filter keepIndices⟩
  rw [h.samplingSeed]
  split
  · exact congrArg some (hgather rfl)
  · rfl

/-- The rows of the other batch come after those of this one, and so do its requests. -/
theorem SamplingBatchInfo.Aligned.mergeBatch [DecidableEq K] (h0 : (0 : F) + 0 = 0)
    (hhash : Function.Injective S.hash) (h : s.Aligned S hs) (ho : other.Aligned S others) :
    (s.mergeBatch S other (hs.map Prod.fst) (others.map Prod.fst)).Aligned S (hs ++ others) := by
  have hlen : s.length = (hs.map Prod.fst).length := by
    rw [SamplingBatchInfo.length, h.temperatures, length_map]
  have hlen' : other.length = (others.map Prod.fst).length := by
    rw [SamplingBatchInfo.length, ho.temperatures, length_map]
  have happend : ∀ {α : Type} {l l' : List α} {f : Req F C P → α}, l = (hs.map Prod.fst).map f →
      l' = (others.map Prod.fst).map f → l ++ l' = ((hs ++ others).map Prod.fst).map f := by
    intro α l l' f hl hl'
    rw [hl, hl', map_append, map_append]
  refine ⟨happend h.temperatures ho.temperatures, happend h.topPs ho.topPs,
    happend h.topKs ho.topKs, happend h.minPs ho.minPs, ?_, ?_, ?_,
    h.orchestrator.merge h0 ho.orchestrator⟩
  · unfold SamplingBatchInfo.mergeBatch
    dsimp only
    rw [h.samplingSeed, ho.samplingSeed]
    split_ifs
    · exact congrArg some (happend rfl rfl)
    · rfl
  · rw [map_append]
    change BiasAligned (SamplingBatchInfo.mergeBiasTensor _ _ s.length other.length) _
    rw [hlen, hlen']
    exact h.logitBias.mergeBiasTensor ho.logitBias
  · rw [map_append]
    cases has : s.hasCustomLogitProcessor || other.hasCustomLogitProcessor with
    | false =>
      obtain ⟨hfalse, hfalse'⟩ := Bool.or_eq_false_iff.mp has
      obtain ⟨params, entries, own⟩ := h.custom.of_unused hfalse
      obtain ⟨_, _, own'⟩ := ho.custom.of_unused hfalse'
      have hall : ∀ req ∈ hs.map Prod.fst ++ others.map Prod.fst, S.ownProcessor req = none := by
        intro req hreq
        cases mem_append.mp hreq with
        | inl hl => exact own req hl
        | inr hr => exact own' req hr
      unfold SamplingBatchInfo.mergeBatch
      dsimp only
      rw [has]
      exact (CustomAligned.unused hfalse params entries hall).congr rfl rfl rfl
    | true =>
      obtain ⟨enabled, hparams, entries, hmerge, hentries⟩ := h.custom.merge hhash ho.custom has
      rw [← hlen, ← hlen'] at hparams hmerge
      unfold SamplingBatchInfo.mergeBatch
      dsimp only
      rw [has, if_pos rfl, if_pos rfl, if_pos rfl, hmerge]
      exact .used rfl enabled rfl rfl hparams hentries

end

end Sglang.Sampling
