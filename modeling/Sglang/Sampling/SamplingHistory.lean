import Mathlib.Data.List.Forall2
import Mathlib.Tactic
import Sglang.Lib.Runs
import Sglang.Sampling.RowsAligned

/-!
# Sampling State over a Run

The batches of a scheduler, with a record of what each row is: the request, the tokens that
`prepare_for_decode` has read for it since its prefill, and whether it had output before that
prefill.

- `Traced.step`: a step of the batches, and what it records,
- `rows_of_run`: after every run each row is the one its request would have in a batch of its own
  that read the same tokens; where each result is processed before the next decode is prepared,
  these are the request's output tokens.
-/

namespace Sglang.Sampling

open List Option Function
open Sglang.Lib (run Along gather gather_map mem_of_mem_gather invariant_of_run)

/-! ## Section 1: The record -/

/-- What is known of a row: its request, the tokens read for it since its prefill, and whether the
request had no output when it was prefilled. -/
structure Entry where
  req : Nat
  read : List Nat
  fresh : Bool
deriving DecidableEq, Repr

/-- The batches with the record of their rows. -/
structure Traced (F C P K : Type) where
  world : Batches F C P K
  entries : Nat → List Entry

variable {F C P K : Type}

def Traced.start : Traced F C P K := ⟨⟨fun _ => none, fun _ => []⟩, fun _ => []⟩

def Entry.history (S : Sampler F C P K) (e : Entry) : Req F C P × List Nat := (S.reqs e.req, e.read)

/-- The row after `prepare_for_decode`. -/
def Entry.readNext (S : Sampler F C P K) (outputIds : Nat → List Nat) (e : Entry) : Entry :=
  { e with read := e.read ++ [ScheduleBatch.lastToken S outputIds e.req] }

/-- The rows after `filter_batch`, which does nothing if all are kept. -/
def filterEntries (es : List Entry) (keepIndices : List Nat) : List Entry :=
  if keepIndices.length = es.length then es else gather es keepIndices

namespace Traced

/-- The rows of the batches after a step. -/
def record (S : Sampler F C P K) (t : Traced F C P K) : BatchOp → Nat → List Entry
  | .prefill b reqs => Function.update t.entries b
      (reqs.map fun r => ⟨r, [], t.world.outputIds r = []⟩)
  | .decode b => Function.update t.entries b
      ((t.entries b).map fun e => e.readNext S t.world.outputIds)
  | .filter b keepIndices => Function.update t.entries b (filterEntries (t.entries b) keepIndices)
  | .merge b other => Function.update (Function.update t.entries b (t.entries b ++ t.entries other))
      other []
  | .drop b => Function.update t.entries b []
  | .output _ _ => t.entries

/-- Each result is processed before the next decode is prepared: without overlap. -/
def InStep (t : Traced F C P K) : BatchOp → Prop
  | .decode b => ∀ e ∈ t.entries b, (t.world.outputIds e.req).length = e.read.length + 1 ∨
      e.fresh = false
  | _ => True

instance decidableInStep (t : Traced F C P K) : DecidablePred t.InStep
  | .decode b => List.decidableBAll
      (fun e : Entry => (t.world.outputIds e.req).length = e.read.length + 1 ∨ e.fresh = false)
      (t.entries b)
  | .prefill _ _ => isTrue trivial
  | .filter _ _ => isTrue trivial
  | .merge _ _ => isTrue trivial
  | .drop _ => isTrue trivial
  | .output _ _ => isTrue trivial

variable [Zero F] [One F] [Add F] [DecidableEq F] [LT F] [DecidableLT F] [DecidableEq P]
  [DecidableEq K] (S : Sampler F C P K)

def step (t : Traced F C P K) (op : BatchOp) : Option (Traced F C P K) :=
  (t.world.step S op).map fun world => ⟨world, t.record S op⟩

end Traced

/-- The sampling state of a batch that has only ever contained the request of an entry. -/
def soloInfo [Zero F] [One F] [Add F] [DecidableEq F] [LT F] [DecidableLT F] [DecidableEq P]
    [DecidableEq K] (S : Sampler F C P K) (e : Entry) : SamplingBatchInfo F C P K :=
  e.read.foldl (fun s id => s.cumulateOutputTokens S [id])
    (SamplingBatchInfo.fromScheduleBatch S [S.reqs e.req])

/-! ## Section 2: One batch -/

theorem map_fst_history (S : Sampler F C P K) (es : List Entry) :
    (es.map (Entry.history S)).map Prod.fst = (es.map Entry.req).map S.reqs := by
  rw [List.map_map, List.map_map]
  rfl

section
variable [Zero F] [One F] [Add F] [DecidableEq F] [LT F] [DecidableLT F] [DecidableEq P]
  [DecidableEq K] {S : Sampler F C P K}

/-- The rows of a batch are those of the record. The state of a batch without requests is not
kept. -/
structure BatchAligned (S : Sampler F C P K) (batch : ScheduleBatch F C P K) (es : List Entry) :
    Prop where
  reqs : batch.reqs = es.map Entry.req
  info : batch.reqs ≠ [] → batch.samplingInfo.Aligned S (es.map (Entry.history S))

theorem aligned_soloInfo (h0 : (0 : F) + 0 = 0) (hhash : Function.Injective S.hash) (e : Entry) :
    (soloInfo S e).Aligned S [e.history S] := by
  obtain ⟨r, read, fresh⟩ := e
  induction read using List.reverseRecOn with
  | nil => exact aligned_fromScheduleBatch h0 hhash [S.reqs r]
  | append_singleton read id ih =>
    unfold soloInfo
    rw [foldl_append]
    have hone : [id].length = [Entry.history S ⟨r, read, fresh⟩].length := rfl
    exact ih.cumulateOutputTokens h0 hone

theorem batchAligned_prepareForExtend (h0 : (0 : F) + 0 = 0) (hhash : Function.Injective S.hash)
    (reqs : List Nat) (fresh : Nat → Bool) :
    BatchAligned S (ScheduleBatch.prepareForExtend S reqs)
      (reqs.map fun r => ⟨r, [], fresh r⟩) := by
  refine ⟨?_, ?_⟩
  · rw [List.map_map]
    exact (List.map_id reqs).symm
  · intro _
    have haligned := aligned_fromScheduleBatch h0 hhash (reqs.map S.reqs)
    rw [List.map_map] at haligned ⊢
    exact haligned

omit [LT F] [DecidableLT F] [DecidableEq K] in
theorem BatchAligned.prepareForDecode (h0 : (0 : F) + 0 = 0) {batch : ScheduleBatch F C P K}
    {es : List Entry} (h : BatchAligned S batch es) (outputIds : Nat → List Nat) :
    BatchAligned S (batch.prepareForDecode S outputIds)
      (es.map fun e => e.readNext S outputIds) := by
  refine ⟨?_, ?_⟩
  · rw [List.map_map]
    exact h.reqs
  · intro hne
    have hlen : (batch.reqs.map (ScheduleBatch.lastToken S outputIds)).length =
        (es.map (Entry.history S)).length := by
      rw [length_map, length_map, h.reqs, length_map]
    have haligned := (h.info hne).cumulateOutputTokens h0 hlen
    have hread : readOn (batch.reqs.map (ScheduleBatch.lastToken S outputIds))
        (es.map (Entry.history S)) =
        (es.map fun e => e.readNext S outputIds).map (Entry.history S) := by
      rw [h.reqs, readOn, List.map_map, zipWith_map, zipWith_self, List.map_map]
      rfl
    rw [hread] at haligned
    exact haligned

omit [LT F] [DecidableLT F] [DecidableEq K] in
theorem BatchAligned.filterBatch {batch batch' : ScheduleBatch F C P K} {es : List Entry}
    (h : BatchAligned S batch es) {keepIndices : List Nat}
    (heq : batch.filterBatch S keepIndices = some batch') :
    BatchAligned S batch' (filterEntries es keepIndices) := by
  have hlen : batch.reqs.length = es.length := by
    rw [h.reqs, length_map]
  unfold ScheduleBatch.filterBatch at heq
  unfold filterEntries
  rw [hlen] at heq
  split at heq
  · next hzero =>
    rw [← Option.some.inj heq]
    refine ⟨?_, fun hne => absurd rfl hne⟩
    split
    · next hall =>
      rw [eq_nil_of_length_eq_zero (hall.symm.trans hzero)]
      rfl
    · rw [eq_nil_of_length_eq_zero hzero]
      rfl
  · split at heq
    · next hall =>
      rw [← Option.some.inj heq, if_pos hall]
      exact h
    · next hall =>
      split at heq
      · next hrange =>
        rw [← Option.some.inj heq, if_neg hall]
        refine ⟨?_, ?_⟩
        · change gather batch.reqs keepIndices = _
          rw [h.reqs, gather_map]
        · intro hne
          have hne' : batch.reqs ≠ [] := by
            intro hnil
            apply hne
            change gather batch.reqs keepIndices = []
            rw [hnil, gather, filterMap_eq_nil_iff]
            exact fun i _ => getElem?_nil
          have haligned := (h.info hne').filterBatch keepIndices
          rw [gather_map, map_fst_history] at haligned
          change (batch.samplingInfo.filterBatch S ((gather batch.reqs keepIndices).map S.reqs)
            keepIndices).Aligned S _
          rw [h.reqs, gather_map]
          exact haligned
      · cases heq

omit [LT F] [DecidableLT F] in
theorem BatchAligned.mergeBatch (h0 : (0 : F) + 0 = 0) (hhash : Function.Injective S.hash)
    {batch other : ScheduleBatch F C P K} {es others : List Entry} (h : BatchAligned S batch es)
    (ho : BatchAligned S other others) (hne : batch.reqs ≠ []) (hne' : other.reqs ≠ []) :
    BatchAligned S (batch.mergeBatch S other) (es ++ others) := by
  refine ⟨?_, ?_⟩
  · rw [map_append, ← h.reqs, ← ho.reqs]
    rfl
  · intro _
    have haligned := (h.info hne).mergeBatch h0 hhash (ho.info hne')
    rw [map_fst_history, map_fst_history, ← h.reqs, ← ho.reqs, ← map_append] at haligned
    exact haligned

/-! ## Section 3: Over a run -/

namespace Traced

/-- The rows of every batch are those of the record. -/
def Aligned (S : Sampler F C P K) (t : Traced F C P K) : Prop :=
  ∀ b batch, t.world.batches b = some batch → BatchAligned S batch (t.entries b)

omit [LT F] [DecidableLT F] [DecidableEq K] in
theorem Aligned.update {t : Traced F C P K} (h : t.Aligned S) {b : Nat}
    {batch : Option (ScheduleBatch F C P K)} {es : List Entry}
    (hb : ∀ batch', batch = some batch' → BatchAligned S batch' es) :
    Aligned S ⟨t.world.setBatch b batch, Function.update t.entries b es⟩ := by
  intro b' batch' hbatch
  change Function.update t.world.batches b batch b' = some batch' at hbatch
  change BatchAligned S batch' (Function.update t.entries b es b')
  rw [update_apply] at hbatch ⊢
  split at hbatch
  · next heq =>
    rw [if_pos heq]
    exact hb batch' hbatch
  · next hne =>
    rw [if_neg hne]
    exact h b' batch' hbatch

omit [LT F] [DecidableLT F] [DecidableEq K] in
theorem Aligned.forget {t : Traced F C P K} (h : t.Aligned S) (b : Nat) :
    Aligned S ⟨t.world.setBatch b none, Function.update t.entries b []⟩ :=
  h.update fun _ hnone => absurd hnone.symm (some_ne_none _)

theorem aligned_step (h0 : (0 : F) + 0 = 0) (hhash : Function.Injective S.hash)
    {t t' : Traced F C P K} {op : BatchOp} (h : t.Aligned S) (hstep : t.step S op = some t') :
    t'.Aligned S := by
  rw [step, map_eq_some_iff] at hstep
  obtain ⟨world, hworld, rfl⟩ := hstep
  -- every operation rebuilds one batch, and the others keep their rows
  cases op with
  | prefill b reqs =>
    rw [← Option.some.inj hworld]
    apply h.update
    intro batch hbatch
    rw [← Option.some.inj hbatch]
    exact batchAligned_prepareForExtend h0 hhash reqs _
  | decode b =>
    cases hb : t.world.batches b with
    | none =>
      rw [Batches.step, hb] at hworld
      cases hworld
    | some batch =>
      rw [Batches.step, hb] at hworld
      change (if batch.reqs = [] then none else _) = some world at hworld
      split at hworld
      · cases hworld
      · rw [← Option.some.inj hworld]
        apply h.update
        intro batch' hbatch'
        rw [← Option.some.inj hbatch']
        exact (h b batch hb).prepareForDecode h0 t.world.outputIds
  | filter b keepIndices =>
    cases hb : t.world.batches b with
    | none =>
      rw [Batches.step, hb] at hworld
      cases hworld
    | some batch =>
      rw [Batches.step, hb] at hworld
      obtain ⟨batch', hfilter, rfl⟩ := map_eq_some_iff.mp hworld
      apply h.update
      intro batch'' hbatch''
      rw [← Option.some.inj hbatch'']
      exact (h b batch hb).filterBatch hfilter
  | merge b other =>
    cases hb : t.world.batches b with
    | none =>
      rw [Batches.step, hb] at hworld
      cases hworld
    | some batch =>
      cases ho : t.world.batches other with
      | none =>
        rw [Batches.step, hb, ho] at hworld
        cases hworld
      | some otherBatch =>
        rw [Batches.step, hb, ho] at hworld
        change (if b = other ∨ batch.reqs = [] ∨ otherBatch.reqs = [] then none else _) =
          some world at hworld
        split at hworld
        · cases hworld
        · next hnot =>
          rw [not_or, not_or] at hnot
          rw [← Option.some.inj hworld]
          have hmerged : Aligned S ⟨t.world.setBatch b (some (batch.mergeBatch S otherBatch)),
              Function.update t.entries b (t.entries b ++ t.entries other)⟩ := by
            apply h.update
            intro batch' hbatch'
            rw [← Option.some.inj hbatch']
            exact (h b batch hb).mergeBatch h0 hhash (h other otherBatch ho) hnot.2.1 hnot.2.2
          exact hmerged.forget other
  | drop b =>
    rw [← Option.some.inj hworld]
    exact h.forget b
  | output r token =>
    rw [← Option.some.inj hworld]
    exact h

/-- The tokens read for a row whose request had no output at its prefill are output tokens. -/
def ReadsOutput (t : Traced F C P K) : Prop :=
  ∀ b, ∀ e ∈ t.entries b, e.fresh = true → e.read <+: t.world.outputIds e.req

end Traced

end

/-- The operations after which batch `b` is run. -/
def BatchOp.Prepares (op : BatchOp) (b : Nat) : Prop :=
    op = .decode b ∨ ∃ reqs, op = .prefill b reqs

theorem mem_of_mem_filterEntries {es : List Entry} {keepIndices : List Nat} {e : Entry}
    (h : e ∈ filterEntries es keepIndices) : e ∈ es := by
  unfold filterEntries at h
  split at h
  · exact h
  · exact mem_of_mem_gather h

theorem readNext_eq {S : Sampler F C P K} {outputIds : Nat → List Nat} {e : Entry}
    (hread : e.read <+: outputIds e.req) (hlen : (outputIds e.req).length = e.read.length + 1) :
    (e.readNext S outputIds).read = outputIds e.req := by
  obtain ⟨rest, hrest⟩ := hread
  have hone : rest.length = 1 := by
    rw [← hrest, length_append] at hlen
    exact Nat.add_left_cancel hlen
  obtain ⟨token, rfl⟩ := length_eq_one_iff.mp hone
  change e.read ++ [ScheduleBatch.lastToken S outputIds e.req] = outputIds e.req
  rw [ScheduleBatch.lastToken, ← hrest, getLast?_concat]
  rfl

namespace Traced

section
variable [Zero F] [One F] [Add F] [DecidableEq F] [LT F] [DecidableLT F] [DecidableEq P]
  [DecidableEq K] {S : Sampler F C P K}

theorem outputIds_step {w w' : Batches F C P K} {op : BatchOp} (hstep : w.step S op = some w')
    (hop : ∀ r token, op ≠ .output r token) : w'.outputIds = w.outputIds := by
  cases op with
  | prefill b reqs =>
    rw [← Option.some.inj hstep]
    rfl
  | decode b =>
    unfold Batches.step at hstep
    dsimp only at hstep
    split at hstep
    · cases hstep
    · split at hstep
      · cases hstep
      · rw [← Option.some.inj hstep]
        rfl
  | filter b keepIndices =>
    unfold Batches.step at hstep
    dsimp only at hstep
    split at hstep
    · cases hstep
    · obtain ⟨batch, _, rfl⟩ := map_eq_some_iff.mp hstep
      rfl
  | merge b other =>
    unfold Batches.step at hstep
    dsimp only at hstep
    split at hstep
    · split at hstep
      · cases hstep
      · rw [← Option.some.inj hstep]
        rfl
    · cases hstep
  | drop b =>
    rw [← Option.some.inj hstep]
    rfl
  | output r token => exact absurd rfl (hop r token)

/-- What one step keeps where results are processed before the next decode. -/
theorem readsOutput_step {t t' : Traced F C P K} {op : BatchOp} (h : t.ReadsOutput)
    (hin : t.InStep op) (hstep : t.step S op = some t') : t'.ReadsOutput := by
  rw [step, map_eq_some_iff] at hstep
  obtain ⟨world, hworld, rfl⟩ := hstep
  intro b' e he hfresh
  -- the rows of one batch are replaced, those of the others stay
  have hupdate : ∀ {entries : Nat → List Entry} {b : Nat} {es : List Entry},
      (∀ b', ∀ e ∈ entries b', e.fresh = true → e.read <+: t.world.outputIds e.req) →
      (∀ e ∈ es, e.fresh = true → e.read <+: t.world.outputIds e.req) →
      e ∈ Function.update entries b es b' → e.read <+: t.world.outputIds e.req := by
    intro entries b es hold hnew hmem
    rw [update_apply] at hmem
    split at hmem
    · exact hnew e hmem hfresh
    · exact hold b' e hmem hfresh
  cases op with
  | prefill b reqs =>
    rw [outputIds_step hworld nofun]
    apply hupdate h _ he
    intro e' he' _
    obtain ⟨r, _, rfl⟩ := List.mem_map.mp he'
    exact nil_prefix
  | decode b =>
    rw [outputIds_step hworld nofun]
    apply hupdate h _ he
    intro e' he' hfresh'
    obtain ⟨e'', hmem, rfl⟩ := List.mem_map.mp he'
    have hlen := (hin e'' hmem).resolve_right fun hnot => absurd (hfresh'.symm.trans hnot) nofun
    rw [readNext_eq (h b e'' hmem hfresh') hlen]
    exact prefix_rfl
  | filter b keepIndices =>
    rw [outputIds_step hworld nofun]
    exact hupdate h (fun e' he' => h b e' (mem_of_mem_filterEntries he')) he
  | merge b other =>
    rw [outputIds_step hworld nofun]
    change e ∈ Function.update (Function.update t.entries b _) other [] b' at he
    rw [update_apply] at he
    split at he
    · cases he
    · apply hupdate h _ he
      intro e' he'
      cases mem_append.mp he' with
      | inl hl => exact h b e' hl
      | inr hr => exact h other e' hr
  | drop b =>
    rw [outputIds_step hworld nofun]
    exact hupdate h (fun e' he' => absurd he' not_mem_nil) he
  | output r token =>
    rw [← Option.some.inj hworld]
    apply (h b' e he hfresh).trans
    change t.world.outputIds e.req <+: Function.update t.world.outputIds r _ e.req
    rw [update_apply]
    split
    · next heq =>
      rw [heq]
      exact prefix_append ..
    · exact prefix_rfl

theorem read_eq_outputIds {t t' : Traced F C P K} {op : BatchOp} {b : Nat} (h : t.ReadsOutput)
    (hin : t.InStep op) (hstep : t.step S op = some t') (hprepares : op.Prepares b) {e : Entry}
    (he : e ∈ t'.entries b) (hfresh : e.fresh = true) : e.read = t'.world.outputIds e.req := by
  rw [step, map_eq_some_iff] at hstep
  obtain ⟨world, hworld, rfl⟩ := hstep
  cases hprepares with
  | inl hop =>
    subst hop
    rw [outputIds_step hworld nofun]
    change e ∈ Function.update t.entries b _ b at he
    rw [update_self] at he
    obtain ⟨e', hmem, rfl⟩ := List.mem_map.mp he
    have hlen := (hin e' hmem).resolve_right fun hnot => absurd (hfresh.symm.trans hnot) nofun
    exact readNext_eq (h b e' hmem hfresh) hlen
  | inr hop =>
    obtain ⟨reqs, rfl⟩ := hop
    rw [outputIds_step hworld nofun]
    change e ∈ Function.update t.entries b _ b at he
    rw [update_self] at he
    obtain ⟨r, _, rfl⟩ := List.mem_map.mp he
    exact (of_decide_eq_true hfresh).symm

end

end Traced

/-! ## Section 4: Independence of the history -/

section
variable [Zero F] [One F] [Add F] [DecidableEq F] [LT F] [DecidableLT F] [DecidableEq P]
  [DecidableEq K] {S : Sampler F C P K}

/-- After every run each row is the one its request would have in a batch of its own, and a function
of the request's parameters and of the tokens read for it. Where results are processed before the
next decode, a batch that is run has read exactly the output tokens of its requests. -/
theorem rows_of_run (h0 : (0 : F) + 0 = 0) (hhash : Function.Injective S.hash) {ops : List BatchOp}
    {t : Traced F C P K} (hrun : run (Traced.step S) Traced.start ops = some t) :
    (∀ b batch, t.world.batches b = some batch → batch.reqs = (t.entries b).map Entry.req ∧
      (batch.reqs ≠ [] → batch.samplingInfo.length = batch.reqs.length) ∧
      ∀ i e, (t.entries b)[i]? = some e →
        batch.samplingInfo.row i = ownRow S (S.reqs e.req) ∧
        (soloInfo S e).row 0 = ownRow S (S.reqs e.req) ∧
        (e.fresh = true →
          batch.samplingInfo.penalizerOrchestrator.penalties i =
              ownPenalties S.negInf (S.reqs e.req) e.read ∧
            (soloInfo S e).penalizerOrchestrator.penalties 0 =
              ownPenalties S.negInf (S.reqs e.req) e.read)) ∧
    (Along (Traced.step S) Traced.InStep Traced.start ops →
      ∀ op b t', op.Prepares b → t.InStep op → t.step S op = some t' → ∀ e ∈ t'.entries b,
        e.fresh = true → e.read = t'.world.outputIds e.req) := by
  refine ⟨?_, ?_⟩
  · have haligned : t.Aligned S := by
      apply invariant_of_run (P := fun _ _ => True) (Traced.Aligned S) _ _ _ hrun
      · exact fun s op s' h _ hstep => Traced.aligned_step h0 hhash h hstep
      · exact fun b batch hnone => absurd hnone.symm (some_ne_none _)
      · exact Along.of_forall (fun _ _ => trivial) _
    intro b batch hb
    have hbatch := haligned b batch hb
    refine ⟨hbatch.reqs, ?_, ?_⟩
    · intro hne
      rw [SamplingBatchInfo.length, (hbatch.info hne).temperatures, hbatch.reqs]
      simp
    · intro i e hi
      have hne : batch.reqs ≠ [] := by
        rw [hbatch.reqs, Ne, map_eq_nil_iff]
        intro hnil
        rw [hnil] at hi
        cases hi
      have hi' : ((t.entries b).map (Entry.history S))[i]? = some (S.reqs e.req, e.read) := by
        rw [getElem?_map, hi]
        rfl
      have hinfo := hbatch.info hne
      have hsolo := aligned_soloInfo h0 hhash e
      exact ⟨hinfo.row_eq hi', hsolo.row_eq rfl,
        fun _ => ⟨hinfo.orchestrator.penalties_eq h0 hi', hsolo.orchestrator.penalties_eq h0 rfl⟩⟩
  · intro halong op b t' hprepares hin hstep e he hfresh
    have hreads : t.ReadsOutput := by
      apply invariant_of_run Traced.ReadsOutput _ _ halong hrun
      · exact fun s op s' h hin hstep => Traced.readsOutput_step h hin hstep
      · exact fun b e he => absurd he not_mem_nil
    exact Traced.read_eq_outputIds hreads hin hstep hprepares he hfresh

end

/-! ### Runs on fixed requests -/

/-- Requests without a penalty or a custom logit processor, except for a few. -/
def sampleReqs (r : Nat) : Req Int Nat Nat where
  temperature := 1
  topP := 1
  topK := topKAll
  minP := 0
  samplingSeed := none
  logitBias := none
  frequencyPenalty := if r = 0 then 1 else 0
  presencePenalty := 0
  repetitionPenalty := 1
  minNewTokens := if r = 1 then 2 else 0
  stopTokenIds := none
  additionalStopTokenIds := none
  eosTokenId := 2
  customParams := some r
  customLogitProcessor := if r < 3 then none else some r
  originInputIds := [7]

/-- A server that allows custom logit processors. -/
def sampleServer (hash : Nat → Nat) : Sampler Int Nat Nat Nat where
  reqs := sampleReqs
  enableDeterministicInference := false
  enableCustomLogitProcessor := true
  negInf := -1000
  hash := hash

/-- One request decodes, another one joins it, and both decode next. -/
def joinedRun : List BatchOp :=
  [.prefill 0 [0], .output 0 5, .decode 0, .prefill 1 [1], .output 1 6, .merge 0 1, .output 0 5]

theorem rows_of_run_joined :
    ∃ t, run (Traced.step (sampleServer id)) Traced.start joinedRun = some t ∧
      (∀ b batch, t.world.batches b = some batch → batch.reqs = (t.entries b).map Entry.req ∧
        (batch.reqs ≠ [] → batch.samplingInfo.length = batch.reqs.length) ∧
        ∀ i e, (t.entries b)[i]? = some e →
          batch.samplingInfo.row i = ownRow (sampleServer id) (sampleReqs e.req) ∧
          (soloInfo (sampleServer id) e).row 0 = ownRow (sampleServer id) (sampleReqs e.req) ∧
          (e.fresh = true →
            batch.samplingInfo.penalizerOrchestrator.penalties i =
                ownPenalties (-1000) (sampleReqs e.req) e.read ∧
              (soloInfo (sampleServer id) e).penalizerOrchestrator.penalties 0 =
                ownPenalties (-1000) (sampleReqs e.req) e.read)) ∧
      ∀ op b t', op.Prepares b → t.InStep op → t.step (sampleServer id) op = some t' →
        ∀ e ∈ t'.entries b, e.fresh = true → e.read = t'.world.outputIds e.req := by
  obtain ⟨t, hrun⟩ : ∃ t, run (Traced.step (sampleServer id)) Traced.start joinedRun = some t :=
    isSome_iff_exists.mp rfl
  have hrows := rows_of_run (S := sampleServer id) (by decide) injective_id hrun
  exact ⟨t, hrun, hrows.1, hrows.2 (by decide)⟩

/-- Under overlap the first decode reads the last prompt token; a request without a processor has no
parameters next to one that has; a request that waits for no minimum of tokens is not counted from
its prefill; and of two processors with the same hash one is lost. -/
theorem row_of_another_history :
    (¬ ∀ ops w b batch (i r : Nat), run (Batches.step (sampleServer id)) Traced.start.world ops =
      some w →
      w.batches b = some batch → batch.reqs[i]? = some r →
      batch.samplingInfo.penalizerOrchestrator.penalties i =
        ownPenalties (-1000) (sampleReqs r) (w.outputIds r)) ∧
    (¬ ∀ ops w b batch params (i r : Nat),
      run (Batches.step (sampleServer id)) Traced.start.world ops = some w →
      w.batches b = some batch → batch.reqs[i]? = some r →
      batch.samplingInfo.customParams = some params →
      params[i]? = some (sampleReqs r).customParams) ∧
    (¬ ∀ ops w b batch rows (row : MinNewTokensRow Int) (i r : Nat),
      run (Batches.step (sampleServer id)) Traced.start.world ops = some w →
      w.batches b = some batch → batch.reqs[i]? = some r →
      batch.samplingInfo.penalizerOrchestrator.minNewTokens = some rows → rows[i]? = some row →
      row.lenOutputTokens = (w.outputIds r).length) ∧
    ¬ ∀ hash ops w b batch (i r : Nat),
      run (Batches.step (sampleServer hash)) Traced.start.world ops = some w →
      w.batches b = some batch → batch.reqs[i]? = some r →
      (batch.samplingInfo.row i).usesProcessor =
        fun p => decide ((sampleReqs r).customLogitProcessor = some p) := by
  refine ⟨?_, ?_, ?_, ?_⟩
  · intro h
    have hrow := h [.prefill 0 [0], .decode 0, .output 0 5] _ 0 _ 0 0 rfl rfl rfl
    have hprompt := congrFun (congrArg Penalties.frequency hrow) 7
    revert hprompt
    decide
  · intro h
    have hparams := h [.prefill 0 [2], .prefill 1 [3], .merge 0 1] _ 0 _ _ 0 2 rfl rfl rfl rfl
    revert hparams
    decide
  · intro h
    have hlen :=
      h [.prefill 0 [2], .output 2 9, .decode 0, .prefill 1 [1], .merge 0 1] _ 0 _ _ _ 0 2
      rfl rfl rfl rfl rfl
    revert hlen
    decide
  · intro h
    have huses := h (fun _ => 0) [.prefill 0 [3, 4]] _ 0 _ 0 3 rfl rfl rfl
    have hown := congrFun huses 3
    revert hown
    decide

end Sglang.Sampling
