import Mathlib.Data.List.Forall2
import Mathlib.Tactic
import Sglang.Sampling.Penalizers

/-!
# Rows of the Penalizers

A penalizer that is prepared has a row for each request of the batch. The row of a request that
requires it is what the request's own tokens lead to; any other row is neutral. A penalizer that is
not prepared serves no request that requires it.

- `Penalizer.Aligned`: the invariant of one penalizer, kept by `prepare`, `cumulate_output_tokens`,
  `filter` and `merge`,
- `Orchestrator.Aligned`: the invariant of all of them,
- `penalties_eq`: under it a row shows what the request's own parameters and tokens give.
-/

namespace Sglang.Sampling

open List Function
open Sglang.Lib (gather gather_map mem_of_mem_gather forall₂_gather)

variable {F C P σ ρ : Type}

/-! ## Section 1: One penalizer -/

namespace Penalizer

variable (K : Penalizer F C P σ) (neutral : σ → Prop)

/-- The row of a request alone, after some tokens. -/
def rowAfter (req : Req F C P) (read : List Nat) : σ :=
  read.foldl (fun row id => K.cumulateRow id row) (K.prepareRow req)

/-- `neutral` rows are those of the requests that do not require the penalizer. -/
structure IsNeutral : Prop where
  prepareRow : ∀ req, K.required req = false → neutral (K.prepareRow req)
  cumulateRow : ∀ id row, neutral row → neutral (K.cumulateRow id row)

/-- The row belongs to the request and its tokens. -/
def Tracks (row : σ) (h : Req F C P × List Nat) : Prop :=
  if K.required h.1 then row = K.rowAfter h.1 h.2 else neutral row

/-- The rows belong to the requests of the batch, in order. -/
def Aligned (rows : Option (List σ)) (hs : List (Req F C P × List Nat)) : Prop :=
  match rows with
  | none => ∀ h ∈ hs, K.required h.1 = false
  | some rows => List.Forall₂ (K.Tracks neutral) rows hs

variable {K neutral}

theorem rowAfter_append (req : Req F C P) (read : List Nat) (id : Nat) :
    K.rowAfter req (read ++ [id]) = K.cumulateRow id (K.rowAfter req read) := by
  simp [rowAfter]

theorem isRequired_eq_false {hs : List (Req F C P × List Nat)} :
    K.isRequired (hs.map Prod.fst) = false ↔ ∀ h ∈ hs, K.required h.1 = false := by
  simp [isRequired]

theorem IsNeutral.tracks_prepareRow (hn : K.IsNeutral neutral) (req : Req F C P) :
    K.Tracks neutral (K.prepareRow req) (req, []) := by
  unfold Tracks
  split
  · rfl
  · next hreq => exact hn.prepareRow req (Bool.eq_false_iff.mpr hreq)

theorem IsNeutral.prepare_unrequired (hn : K.IsNeutral neutral) {hs : List (Req F C P × List Nat)}
    (hnot : ∀ h ∈ hs, K.required h.1 = false) :
    List.Forall₂ (K.Tracks neutral) ((hs.map Prod.fst).map K.prepareRow) hs := by
  rw [map_map, forall₂_map_left_iff, forall₂_same]
  intro h hmem
  unfold Tracks
  rw [hnot h hmem]
  exact hn.prepareRow h.1 (hnot h hmem)

theorem IsNeutral.aligned_prepareIfRequired (hn : K.IsNeutral neutral) (reqs : List (Req F C P)) :
    K.Aligned neutral (K.prepareIfRequired reqs) (reqs.map fun req => (req, [])) := by
  unfold prepareIfRequired
  split
  · change List.Forall₂ _ (reqs.map K.prepareRow) _
    rw [forall₂_map_left_iff, forall₂_map_right_iff, forall₂_same]
    exact fun req _ => hn.tracks_prepareRow req
  · next hreq =>
    change ∀ h ∈ _, _
    rw [← isRequired_eq_false, map_map]
    simpa [comp_def] using hreq

theorem IsNeutral.tracks_cumulateRow (hn : K.IsNeutral neutral) {row : σ}
    {h : Req F C P × List Nat} (ht : K.Tracks neutral row h) (id : Nat) :
    K.Tracks neutral (K.cumulateRow id row) (h.1, h.2 ++ [id]) := by
  unfold Tracks at ht ⊢
  split at ht
  · next hreq =>
    rw [if_pos hreq, rowAfter_append, ht]
  · next hreq =>
    rw [if_neg hreq]
    exact hn.cumulateRow id row ht

theorem IsNeutral.aligned_cumulateOutputTokens (hn : K.IsNeutral neutral) {rows : Option (List σ)}
    {hs : List (Req F C P × List Nat)} (ha : K.Aligned neutral rows hs) {ids : List Nat}
    (hlen : ids.length = hs.length) :
    K.Aligned neutral (K.cumulateOutputTokens ids rows)
      (ids.zipWith (fun id h => (h.1, h.2 ++ [id])) hs) := by
  cases rows with
  | none =>
    change ∀ h ∈ _, _
    intro h hmem
    rw [← map_uncurry_zip_eq_zipWith, mem_map] at hmem
    obtain ⟨⟨id, h'⟩, hzip, rfl⟩ := hmem
    exact ha h' (of_mem_zip hzip).2
  | some rows =>
    change List.Forall₂ _ (ids.zipWith K.cumulateRow rows) _
    change List.Forall₂ (K.Tracks neutral) rows hs at ha
    induction ha generalizing ids with
    | nil =>
      rw [zipWith_nil_right, zipWith_nil_right]
      exact .nil
    | @cons row h rows hs htrack _ ih =>
      cases ids with
      | nil => exact .nil
      | cons id ids =>
        exact .cons (hn.tracks_cumulateRow htrack id) (ih (Nat.succ.inj hlen))

theorem aligned_filterOrTeardown {rows : Option (List σ)} {hs : List (Req F C P × List Nat)}
    (ha : K.Aligned neutral rows hs) (keepIndices : List Nat) :
    K.Aligned neutral
      (K.filterOrTeardown ((gather hs keepIndices).map Prod.fst) keepIndices rows)
      (gather hs keepIndices) := by
  unfold filterOrTeardown
  split
  · cases rows with
    | none => exact fun h hmem => ha h (mem_of_mem_gather hmem)
    | some rows => exact forall₂_gather ha keepIndices
  · next hreq => exact isRequired_eq_false.mp (Bool.eq_false_iff.mpr hreq)

theorem IsNeutral.tracks_prepare (hn : K.IsNeutral neutral) {rows : Option (List σ)}
    {hs : List (Req F C P × List Nat)} (ha : K.Aligned neutral rows hs) :
    List.Forall₂ (K.Tracks neutral) (K.prepare (hs.map Prod.fst) rows) hs := by
  cases rows with
  | none => exact hn.prepare_unrequired ha
  | some rows => exact ha

theorem IsNeutral.aligned_merge (hn : K.IsNeutral neutral) {rows theirRows : Option (List σ)}
    {hs theirs : List (Req F C P × List Nat)} (ha : K.Aligned neutral rows hs)
    (hb : K.Aligned neutral theirRows theirs) :
    K.Aligned neutral (K.merge (hs.map Prod.fst) (theirs.map Prod.fst) rows theirRows)
      (hs ++ theirs) := by
  unfold merge
  split
  · next hnone =>
    rw [Option.isNone_iff_eq_none, Option.isNone_iff_eq_none] at hnone
    rw [hnone.1] at ha
    rw [hnone.2] at hb
    intro h hmem
    cases mem_append.mp hmem with
    | inl hl => exact ha h hl
    | inr hr => exact hb h hr
  · exact rel_append (hn.tracks_prepare ha) (hn.tracks_prepare hb)

/-- What a row shows, with a default where there is none. -/
def shown (obs : σ → ρ) (default : ρ) (rows : Option (List σ)) (i : Nat) : ρ :=
  ((rows.bind fun rows => rows[i]?).map obs).getD default

theorem Aligned.shown_eq {rows : Option (List σ)} {hs : List (Req F C P × List Nat)}
    (ha : K.Aligned neutral rows hs) {obs : σ → ρ} {default : ρ}
    (own : Req F C P → List Nat → ρ)
    (hown : ∀ req read, obs (K.rowAfter req read) = own req read)
    (hneutral : ∀ row, neutral row → obs row = default)
    (hdefault : ∀ req read, K.required req = false → own req read = default) {i : Nat}
    {req : Req F C P} {read : List Nat} (hi : hs[i]? = some (req, read)) :
    shown obs default rows i = own req read := by
  cases rows with
  | none => exact (hdefault req read (ha _ (mem_of_getElem? hi))).symm
  | some rows =>
    change List.Forall₂ (K.Tracks neutral) rows hs at ha
    obtain ⟨hlt, hget⟩ := List.getElem?_eq_some_iff.mp hi
    have hlt' : i < rows.length := by
      rw [ha.length_eq]
      exact hlt
    have htrack := (forall₂_iff_get.mp ha).2 i hlt' hlt
    rw [get_eq_getElem, get_eq_getElem, hget] at htrack
    have hshown : shown obs default (some rows) i = obs rows[i] := by
      simp [shown, hlt']
    rw [hshown]
    unfold Tracks at htrack
    split at htrack
    · rw [htrack, hown]
    · next hreq => rw [hneutral _ htrack, hdefault req read (Bool.eq_false_iff.mpr hreq)]

end Penalizer

/-! ## Section 2: The four penalizers -/

/-- A row of a request without a frequency or presence penalty. -/
def PenaltyRow.IsZero [Zero F] (row : PenaltyRow F) : Prop :=
  row.penalty = 0 ∧ ∀ id, row.cumulated id = 0

/-- A row of a request without a repetition penalty. -/
def PenaltyRow.IsOne [One F] (row : PenaltyRow F) : Prop :=
  row.penalty = 1 ∧ ∀ id, row.cumulated id = 1

/-- A row of a request without minimum new tokens. -/
def MinNewTokensRow.IsFree (row : MinNewTokensRow F) : Prop := row.minNewTokens = 0

theorem isNeutral_frequency [Zero F] [Add F] [DecidableEq F] (h0 : (0 : F) + 0 = 0) :
    (batchedFrequencyPenalizer (F := F) (C := C) (P := P)).IsNeutral PenaltyRow.IsZero where
  prepareRow := by
    intro req hreq
    exact ⟨by simpa [batchedFrequencyPenalizer] using hreq, fun _ => rfl⟩
  cumulateRow := by
    intro id row hrow
    refine ⟨hrow.1, ?_⟩
    intro id'
    change Function.update row.cumulated id (row.cumulated id + row.penalty) id' = 0
    rw [update_apply]
    split
    · rw [hrow.2, hrow.1, h0]
    · exact hrow.2 id'

theorem isNeutral_presence [Zero F] [DecidableEq F] :
    (batchedPresencePenalizer (F := F) (C := C) (P := P)).IsNeutral PenaltyRow.IsZero where
  prepareRow := by
    intro req hreq
    exact ⟨by simpa [batchedPresencePenalizer] using hreq, fun _ => rfl⟩
  cumulateRow := by
    intro id row hrow
    refine ⟨hrow.1, ?_⟩
    intro id'
    change Function.update row.cumulated id row.penalty id' = 0
    rw [update_apply]
    split
    · exact hrow.1
    · exact hrow.2 id'

theorem isNeutral_repetition [One F] [DecidableEq F] :
    (batchedRepetitionPenalizer (F := F) (C := C) (P := P)).IsNeutral PenaltyRow.IsOne where
  prepareRow := by
    intro req hreq
    exact ⟨by simpa [batchedRepetitionPenalizer] using hreq, fun _ => rfl⟩
  cumulateRow := by
    intro id row hrow
    refine ⟨hrow.1, ?_⟩
    intro id'
    change Function.update row.cumulated id row.penalty id' = 1
    rw [update_apply]
    split
    · exact hrow.1
    · exact hrow.2 id'

theorem isNeutral_minNewTokens [Zero F] (negInf : F) :
    (batchedMinNewTokensPenalizer (C := C) (P := P) negInf).IsNeutral MinNewTokensRow.IsFree where
  prepareRow := by
    intro req hreq
    change req.minNewTokens = 0
    simpa [batchedMinNewTokensPenalizer] using hreq
  cumulateRow := fun _ _ hrow => hrow

theorem rowAfter_frequency [Zero F] [Add F] [DecidableEq F] (req : Req F C P) (read : List Nat) :
    batchedFrequencyPenalizer.rowAfter req read =
      ⟨req.frequencyPenalty, fun id => (· + req.frequencyPenalty)^[read.count id] 0⟩ := by
  induction read using List.reverseRecOn with
  | nil => rfl
  | append_singleton read id ih =>
    rw [Penalizer.rowAfter_append, ih]
    change PenaltyRow.mk _ (Function.update _ _ _) = _
    congr 1
    funext id'
    rw [update_apply, count_append, count_singleton]
    split
    · next heq =>
      rw [heq, if_pos (beq_self_eq_true id), iterate_succ_apply']
    · next hne =>
      rw [if_neg (by simpa using Ne.symm hne), Nat.add_zero]

theorem rowAfter_presence [Zero F] [DecidableEq F] (req : Req F C P) (read : List Nat) :
    batchedPresencePenalizer.rowAfter req read =
      ⟨req.presencePenalty, fun id => if id ∈ read then req.presencePenalty else 0⟩ := by
  induction read using List.reverseRecOn with
  | nil => rfl
  | append_singleton read id ih =>
    rw [Penalizer.rowAfter_append, ih]
    change PenaltyRow.mk _ (Function.update _ _ _) = _
    congr 1
    funext id'
    rw [update_apply]
    by_cases heq : id' = id <;> simp [heq]

theorem rowAfter_repetition [One F] [DecidableEq F] (req : Req F C P) (read : List Nat) :
    batchedRepetitionPenalizer.rowAfter req read =
      ⟨req.repetitionPenalty, fun id => if id ∈ read then req.repetitionPenalty else 1⟩ := by
  induction read using List.reverseRecOn with
  | nil => rfl
  | append_singleton read id ih =>
    rw [Penalizer.rowAfter_append, ih]
    change PenaltyRow.mk _ (Function.update _ _ _) = _
    congr 1
    funext id'
    rw [update_apply]
    by_cases heq : id' = id <;> simp [heq]

theorem rowAfter_minNewTokens [Zero F] (negInf : F) (req : Req F C P) (read : List Nat) :
    (batchedMinNewTokensPenalizer negInf).rowAfter req read =
      ⟨req.minNewTokens, fun id => if id ∈ req.stopIds then negInf else 0, read.length⟩ := by
  induction read using List.reverseRecOn with
  | nil => rfl
  | append_singleton read id ih =>
    rw [Penalizer.rowAfter_append, ih, length_append]
    rfl

/-! ## Section 3: The orchestrator -/

/-- What the penalizers of a row do to the logits. -/
structure Penalties (F : Type) where
  /-- Subtracted. -/
  frequency : Nat → F
  /-- Subtracted. -/
  presence : Nat → F
  /-- Divides positive logits and multiplies negative ones. -/
  repetition : Nat → F
  /-- Added. -/
  stopTokens : Nat → F
  /-- Kept for the requests with minimum new tokens. -/
  lenOutputTokens : Option Nat

/-- What a request's own parameters and the tokens read for it give. -/
def ownPenalties [Zero F] [One F] [Add F] (negInf : F) (req : Req F C P) (read : List Nat) :
    Penalties F where
  frequency := fun id => (· + req.frequencyPenalty)^[read.count id] 0
  presence := fun id => if id ∈ read then req.presencePenalty else 0
  repetition := fun id => if id ∈ read then req.repetitionPenalty else 1
  stopTokens := fun id =>
    if read.length < req.minNewTokens ∧ id ∈ req.stopIds then negInf else 0
  lenOutputTokens := if 0 < req.minNewTokens then some read.length else none

namespace Orchestrator

/-- `apply` is not called unless a penalizer is required. -/
def inForce (o : Orchestrator F) : Orchestrator F := if o.isRequired then o else release

/-- What the penalizers do to row `i`. -/
def penalties [Zero F] [One F] (o : Orchestrator F) (i : Nat) : Penalties F where
  frequency := Penalizer.shown PenaltyRow.cumulated (fun _ => 0) o.inForce.frequency i
  presence := Penalizer.shown PenaltyRow.cumulated (fun _ => 0) o.inForce.presence i
  repetition := Penalizer.shown PenaltyRow.cumulated (fun _ => 1) o.inForce.repetition i
  stopTokens := Penalizer.shown MinNewTokensRow.applied (fun _ => 0) o.inForce.minNewTokens i
  lenOutputTokens :=
    Penalizer.shown
      (fun row => if 0 < row.minNewTokens then some row.lenOutputTokens else none) none
      o.inForce.minNewTokens i

variable [Zero F] [One F] [Add F] [DecidableEq F] (negInf : F)

/-- Each penalizer is aligned with the batch, and none is prepared unless one is required. -/
structure Aligned (o : Orchestrator F) (hs : List (Req F C P × List Nat)) : Prop where
  frequency : batchedFrequencyPenalizer.Aligned PenaltyRow.IsZero o.frequency hs
  minNewTokens :
    (batchedMinNewTokensPenalizer negInf).Aligned MinNewTokensRow.IsFree o.minNewTokens hs
  presence : batchedPresencePenalizer.Aligned PenaltyRow.IsZero o.presence hs
  repetition : batchedRepetitionPenalizer.Aligned PenaltyRow.IsOne o.repetition hs
  idle : o.isRequired = false → o = release

variable {negInf} {o their : Orchestrator F} {hs theirs : List (Req F C P × List Nat)}

theorem Aligned.inForce_eq (ha : o.Aligned negInf hs) : o.inForce = o := by
  unfold inForce
  split
  · rfl
  · next hreq => exact (ha.idle (Bool.eq_false_iff.mpr hreq)).symm

/-- Row `i` of the penalizers is a function of the parameters and the tokens of its request. -/
theorem Aligned.penalties_eq (h0 : (0 : F) + 0 = 0) (ha : o.Aligned negInf hs) {i : Nat}
    {req : Req F C P} {read : List Nat} (hi : hs[i]? = some (req, read)) :
    o.penalties i = ownPenalties negInf req read := by
  unfold penalties ownPenalties
  rw [ha.inForce_eq]
  -- one goal for each penalizer: what is shown when it is, and that else it is neutral
  congr 1
  · apply ha.frequency.shown_eq
      (fun req read id => (· + req.frequencyPenalty)^[read.count id] 0) _ _ _ hi
    · intro req read
      rw [rowAfter_frequency]
    · exact fun row hrow => funext hrow.2
    · intro req read hreq
      have hzero : req.frequencyPenalty = 0 := by simpa [batchedFrequencyPenalizer] using hreq
      funext id
      rw [hzero]
      exact iterate_fixed (f := (· + 0)) h0 _
  · apply ha.presence.shown_eq
      (fun req read id => if id ∈ read then req.presencePenalty else 0) _ _ _ hi
    · intro req read
      rw [rowAfter_presence]
    · exact fun row hrow => funext hrow.2
    · intro req read hreq
      have hzero : req.presencePenalty = 0 := by simpa [batchedPresencePenalizer] using hreq
      funext id
      rw [hzero, ite_self]
  · apply ha.repetition.shown_eq
      (fun req read id => if id ∈ read then req.repetitionPenalty else 1) _ _ _ hi
    · intro req read
      rw [rowAfter_repetition]
    · exact fun row hrow => funext hrow.2
    · intro req read hreq
      have hone : req.repetitionPenalty = 1 := by simpa [batchedRepetitionPenalizer] using hreq
      funext id
      rw [hone, ite_self]
  · apply ha.minNewTokens.shown_eq
      (fun req read id => if read.length < req.minNewTokens ∧ id ∈ req.stopIds then negInf else 0)
      _ _ _ hi
    · intro req read
      rw [rowAfter_minNewTokens]
      funext id
      simp only [MinNewTokensRow.applied, ite_and]
    · intro row hrow
      change row.minNewTokens = 0 at hrow
      funext id
      rw [MinNewTokensRow.applied, hrow, if_neg (Nat.not_lt_zero _)]
    · intro req read hreq
      have hzero : req.minNewTokens = 0 := by simpa [batchedMinNewTokensPenalizer] using hreq
      funext id
      rw [hzero, if_neg fun h => Nat.not_lt_zero _ h.1]
  · apply ha.minNewTokens.shown_eq
      (fun req read => if 0 < req.minNewTokens then some read.length else none) _ _ _ hi
    · intro req read
      rw [rowAfter_minNewTokens]
    · intro row hrow
      change row.minNewTokens = 0 at hrow
      rw [hrow, if_neg (Nat.lt_irrefl 0)]
    · intro req read hreq
      have hzero : req.minNewTokens = 0 := by simpa [batchedMinNewTokensPenalizer] using hreq
      rw [hzero, if_neg (Nat.lt_irrefl 0)]

/-! ### What the operations keep -/

theorem aligned_new (h0 : (0 : F) + 0 = 0) (reqs : List (Req F C P)) :
    (new negInf reqs).Aligned negInf (reqs.map fun req => (req, [])) where
  frequency := (isNeutral_frequency h0).aligned_prepareIfRequired reqs
  minNewTokens := (isNeutral_minNewTokens negInf).aligned_prepareIfRequired reqs
  presence := isNeutral_presence.aligned_prepareIfRequired reqs
  repetition := isNeutral_repetition.aligned_prepareIfRequired reqs
  idle := by
    intro hidle
    change (_ || _ || _ || _) = false at hidle
    rw [Bool.or_eq_false_iff, Bool.or_eq_false_iff, Bool.or_eq_false_iff] at hidle
    obtain ⟨⟨⟨hfrequency, hmin⟩, hpresence⟩, hrepetition⟩ := hidle
    simp [new, release, Penalizer.prepareIfRequired, hfrequency, hmin, hpresence, hrepetition]

theorem Aligned.cumulateOutputTokens (h0 : (0 : F) + 0 = 0) (ha : o.Aligned negInf hs)
    {ids : List Nat} (hlen : ids.length = hs.length) :
    (Orchestrator.cumulateOutputTokens (C := C) (P := P) negInf o ids).Aligned negInf
      (ids.zipWith (fun id h => (h.1, h.2 ++ [id])) hs) where
  frequency := (isNeutral_frequency h0).aligned_cumulateOutputTokens ha.frequency hlen
  minNewTokens :=
    (isNeutral_minNewTokens negInf).aligned_cumulateOutputTokens ha.minNewTokens hlen
  presence := isNeutral_presence.aligned_cumulateOutputTokens ha.presence hlen
  repetition := isNeutral_repetition.aligned_cumulateOutputTokens ha.repetition hlen
  idle := by
    intro hidle
    rw [ha.idle hidle]
    rfl

theorem aligned_release : release.Aligned negInf hs ↔
    ∀ h ∈ hs, batchedFrequencyPenalizer.required h.1 = false ∧
      (batchedMinNewTokensPenalizer negInf).required h.1 = false ∧
      batchedPresencePenalizer.required h.1 = false ∧
      batchedRepetitionPenalizer.required h.1 = false := by
  constructor
  · intro ha h hmem
    exact ⟨ha.frequency h hmem, ha.minNewTokens h hmem, ha.presence h hmem, ha.repetition h hmem⟩
  · intro hnot
    exact ⟨fun h hmem => (hnot h hmem).1, fun h hmem => (hnot h hmem).2.1,
      fun h hmem => (hnot h hmem).2.2.1, fun h hmem => (hnot h hmem).2.2.2, fun _ => rfl⟩

theorem Aligned.filter (ha : o.Aligned negInf hs) (keepIndices : List Nat) :
    (o.filter negInf ((gather hs keepIndices).map Prod.fst) keepIndices).Aligned negInf
      (gather hs keepIndices) := by
  unfold Orchestrator.filter
  split
  · next hidle =>
    have hidle : o.isRequired = false := by simpa using hidle
    have ho := ha.idle hidle
    subst ho
    rw [aligned_release] at ha ⊢
    exact fun h hmem => ha h (mem_of_mem_gather hmem)
  · split
    · next hlen =>
      rw [eq_nil_of_length_eq_zero hlen, aligned_release]
      exact fun h hmem => absurd hmem not_mem_nil
    · refine ⟨Penalizer.aligned_filterOrTeardown ha.frequency keepIndices,
        Penalizer.aligned_filterOrTeardown ha.minNewTokens keepIndices,
        Penalizer.aligned_filterOrTeardown ha.presence keepIndices,
        Penalizer.aligned_filterOrTeardown ha.repetition keepIndices, ?_⟩
      intro hidle
      change (_ || _ || _ || _) = false at hidle
      rw [Bool.or_eq_false_iff, Bool.or_eq_false_iff, Bool.or_eq_false_iff] at hidle
      obtain ⟨⟨⟨hfrequency, hmin⟩, hpresence⟩, hrepetition⟩ := hidle
      simp [release, Penalizer.filterOrTeardown, hfrequency, hmin, hpresence, hrepetition]

theorem Aligned.merge (h0 : (0 : F) + 0 = 0) (ha : o.Aligned negInf hs)
    (hb : their.Aligned negInf theirs) :
    (o.merge negInf their (hs.map Prod.fst) (theirs.map Prod.fst)).Aligned negInf
    (hs ++ theirs) := by
  unfold Orchestrator.merge
  split
  · next hidle =>
    rw [Bool.and_eq_true, Bool.not_eq_true', Bool.not_eq_true'] at hidle
    have ho := ha.idle hidle.1
    have htheir := hb.idle hidle.2
    subst ho htheir
    rw [aligned_release] at ha hb ⊢
    intro h hmem
    cases mem_append.mp hmem with
    | inl hl => exact ha h hl
    | inr hr => exact hb h hr
  · exact ⟨(isNeutral_frequency h0).aligned_merge ha.frequency hb.frequency,
      (isNeutral_minNewTokens negInf).aligned_merge ha.minNewTokens hb.minNewTokens,
      isNeutral_presence.aligned_merge ha.presence hb.presence,
      isNeutral_repetition.aligned_merge ha.repetition hb.repetition,
      nofun⟩

end Orchestrator

end Sglang.Sampling
