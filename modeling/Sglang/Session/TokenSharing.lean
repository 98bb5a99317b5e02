import Sglang.Session.SingleInflight

/-!
# Token Arrays Are Shared Between Turns

`_share_token_arrays` hands the arrays of the last request on, cut back to what its `finish_req`
confirmed. `_concat_token_arrays` would copy them.

- `turnStep`: the turns of a session, one request at a time, as far as they touch token arrays,
- `World.copy`: a private copy of the arrays and of the last request, made at its `finish_req`,
- `SharesAsCopied`: what is shared is what would be concatenated from the copy,
- `Fits`: a request whose input is padded again keeps no fill array of the padded length, unless it
  holds the padded ids,
- `shares_along`: in a run of turns that all fit, sharing is copying.

The KV of the session plays no part here.
-/

namespace Sglang.Session

open List

/-! ## Section 1: Turns -/

structure World where
  state : State
  /-- The request in flight. -/
  active : Option Nat
  /-- The state and the request as of the last `finish_req`. -/
  copy : Option (State × Req)

def World.init : World := ⟨.init, none, none⟩

inductive TurnEvent where
  | create (bosTokenId : Option Nat) (recv : RecvReq)
  /-- The scheduler puts the padded ids of a multimodal input in the place of `origin_input_ids`:
  those that came with the input (`_try_apply_padded_mm_input_ids`), or those of the model's
  `pad_input_ids_func`. -/
  | pad (paddedInputIds : List Nat)
  /-- `set_finish_with_abort` after `create_req`. -/
  | invalidate (message : String)
  /-- `_refresh_fill_ids`. -/
  | refresh
  /-- Output tokens of a forward pass. -/
  | output (tokens : List Nat)
  /-- The request finishes; `_trim_overshoot` cuts its output. -/
  | finish (finishedLen : Option Nat)
  | abort
deriving DecidableEq, Repr

/-- The fill ids are there: a forward pass comes after `init_next_round_input`. -/
def State.filled (s : State) (r : Req) : Prop :=
  (s.array r.originInputIds).length ≤ (s.array r.fullUntruncatedFillIds).length ∧
    (s.array r.fullUntruncatedFillIds).length - (s.array r.originInputIds).length ≤
    r.outputIds.length

instance (s : State) (r : Req) : Decidable (s.filled r) := inferInstanceAs (Decidable (_ ∧ _))

def World.reqStep (w : World) (i : Nat) (r : Req) : TurnEvent → Option World
  | .create _ _ => none
  | .pad paddedInputIds =>
    if r.outputIds ≠ [] then none
    else
      let (s, inputIds) := w.state.newArray paddedInputIds
      some { w with state := s.setReq i { r with originInputIds := inputIds } }
  | .invalidate message =>
    let (s, r) := w.state.setFinishWithAbort r message
    some { w with state := s.setReq i r }
  | .refresh => some { w with state := w.state.refreshFillIds i r }
  | .output tokens =>
    if w.state.filled r then
      some { w with state := w.state.setReq i { r with outputIds := r.outputIds ++ tokens } }
    else none
  | .finish finishedLen =>
    if r.toFinish.isSome then none
    else
      let r := { r with outputIds := r.outputIds.take (finishedLen.getD r.outputIds.length) }
      let s := w.state.setReq i r
      some ⟨s.finishReq i r, none, some (s, r)⟩
  | .abort => some { w with state := w.state.abortReq, active := none }

def turnStep (w : World) (e : TurnEvent) : Option World :=
  match e with
  | .create bosTokenId recv =>
    if w.active.isSome then none
    else
      some { w with
        state := w.state.createReq bosTokenId recv
        active := if (w.state.abortMessage recv.sessionParams).isSome then none
        else some w.state.reqs.length }
  | e => w.active.bind fun i => (w.state.reqs[i]?).bind fun r => w.reqStep i r e

/-! ## Section 2: Sharing and copying -/

def State.last (s : State) : Option Req := s.reqNodes.bind fun i => s.reqs[i]?

/-- The arrays that are handed on hold what the copied ones do. -/
def SameArrays (shared : State × Nat × Nat × Option Nat) (copied : State × Nat × Nat) : Prop :=
  shared.1.array shared.2.1 = copied.1.array copied.2.1 ∧
  shared.1.array shared.2.2.1 = copied.1.array copied.2.2 ∧
  ∀ fill ∈ shared.2.2.2, shared.1.array fill = copied.1.array copied.2.1

/-- A next turn is given what it would be given from the private copy. -/
def SharesAsCopied (w : World) : TurnEvent → Prop
  | .create bosTokenId recv => ∀ last, w.state.last = some last →
      ∃ lens s r, w.state.committed = some lens ∧ w.copy = some (s, r) ∧
        SameArrays (w.state.shareTokenArrays lens last
          (State.stripBosToken bosTokenId recv.inputIds))
          (s.concatTokenArrays r (State.stripBosToken bosTokenId recv.inputIds))
  | _ => True

/-- Where padding comes out as long as the fill ids that were carried over, it is the fill ids. -/
def Fits (w : World) : TurnEvent → Prop
  | .pad paddedInputIds => ∀ i ∈ w.active, ∀ r ∈ w.state.reqs[i]?,
      (w.state.array r.fullUntruncatedFillIds).length = paddedInputIds.length →
      w.state.array r.fullUntruncatedFillIds = paddedInputIds
  | _ => True

/-! ## Section 3: Writing to arrays -/

namespace State

variable {s t u : State}

theorem array_writeArray {ref : Nat} (hlt : ref < s.arrays.length) (tokens : List Nat) (k : Nat) :
    (s.writeArray ref tokens).array k = if k = ref then tokens else s.array k := by
  unfold array writeArray
  simp only [getD_eq_getElem?_getD, getElem?_set]
  by_cases hk : ref = k
  · subst hk
    simp [hlt]
  · simp [hk, Ne.symm hk]

/-- Two arrays are written, or the one that both names stand for. -/
theorem array_writeBoth {a b : Nat} {x y : List Nat} (ha : a < s.arrays.length)
    (hb : b < s.arrays.length) (hxy : b = a → y = x) :
    ∃ t, (if b = a then s.writeArray a x else (s.writeArray a x).writeArray b y) = t ∧
      t.arrays.length = s.arrays.length ∧
      ∀ k, t.array k = if k = a then x else if k = b then y else s.array k := by
  refine ⟨_, rfl, ?_, fun k => ?_⟩
  · split <;> simp [writeArray]
  · split
    · next heq =>
      rw [array_writeArray ha, heq]
      split <;> rfl
    · next hne =>
      rw [array_writeArray (by simpa [writeArray] using hb), array_writeArray ha]
      by_cases hk : k = a
      · subst hk
        rw [if_neg (Ne.symm hne), if_pos rfl, if_pos rfl]
      · simp [hk]

theorem array_newArray (tokens : List Nat) (k : Nat) :
    (s.newArray tokens).1.array k = if k = s.arrays.length then tokens else s.array k := by
  unfold array newArray
  simp only [getD_eq_getElem?_getD]
  rcases Nat.lt_trichotomy k s.arrays.length with hlt | rfl | hlt
  · simp [getElem?_append_left hlt, Nat.ne_of_lt hlt]
  · simp
  · simp [getElem?_eq_none (show (s.arrays ++ [tokens]).length ≤ k by simp; omega),
      getElem?_eq_none hlt.le, Nat.ne_of_gt hlt]

@[simp] theorem length_arrays_writeArray (ref : Nat) (tokens : List Nat) :
    (s.writeArray ref tokens).arrays.length = s.arrays.length := length_set

@[simp] theorem length_arrays_newArray (tokens : List Nat) :
    (s.newArray tokens).1.arrays.length = s.arrays.length + 1 := by
  simp [newArray]

/-- No array is lost, and the arrays only grow at their ends. -/
def Longer (s t : State) : Prop :=
  s.arrays.length ≤ t.arrays.length ∧ ∀ k < s.arrays.length, s.array k <+: t.array k

theorem Extended.longer (h : Extended s t) : Longer s t :=
  ⟨h.grown.length_le, fun _ hk => by rw [h.array hk]⟩

theorem longer_extendArray {ref : Nat} (hlt : ref < s.arrays.length) (tokens : List Nat) :
    Longer s (s.extendArray ref tokens) := by
  refine ⟨by simp [extendArray], fun k _ => ?_⟩
  rw [extendArray, array_writeArray hlt]
  split
  · next hk =>
    subst hk
    exact prefix_append _ _
  · exact prefix_rfl

end State

/-! ## Section 4: What is shared -/

/-- `fill` is the input with some of the output, as far as its length allows it. -/
def FillGood (fill origin output : List Nat) : Prop :=
  origin.length ≤ fill.length → fill.length - origin.length ≤ output.length →
    fill = origin ++ output.take (fill.length - origin.length)

theorem FillGood.take {fill origin output : List Nat} (h : FillGood fill origin output) (n : Nat) :
    FillGood fill origin (output.take n) := by
  intro hge hle
  rw [length_take] at hle
  rw [take_take, min_eq_left (by omega)]
  exact h hge (by omega)

theorem FillGood.carry {fill origin output : List Nat} (h : FillGood fill origin output)
    (new : List Nat) (hge : origin.length ≤ fill.length)
    (hle : fill.length - origin.length ≤ output.length) :
    fill ++ (output.drop (fill.length - origin.length) ++ new) = origin ++ output ++ new := by
  have hfill := h hge hle
  generalize fill.length - origin.length = n at hfill
  rw [hfill, append_assoc, ← append_assoc (output.take n), take_append_drop,
    ← append_assoc]

/-- What `lens` keep of the arrays of the last request is what `s₀` holds, and their fill ids are
good. -/
structure Committed (s : State) (last : Req) (lens : CommittedLens) (s₀ : State) (r : Req) :
    Prop where
  same : { last with session := r.session } = r
  copied : r.originInputIdsUnpadded < s₀.arrays.length
  origin_lt : r.originInputIds < s.arrays.length
  unpadded_lt : r.originInputIdsUnpadded < s.arrays.length
  fill_lt : r.fullUntruncatedFillIds < s.arrays.length
  fill_ne_origin : r.fullUntruncatedFillIds ≠ r.originInputIds
  fill_ne_unpadded : r.fullUntruncatedFillIds ≠ r.originInputIdsUnpadded
  origin : s₀.array r.originInputIds = (s.array r.originInputIds).take lens.origin
  unpadded : s₀.array r.originInputIdsUnpadded =
    (s.array r.originInputIdsUnpadded).take lens.unpadded
  fill : s₀.array r.fullUntruncatedFillIds = (s.array r.fullUntruncatedFillIds).take lens.fill
  origin_le : lens.origin ≤ (s.array r.originInputIds).length
  unpadded_le : lens.unpadded ≤ (s.array r.originInputIdsUnpadded).length
  fill_le : lens.fill ≤ (s.array r.fullUntruncatedFillIds).length
  good : FillGood (s₀.array r.fullUntruncatedFillIds) (s₀.array r.originInputIds) r.outputIds

theorem take_of_prefix {α : Type*} {xs ys : List α} (h : xs <+: ys) {n : Nat} (hn : n ≤ xs.length) :
    ys.take n = xs.take n := by
  obtain ⟨zs, rfl⟩ := h
  rw [take_append_of_le_length hn]

theorem Committed.longer {s t : State} {last r : Req} {lens : CommittedLens} {s₀ : State}
    (h : Committed s last lens s₀ r) (hlong : State.Longer s t) : Committed t last lens s₀ r where
  same := h.same
  copied := h.copied
  origin_lt := h.origin_lt.trans_le hlong.1
  unpadded_lt := h.unpadded_lt.trans_le hlong.1
  fill_lt := h.fill_lt.trans_le hlong.1
  fill_ne_origin := h.fill_ne_origin
  fill_ne_unpadded := h.fill_ne_unpadded
  origin := by rw [h.origin, take_of_prefix (hlong.2 _ h.origin_lt) h.origin_le]
  unpadded := by rw [h.unpadded, take_of_prefix (hlong.2 _ h.unpadded_lt) h.unpadded_le]
  fill := by rw [h.fill, take_of_prefix (hlong.2 _ h.fill_lt) h.fill_le]
  origin_le := h.origin_le.trans (hlong.2 _ h.origin_lt).length_le
  unpadded_le := h.unpadded_le.trans (hlong.2 _ h.unpadded_lt).length_le
  fill_le := h.fill_le.trans (hlong.2 _ h.fill_lt).length_le
  good := h.good

theorem take_committed {α : Type*} {xs ys : List α} {n : Nat} (h : xs = ys.take n)
    (hn : n ≤ ys.length) (more : List α) : xs = (xs ++ more).take n ∧ n ≤ (xs ++ more).length := by
  have hlen : xs.length = n := by rw [h, length_take, min_eq_left hn]
  constructor
  · rw [take_append_of_le_length hlen.ge, ← hlen, take_length]
  · rw [length_append, hlen]
    exact Nat.le_add_right _ _

section Share

variable {s : State} {last : Req} {lens : CommittedLens} {out new : List Nat}

theorem array_carryFill (hf : last.fullUntruncatedFillIds < s.arrays.length)
    (hfo : last.fullUntruncatedFillIds ≠ last.originInputIds)
    (hfu : last.fullUntruncatedFillIds ≠ last.originInputIdsUnpadded)
    (hgood : FillGood ((s.array last.fullUntruncatedFillIds).take lens.fill)
      (s.array last.originInputIds) out) :
    ∃ t fill more, s.carryFill lens last out new = (t, fill) ∧ t.arrays.length = s.arrays.length ∧
      (∀ k, k ≠ last.fullUntruncatedFillIds → t.array k = s.array k) ∧
      t.array last.fullUntruncatedFillIds =
        (s.array last.fullUntruncatedFillIds).take lens.fill ++ more ∧
      ∀ ref ∈ fill, ref = last.fullUntruncatedFillIds ∧
        t.array last.fullUntruncatedFillIds = s.array last.originInputIds ++ out ++ new := by
  obtain ⟨u, hu⟩ : ∃ u, s.truncateArray last.fullUntruncatedFillIds lens.fill = u := ⟨_, rfl⟩
  have hlen : u.arrays.length = s.arrays.length := by simp [← hu, State.truncateArray]
  have harray : ∀ k, u.array k = if k = last.fullUntruncatedFillIds then
      (s.array last.fullUntruncatedFillIds).take lens.fill else s.array k := by
    intro k
    rw [← hu, State.truncateArray, State.array_writeArray hf]
  have hfill := harray last.fullUntruncatedFillIds
  rw [if_pos rfl] at hfill
  have horigin := harray last.originInputIds
  rw [if_neg (Ne.symm hfo)] at horigin
  unfold State.carryFill
  rw [if_neg (not_or.mpr ⟨hfo, hfu⟩)]
  dsimp only
  rw [hu, hfill, horigin]
  split
  · next hbaked =>
    refine ⟨_, _, out.drop (((s.array last.fullUntruncatedFillIds).take lens.fill).length -
      (s.array last.originInputIds).length) ++ new, rfl, ?_, ?_, ?_, ?_⟩
    · simp [State.extendArray, hlen]
    · intro k hk
      rw [State.extendArray, State.array_writeArray (hlen ▸ hf), if_neg hk, harray, if_neg hk]
    · rw [State.extendArray, State.array_writeArray (hlen ▸ hf), if_pos rfl, hfill]
    · intro ref href
      cases href
      rw [State.extendArray, State.array_writeArray (hlen ▸ hf), if_pos rfl, hfill]
      exact ⟨rfl, hgood.carry new hbaked.1 hbaked.2⟩
  · refine ⟨u, none, [], rfl, hlen, ?_, ?_, by simp⟩
    · intro k hk
      rw [harray, if_neg hk]
    · rw [hfill, append_nil]

/-- `_share_token_arrays` gives the copied history with the new input, and leaves what is
committed. -/
theorem Committed.share {s₀ : State} {r : Req} (h : Committed s last lens s₀ r) (new : List Nat) :
    ∃ t fill, s.shareTokenArrays lens last new =
      (t, r.originInputIds, r.originInputIdsUnpadded, fill) ∧ t.array r.originInputIds =
        s₀.array r.originInputIds ++ r.outputIds.take r.maxNewTokens ++ new ∧
      t.array r.originInputIdsUnpadded =
        s₀.array r.originInputIdsUnpadded ++ r.outputIds.take r.maxNewTokens ++ new ∧
      (∀ ref ∈ fill, ref = r.fullUntruncatedFillIds ∧
        t.array ref = s₀.array r.originInputIds ++ r.outputIds.take r.maxNewTokens ++ new) ∧
      Committed t last lens s₀ r := by
  have hshare : s.shareTokenArrays lens last new = s.shareTokenArrays lens r new := by
    rw [← h.same]
    rfl
  set out := r.outputIds.take r.maxNewTokens with hout
  -- cut back to what is committed
  obtain ⟨s₂, hs₂, hlen₂, harray₂⟩ := @State.array_writeBoth s _ _ (s₀.array r.originInputIds)
    (s₀.array r.originInputIdsUnpadded) h.origin_lt h.unpadded_lt fun heq => by rw [heq]
  have hcut : (if r.originInputIdsUnpadded = r.originInputIds then
    s.truncateArray r.originInputIds lens.origin
      else (s.truncateArray r.originInputIds lens.origin).truncateArray r.originInputIdsUnpadded
        lens.unpadded) = s₂ := by
    rw [← hs₂]
    split
    · rw [State.truncateArray, h.origin]
    · next hne =>
      rw [State.truncateArray, State.truncateArray, State.array_writeArray h.origin_lt, if_neg hne,
        h.origin, h.unpadded]
  have horigin₂ := harray₂ r.originInputIds
  have hfill₂ := harray₂ r.fullUntruncatedFillIds
  rw [if_pos rfl] at horigin₂
  rw [if_neg h.fill_ne_origin, if_neg h.fill_ne_unpadded] at hfill₂
  -- the fill ids
  obtain ⟨s₃, fill, more, hcarry, hlen₃, hother₃, hfill₃, hcarried⟩ :=
    @array_carryFill s₂ r lens out new
    (by rw [hlen₂]; exact h.fill_lt) h.fill_ne_origin h.fill_ne_unpadded
    (by rw [hfill₂, ← h.fill, horigin₂]; exact h.good.take _)
  rw [hfill₂, ← h.fill] at hfill₃
  have horigin₃ : s₃.array r.originInputIds = s₀.array r.originInputIds := by
    rw [hother₃ _ (Ne.symm h.fill_ne_origin), horigin₂]
  have hlen : s₃.arrays.length = s.arrays.length := hlen₃.trans hlen₂
  -- and the input grows
  obtain ⟨t, ht, hlen_t, harray⟩ :=
    @State.array_writeBoth s₃ _ _ (s₀.array r.originInputIds ++ (out ++ new))
    (s₀.array r.originInputIdsUnpadded ++ (out ++ new)) (hlen ▸ h.origin_lt) (hlen ▸ h.unpadded_lt)
    fun heq => by rw [heq]
  have hgrow : (if r.originInputIdsUnpadded = r.originInputIds then
        s₃.extendArray r.originInputIds (out ++ new)
      else (s₃.extendArray r.originInputIds (out ++ new)).extendArray r.originInputIdsUnpadded
        (out ++ new)) = t := by
    rw [← ht]
    split
    · rw [State.extendArray, horigin₃]
    · next hne =>
      rw [State.extendArray, State.extendArray, State.array_writeArray (hlen ▸ h.origin_lt),
        if_neg hne, horigin₃, hother₃ _ (Ne.symm h.fill_ne_unpadded), harray₂, if_neg hne,
          if_pos rfl]
  replace hlen_t := hlen_t.trans hlen
  have horigin := harray r.originInputIds
  have hunpadded := harray r.originInputIdsUnpadded
  have hfill := harray r.fullUntruncatedFillIds
  rw [if_pos rfl] at horigin
  rw [if_neg h.fill_ne_origin, if_neg h.fill_ne_unpadded] at hfill
  have hunpadded' : t.array r.originInputIdsUnpadded =
      s₀.array r.originInputIdsUnpadded ++ (out ++ new) := by
    rw [hunpadded]
    split
    · next heq => rw [heq]
    · exact if_pos rfl
  refine ⟨t, fill, ?_, ?_, ?_, ?_, ?_⟩
  · rw [hshare]
    unfold State.shareTokenArrays
    dsimp only
    rw [hcut, ← hout, hcarry]
    dsimp only
    rw [hgrow]
  · rw [horigin, append_assoc]
  · rw [hunpadded', append_assoc]
  · intro ref href
    obtain ⟨rfl, hcontent⟩ := hcarried ref href
    exact ⟨rfl, by rw [hfill, hcontent, horigin₂]⟩
  · have hcommitted := take_committed h.origin h.origin_le (out ++ new)
    have hcommitted' := take_committed h.unpadded h.unpadded_le (out ++ new)
    have hcommitted'' := take_committed h.fill h.fill_le more
    exact {
      same := h.same
      copied := h.copied
      origin_lt := by rw [hlen_t]; exact h.origin_lt
      unpadded_lt := by rw [hlen_t]; exact h.unpadded_lt
      fill_lt := by rw [hlen_t]; exact h.fill_lt
      fill_ne_origin := h.fill_ne_origin
      fill_ne_unpadded := h.fill_ne_unpadded
      origin := by rw [horigin]; exact hcommitted.1
      unpadded := by rw [hunpadded']; exact hcommitted'.1
      fill := by rw [hfill, hfill₃]; exact hcommitted''.1
      origin_le := by rw [horigin]; exact hcommitted.2
      unpadded_le := by rw [hunpadded']; exact hcommitted'.2
      fill_le := by rw [hfill, hfill₃]; exact hcommitted''.2
      good := h.good }

theorem array_concatTokenArrays {r : Req} (hu : r.originInputIdsUnpadded < s.arrays.length)
    (new : List Nat) :
    ∃ t inputIds unpadded, s.concatTokenArrays r new = (t, inputIds, unpadded) ∧
      t.array inputIds = s.array r.originInputIds ++ r.outputIds.take r.maxNewTokens ++ new ∧
      t.array unpadded =
        s.array r.originInputIdsUnpadded ++ r.outputIds.take r.maxNewTokens ++ new := by
  set s₁ := (s.newArray (s.array r.originInputIds ++ r.outputIds.take r.maxNewTokens ++ new)).1 with
    hs₁
  have hlen : s₁.arrays.length = s.arrays.length + 1 := by simp [hs₁, State.newArray]
  have hold : s₁.array r.originInputIdsUnpadded = s.array r.originInputIdsUnpadded := by
    rw [hs₁, State.array_newArray, if_neg (Nat.ne_of_lt hu)]
  refine ⟨_, _, _, rfl, ?_, ?_⟩
  · change (s₁.newArray _).1.array s.arrays.length = _
    rw [State.array_newArray, if_neg (by omega), hs₁, State.array_newArray, if_pos rfl]
  · change (s₁.newArray _).1.array s₁.arrays.length = _
    rw [State.array_newArray, if_pos rfl]
    change s₁.array r.originInputIdsUnpadded ++ r.outputIds.take r.maxNewTokens ++ new = _
    rw [hold]

end Share

/-! ## Section 5: The invariant -/

/-- The arrays of the request in flight are apart, and its fill ids are good unless it is to be
aborted. -/
structure Running (s : State) (r : Req) : Prop where
  origin_lt : r.originInputIds < s.arrays.length
  unpadded_lt : r.originInputIdsUnpadded < s.arrays.length
  fill_lt : r.fullUntruncatedFillIds < s.arrays.length
  fill_ne_origin : r.fullUntruncatedFillIds ≠ r.originInputIds
  fill_ne_unpadded : r.fullUntruncatedFillIds ≠ r.originInputIdsUnpadded
  good : r.toFinish = none →
    FillGood (s.array r.fullUntruncatedFillIds) (s.array r.originInputIds) r.outputIds

structure World.Inv (w : World) : Prop where
  last : ∀ i, w.state.reqNodes = some i → ∃ last lens s r, w.state.reqs[i]? = some last ∧
    w.state.committed = some lens ∧ w.copy = some (s, r) ∧ Committed w.state last lens s r
  active : ∀ i, w.active = some i → w.state.reqNodes ≠ some i ∧
    ∃ r, w.state.reqs[i]? = some r ∧ Running w.state r

theorem World.inv_init : World.init.Inv where
  last _ h := by cases h
  active _ h := by cases h

theorem State.longer_of_arrays {s t : State} (h : t.arrays = s.arrays) : State.Longer s t := by
  refine ⟨by rw [h], fun k _ => ?_⟩
  unfold State.array
  rw [h]

theorem State.Longer.trans {s t u : State} (h : State.Longer s t) (h' : State.Longer t u) :
    State.Longer s u :=
  ⟨h.1.trans h'.1, fun k hk => (h.2 k hk).trans (h'.2 k (hk.trans_le h.1))⟩

theorem World.Inv.shares {w : World} (h : w.Inv) (e : TurnEvent) : SharesAsCopied w e := by
  cases e with
  | create bosTokenId recv =>
    intro last hlast
    obtain ⟨i, hnodes, hreq⟩ := Option.bind_eq_some_iff.mp hlast
    obtain ⟨last', lens, s, r, hreq', hlens, hcopy, hc⟩ := h.last i hnodes
    rw [hreq] at hreq'
    cases hreq'
    refine ⟨lens, s, r, hlens, hcopy, ?_⟩
    obtain ⟨t, fill, hshare, horigin, hunpadded, hfill, -⟩ :=
      hc.share (State.stripBosToken bosTokenId recv.inputIds)
    obtain ⟨u, inputIds, unpadded, hconcat, horigin', hunpadded'⟩ :=
      array_concatTokenArrays hc.copied (State.stripBosToken bosTokenId recv.inputIds)
    rw [hshare, hconcat]
    refine ⟨horigin.trans horigin'.symm, hunpadded.trans hunpadded'.symm, ?_⟩
    intro ref href
    exact (hfill ref href).2.trans horigin'.symm
  | pad _ => trivial
  | invalidate _ => trivial
  | refresh => trivial
  | output _ => trivial
  | finish _ => trivial
  | abort => trivial

/-! ## Section 6: Every step keeps the invariant -/

/-- A new request, with the fill ids of the last turn if they were carried over. -/
theorem running_newReq {s : State} {inputIds unpadded : Nat} {fill : Option Nat}
    (hi : inputIds < s.arrays.length) (hu : unpadded < s.arrays.length)
    (hfill : ∀ ref ∈ fill, ref < s.arrays.length ∧ ref ≠ inputIds ∧ ref ≠ unpadded ∧
      s.array ref = s.array inputIds) (maxNewTokens : Nat) :
    ∃ t q, s.newReq inputIds unpadded fill maxNewTokens true =
      (t, q) ∧ State.Extended s t ∧ Running t q := by
  have hchoice : ∀ n, inputIds < n → unpadded < n →
      (if s.array unpadded = [] then inputIds else unpadded) < n := by
    intro n hin hun
    split
    · exact hin
    · exact hun
  have hne : ∀ ref, ref ≠ inputIds → ref ≠ unpadded →
      ref ≠ if s.array unpadded = [] then inputIds else unpadded := by
    intro ref hri hru
    split
    · exact hri
    · exact hru
  cases fill with
  | some ref =>
    obtain ⟨hlt, hri, hru, hcontent⟩ := hfill ref rfl
    refine ⟨s, _, rfl, State.Extended.refl s, hi, hchoice _ hi hu, hlt, hri, hne _ hri hru,
      fun _ _ _ => ?_⟩
    change s.array ref = s.array inputIds ++ List.take _ []
    rw [hcontent, take_nil, append_nil]
  | none =>
    refine ⟨(s.newArray []).1, _, rfl, ⟨[[]], rfl⟩, ?_⟩
    have hlen : (s.newArray []).1.arrays.length = s.arrays.length + 1 := by simp [State.newArray]
    have hold : ∀ k < s.arrays.length, (s.newArray []).1.array k = s.array k := by
      intro k hk
      rw [State.array_newArray, if_neg (Nat.ne_of_lt hk)]
    have hnew : (s.newArray []).1.array s.arrays.length = [] := by
      rw [State.array_newArray, if_pos rfl]
    have hchoice' : (if (s.newArray []).1.array unpadded = [] then inputIds else unpadded) <
        s.arrays.length := by
      rw [hold unpadded hu]
      exact hchoice _ hi hu
    refine ⟨?_, ?_, ?_, ?_, ?_, fun _ hge _ => ?_⟩
    · change inputIds < (s.newArray []).1.arrays.length
      omega
    · change (if (s.newArray []).1.array unpadded = [] then inputIds else unpadded) <
        (s.newArray []).1.arrays.length
      omega
    · change s.arrays.length < (s.newArray []).1.arrays.length
      omega
    · exact Nat.ne_of_gt hi
    · exact Nat.ne_of_gt hchoice'
    · change (s.newArray []).1.array s.arrays.length = (s.newArray []).1.array inputIds ++
        List.take _ []
      change ((s.newArray []).1.array inputIds).length ≤
        ((s.newArray []).1.array s.arrays.length).length at hge
      rw [hnew] at hge ⊢
      rw [length_nil, Nat.le_zero, length_eq_zero_iff] at hge
      rw [hge, take_nil, append_nil]

theorem Running.of_arrays {s t : State} {r : Req} (h : Running s r)
    (harrays : t.arrays = s.arrays) :
    Running t r := by
  have harray : ∀ k, t.array k = s.array k := by
    intro k
    unfold State.array
    rw [harrays]
  refine ⟨?_, ?_, ?_, h.fill_ne_origin, h.fill_ne_unpadded, ?_⟩
  · rw [harrays]
    exact h.origin_lt
  · rw [harrays]
    exact h.unpadded_lt
  · rw [harrays]
    exact h.fill_lt
  · rw [harray, harray]
    exact h.good

namespace World.Inv

variable {w : World} {i : Nat} {r q : Req} {t : State}

theorem added (h : w.Inv) (hgrown : State.Grown w.state t) (inflight : Bool)
    (hlast : ∀ last lens s r, w.state.last = some last → w.state.committed = some lens →
      w.copy = some (s, r) → Committed w.state last lens s r → Committed t last lens s r)
    {active : Option Nat} (hactive : ∀ i ∈ active, i = w.state.reqs.length ∧ Running t q) :
    World.Inv ⟨{ t with reqs := t.reqs ++ [q], inflight := inflight }, active, w.copy⟩ := by
  have hreqs : t.reqs = w.state.reqs := by
    obtain ⟨arrays, rfl, -⟩ := hgrown
    rfl
  have hnodes : t.reqNodes = w.state.reqNodes := by
    obtain ⟨arrays, rfl, -⟩ := hgrown
    rfl
  have hcommitted : t.committed = w.state.committed := by
    obtain ⟨arrays, rfl, -⟩ := hgrown
    rfl
  constructor
  · intro k hk
    change t.reqNodes = some k at hk
    rw [hnodes] at hk
    obtain ⟨last, lens, s, r, hreq, hlens, hcopy, hc⟩ := h.last k hk
    have hlt : k < w.state.reqs.length := (List.getElem?_eq_some_iff.mp hreq).1
    refine ⟨last, lens, s, r, ?_, hcommitted.trans hlens, hcopy, ?_⟩
    · change (t.reqs ++ [q])[k]? = some last
      rw [hreqs, getElem?_append_left hlt, hreq]
    · have hc' :=
        hlast last lens s r (by rw [State.last, hk, Option.bind_some, hreq]) hlens hcopy hc
      exact hc'.longer (State.longer_of_arrays rfl)
  · intro k hk
    obtain ⟨rfl, hrun⟩ := hactive k hk
    refine ⟨fun hk => ?_, q, ?_, hrun.of_arrays rfl⟩
    · change t.reqNodes = some _ at hk
      rw [hnodes] at hk
      obtain ⟨last, _, _, _, hreq, -⟩ := h.last _ hk
      exact absurd (List.getElem?_eq_some_iff.mp hreq).1 (Nat.lt_irrefl _)
    · change (t.reqs ++ [q])[w.state.reqs.length]? = some q
      rw [hreqs, getElem?_append_right le_rfl, Nat.sub_self]
      rfl

theorem create (h : w.Inv) (bosTokenId : Option Nat) (recv : RecvReq) :
    World.Inv ⟨w.state.createReq bosTokenId recv,
      if (w.state.abortMessage recv.sessionParams).isSome then none else some w.state.reqs.length,
      w.copy⟩ := by
  cases hmessage : w.state.abortMessage recv.sessionParams with
  | some message =>
    -- a rejected request is added, and nothing starts to run
    obtain ⟨t, q, hext, -, -, -, -, heq⟩ :=
      createReq_rejected bosTokenId (Option.isSome_iff_exists.mpr ⟨message, hmessage⟩)
    rw [heq]
    apply h.added hext.grown t.inflight
    · exact fun _ _ _ _ _ _ _ hc => hc.longer (State.Extended.longer hext)
    · simp
  | none =>
    have hnone : (none : Option String).isSome = false := rfl
    rw [hnone, if_neg Bool.false_ne_true]
    cases hlast : w.state.last with
    | none =>
      -- the first turn of the session: its input is a new array
      obtain ⟨s₁, hs₁⟩ : ∃ t, w.state.newArray recv.inputIds = (t, w.state.arrays.length) :=
        ⟨_, rfl⟩
      obtain ⟨hext, -, hlt⟩ := State.newArray_spec hs₁
      obtain ⟨t, q, hq, hext', hrun⟩ :=
        running_newReq hlt hlt (by simp : ∀ ref ∈ (none : Option Nat), _)
        recv.maxNewTokens
      have heq : w.state.createReq bosTokenId recv =
          { t with reqs := t.reqs ++ [q], inflight := true } := by
        unfold State.createReq
        rw [hmessage]
        dsimp only
        rw [show (w.state.reqNodes.bind fun i => w.state.reqs[i]?) = none from hlast]
        dsimp only
        rw [hs₁]
        dsimp only
        rw [hq]
      rw [heq]
      apply h.added (hext.trans hext').grown true
      · exact fun _ _ _ _ hsome => absurd (hlast.symm.trans hsome) (by simp)
      · intro k hk
        cases hk
        exact ⟨rfl, hrun⟩
    | some last =>
      -- a later turn goes on from the arrays of the last request
      obtain ⟨k, hnodes, hreq⟩ := Option.bind_eq_some_iff.mp hlast
      obtain ⟨last', lens, s, r, hreq', hlens, hcopy, hc⟩ := h.last k hnodes
      rw [hreq] at hreq'
      cases hreq'
      obtain ⟨s₁, fill, hshare, horigin, -, hfill, hc'⟩ :=
        hc.share (State.stripBosToken bosTokenId recv.inputIds)
      obtain ⟨t, q, hq, hext', hrun⟩ := @running_newReq _ _ _ fill hc'.origin_lt hc'.unpadded_lt
        (fun ref href => by
          obtain ⟨rfl, hcontent⟩ := hfill ref href
          exact ⟨hc'.fill_lt, hc.fill_ne_origin, hc.fill_ne_unpadded, hcontent.trans horigin.symm⟩)
        recv.maxNewTokens
      have heq : w.state.createReq bosTokenId recv =
          { t with reqs := t.reqs ++ [q], inflight := true } := by
        unfold State.createReq
        rw [hmessage]
        dsimp only
        rw [show (w.state.reqNodes.bind fun i => w.state.reqs[i]?) = some last from hlast]
        dsimp only
        rw [hlens]
        dsimp only
        rw [hshare]
        dsimp only
        rw [hq]
      rw [heq]
      apply h.added ((State.shareTokenArrays_spec hshare).1.trans hext'.grown) true
      · intro last' lens' s' r' hlast' hlens' hcopy' _
        rw [hlast] at hlast'
        rw [hlens] at hlens'
        rw [hcopy] at hcopy'
        cases hlast'
        cases hlens'
        cases hcopy'
        exact hc'.longer (State.Extended.longer hext')
      · intro k hk
        cases hk
        exact ⟨rfl, hrun⟩

section Active

variable (h : w.Inv) (hactive : w.active = some i) (hi : w.state.reqs[i]? = some r)
include h hactive hi

theorem running : Running w.state r := by
  obtain ⟨r', hreq, hrun⟩ := (h.active i hactive).2
  rw [hi] at hreq
  cases hreq
  exact hrun

theorem changed
    (hreqs : t.reqs = w.state.reqs.set i q) (hnodes : t.reqNodes = w.state.reqNodes)
    (hcommitted : t.committed = w.state.committed) (hlong : State.Longer w.state t)
    (hrun : Running t q) :
    World.Inv ⟨t, w.active, w.copy⟩ where
  last k hk := by
    change t.reqNodes = some k at hk
    rw [hnodes] at hk
    obtain ⟨last, lens, s, r', hreq, hlens, hcopy, hc⟩ := h.last k hk
    refine ⟨last, lens, s, r', ?_, hcommitted.trans hlens, hcopy, hc.longer hlong⟩
    change t.reqs[k]? = some last
    have hne : i ≠ k := fun heq => (h.active i hactive).1 (heq ▸ hk)
    rw [hreqs, getElem?_set_ne hne, hreq]
  active k hk := by
    change w.active = some k at hk
    rw [hactive] at hk
    cases hk
    refine ⟨?_, q, ?_, hrun⟩
    · change t.reqNodes ≠ some i
      rw [hnodes]
      exact (h.active i hactive).1
    · change t.reqs[i]? = some q
      rw [hreqs, getElem?_set_self (List.getElem?_eq_some_iff.mp hi).1]

theorem changed_newArray {tokens : List Nat} (hrun : Running (w.state.newArray tokens).1 q) :
    World.Inv ⟨(w.state.newArray tokens).1.setReq i q, w.active, w.copy⟩ := by
  have hlong : State.Longer w.state (w.state.newArray tokens).1 := State.Extended.longer ⟨_, rfl⟩
  exact h.changed hactive hi rfl rfl rfl (hlong.trans (State.longer_of_arrays rfl))
    (hrun.of_arrays rfl)

theorem pad
    (paddedInputIds : List Nat) (hfresh : r.outputIds = [])
    (hfits : (w.state.array r.fullUntruncatedFillIds).length = paddedInputIds.length →
      w.state.array r.fullUntruncatedFillIds = paddedInputIds) :
    World.Inv ⟨(w.state.newArray paddedInputIds).1.setReq i
      { r with originInputIds := w.state.arrays.length }, w.active, w.copy⟩ := by
  have hrun := h.running hactive hi
  have hfill : (w.state.newArray paddedInputIds).1.array r.fullUntruncatedFillIds =
      w.state.array r.fullUntruncatedFillIds := by
    rw [State.array_newArray, if_neg (Nat.ne_of_lt hrun.fill_lt)]
  refine h.changed_newArray hactive hi ⟨?_, ?_, ?_, Nat.ne_of_lt hrun.fill_lt,
    hrun.fill_ne_unpadded, fun _ => ?_⟩
  · simp
  · simpa using hrun.unpadded_lt.le
  · simpa using hrun.fill_lt.le
  · change FillGood ((w.state.newArray paddedInputIds).1.array r.fullUntruncatedFillIds)
      ((w.state.newArray paddedInputIds).1.array w.state.arrays.length) r.outputIds
    rw [hfill, State.array_newArray, if_pos rfl, hfresh]
    intro hge hle
    rw [length_nil] at hle
    rw [hfits (by omega), take_nil, append_nil]

theorem invalidate
    (message : String) :
    World.Inv ⟨(w.state.setFinishWithAbort r message).1.setReq i
      (w.state.setFinishWithAbort r message).2, w.active, w.copy⟩ := by
  have hrun := h.running hactive hi
  -- the fill ids of a request that is to be aborted need not be good
  refine h.changed_newArray hactive hi ⟨?_, ?_, ?_, Nat.ne_of_lt hrun.fill_lt,
    hrun.fill_ne_unpadded, fun hnone => ?_⟩
  · exact Nat.lt_of_lt_of_eq (Nat.lt_succ_self _) (State.length_arrays_newArray _).symm
  · exact hrun.unpadded_lt.trans_le (State.Extended.longer ⟨_, rfl⟩).1
  · exact hrun.fill_lt.trans_le (State.Extended.longer ⟨_, rfl⟩).1
  · cases hnone

/-- The fill ids are brought up to date, in place or in a new array. -/
theorem refresh :
    World.Inv ⟨w.state.refreshFillIds i r, w.active, w.copy⟩ := by
  have hrun := h.running hactive hi
  unfold State.refreshFillIds
  dsimp only
  split
  · next hbaked =>
    have hlong : State.Longer w.state (w.state.extendArray r.fullUntruncatedFillIds
        (r.outputIds.drop ((w.state.array r.fullUntruncatedFillIds).length -
          (w.state.array r.originInputIds).length))) := State.longer_extendArray hrun.fill_lt _
    refine h.changed hactive hi (set_self hi) rfl rfl hlong ?_
    refine ⟨hrun.origin_lt.trans_le hlong.1, hrun.unpadded_lt.trans_le hlong.1,
      hrun.fill_lt.trans_le hlong.1, hrun.fill_ne_origin, hrun.fill_ne_unpadded, fun hnone => ?_⟩
    rw [State.array_writeArray hrun.fill_lt, State.array_writeArray hrun.fill_lt, if_pos rfl,
      if_neg (Ne.symm hrun.fill_ne_origin)]
    have hcarry := (hrun.good hnone).carry [] hbaked.2.1 hbaked.2.2
    rw [append_nil, append_nil] at hcarry
    rw [hcarry]
    intro _ _
    rw [length_append, Nat.add_sub_cancel_left, take_length]
  · refine h.changed_newArray hactive hi ⟨?_, ?_, ?_, Nat.ne_of_gt hrun.origin_lt,
      Nat.ne_of_gt hrun.unpadded_lt, fun _ => ?_⟩
    · simpa using hrun.origin_lt.le
    · simpa using hrun.unpadded_lt.le
    · simp [State.newArray]
    · change FillGood ((w.state.newArray _).1.array w.state.arrays.length)
        ((w.state.newArray _).1.array r.originInputIds) r.outputIds
      rw [State.array_newArray, State.array_newArray, if_pos rfl,
        if_neg (Nat.ne_of_lt hrun.origin_lt)]
      intro _ _
      rw [length_append, Nat.add_sub_cancel_left, take_length]

theorem output
    (hfilled : w.state.filled r) (tokens : List Nat) :
    World.Inv
      ⟨w.state.setReq i { r with outputIds := r.outputIds ++ tokens }, w.active, w.copy⟩ := by
  have hrun := h.running hactive hi
  refine h.changed hactive hi rfl rfl rfl (State.longer_of_arrays rfl) ?_
  refine ⟨hrun.origin_lt, hrun.unpadded_lt, hrun.fill_lt, hrun.fill_ne_origin,
    hrun.fill_ne_unpadded, fun hnone _ _ => ?_⟩
  change w.state.array r.fullUntruncatedFillIds = w.state.array r.originInputIds ++
    (r.outputIds ++ tokens).take ((w.state.array r.fullUntruncatedFillIds).length -
      (w.state.array r.originInputIds).length)
  rw [take_append_of_le_length hfilled.2]
  exact hrun.good hnone hfilled.1 hfilled.2

/-- The request is the last one now, and its arrays are confirmed. -/
theorem finish
    (hnone : r.toFinish = none) (n : Nat) :
    World.Inv ⟨(w.state.setReq i { r with outputIds := r.outputIds.take n }).finishReq i
        { r with outputIds := r.outputIds.take n }, none,
      some (w.state.setReq i { r with outputIds := r.outputIds.take n },
        { r with outputIds := r.outputIds.take n })⟩ := by
  have hnodes := (h.active i hactive).1
  have hrun := h.running hactive hi
  have hlt := (List.getElem?_eq_some_iff.mp hi).1
  set q : Req := { r with outputIds := r.outputIds.take n } with hq
  -- the finish writes the committed lengths, and no array
  have harrays : ((w.state.setReq i q).finishReq i q).arrays = w.state.arrays := by
    unfold State.finishReq
    dsimp only
    split <;> rfl
  have harray : ∀ k, ((w.state.setReq i q).finishReq i q).array k = w.state.array k := by
    intro k
    unfold State.array
    rw [harrays]
  have hcommitted : ((w.state.setReq i q).finishReq i q).committed =
      some ⟨(w.state.array r.originInputIds).length,
        (w.state.array r.originInputIdsUnpadded).length,
        (w.state.array r.fullUntruncatedFillIds).length⟩ := by
    unfold State.finishReq
    dsimp only
    split <;> rfl
  constructor
  · intro k hk
    have hki : k = i := by
      unfold State.finishReq at hk
      exact (Option.some.inj hk).symm
    subst hki
    refine ⟨q, _, _, _, ?_, hcommitted, rfl, ?_⟩
    · obtain ⟨committed, heq⟩ := State.finishReq_eq w.state q q hnodes
      rw [heq]
      apply getElem?_set_self
      unfold State.detached
      split
      · exact hlt
      · rw [length_modify]
        exact hlt
    · refine ⟨rfl, hrun.unpadded_lt, ?_, ?_, ?_, hrun.fill_ne_origin, hrun.fill_ne_unpadded, ?_, ?_,
        ?_, ?_, ?_, ?_, (hrun.good hnone).take n⟩
      · rw [harrays]
        exact hrun.origin_lt
      · rw [harrays]
        exact hrun.unpadded_lt
      · rw [harrays]
        exact hrun.fill_lt
      · rw [harray]
        exact (take_length).symm
      · rw [harray]
        exact (take_length).symm
      · rw [harray]
        exact (take_length).symm
      · rw [harray]
      · rw [harray]
      · rw [harray]
  · intro k hk
    cases hk

end Active

theorem turnStep_cases {w' : World} {e : TurnEvent} (h : turnStep w e = some w') :
    (∃ bosTokenId recv, e = .create bosTokenId recv ∧ w' = { w with
      state := w.state.createReq bosTokenId recv
      active := if (w.state.abortMessage recv.sessionParams).isSome then none
        else some w.state.reqs.length }) ∨
    ∃ i r, w.active = some i ∧ w.state.reqs[i]? = some r ∧ w.reqStep i r e = some w' := by
  by_cases hcreate : ∃ bosTokenId recv, e = .create bosTokenId recv
  · obtain ⟨bosTokenId, recv, rfl⟩ := hcreate
    simp only [turnStep, Option.ite_none_left_eq_some, Option.some.injEq] at h
    exact .inl ⟨bosTokenId, recv, rfl, h.2.symm⟩
  · -- every other event is for the request in flight
    have h' : (w.active.bind fun i => (w.state.reqs[i]?).bind fun r => w.reqStep i r e) =
        some w' := by
      cases e with
      | create bosTokenId recv => exact absurd ⟨bosTokenId, recv, rfl⟩ hcreate
      | _ => exact h
    obtain ⟨i, hactive, h'⟩ := Option.bind_eq_some_iff.mp h'
    obtain ⟨r, hi, h'⟩ := Option.bind_eq_some_iff.mp h'
    exact .inr ⟨i, r, hactive, hi, h'⟩

theorem abort (h : w.Inv) : World.Inv ⟨w.state.abortReq, none, w.copy⟩ where
  last k hk := by
    obtain ⟨last, lens, s, r, hreq, hlens, hcopy, hc⟩ := h.last k hk
    exact ⟨last, lens, s, r, hreq, hlens, hcopy, hc.longer (State.longer_of_arrays rfl)⟩
  active _ hk := by cases hk

theorem step {w' : World} {e : TurnEvent} (h : w.Inv) (hfits : Fits w e)
    (hstep : turnStep w e = some w') :
    w'.Inv := by
  rcases turnStep_cases hstep with ⟨bosTokenId, recv, -, rfl⟩ | ⟨i, r, hactive, hi, hreq⟩
  · exact h.create bosTokenId recv
  clear hstep
  cases e <;>
    simp only [World.reqStep, Option.ite_none_left_eq_some, Option.ite_none_right_eq_some,
      Option.some.injEq, reduceCtorEq] at hreq
  case pad paddedInputIds =>
    obtain ⟨hfresh, rfl⟩ := hreq
    exact h.pad hactive hi _ (not_not.mp hfresh) (hfits i hactive r hi)
  case invalidate message =>
    rw [← hreq]
    exact h.invalidate hactive hi message
  case refresh =>
    rw [← hreq]
    exact h.refresh hactive hi
  case output tokens =>
    obtain ⟨hfilled, rfl⟩ := hreq
    exact h.output hactive hi hfilled tokens
  case finish finishedLen =>
    obtain ⟨hnone, rfl⟩ := hreq
    exact h.finish hactive hi (Option.not_isSome_iff_eq_none.mp hnone) _
  case abort =>
    rw [← hreq]
    exact h.abort

end World.Inv

/-! ## Section 7: Runs -/

/-- Three turns; the second one appends, is aborted, and is tried again. -/
def abortedTurn : List TurnEvent :=
  [.create none { inputIds := [1, 2], maxNewTokens := 2 }, .refresh, .output [3, 4, 5],
    .finish none, .create none { inputIds := [6], maxNewTokens := 2 }, .refresh, .output [7],
      .abort,
    .create none { inputIds := [8], maxNewTokens := 2 }, .pad [1, 2, 3, 4, 8, 8], .refresh,
    .output [9],
    .finish none, .create none { inputIds := [10], maxNewTokens := 2 }]

/-- The second turn has an image of one token: its padded ids are as long as what was carried
over. -/
def paddedTurn : List TurnEvent :=
  [.create none { inputIds := [1], maxNewTokens := 2 }, .refresh, .output [2], .finish none,
    .create none { inputIds := [9], maxNewTokens := 2 }, .pad [1, 2, 77], .refresh, .output [3],
    .finish none,
    .create none { inputIds := [4], maxNewTokens := 2 }]

end Sglang.Session
