import Sglang.Managers.FinishState

/-!
# Runs Stop at the First Stop

What `updateFinishState` does to an unfinished request, for accepted runs of any length.

- `StopsAt`, `FirstStop`: what the length, the stop tokens and the stop strings say of a prefix of
  the output,
- `Spans`: the tokens that an occurrence of a stop string spans,
- `EarliestWins`: no check that comes first hides an earlier stop of the run,
- `stopsRight_iff`: the request stops at the first stop, however its output is cut into runs,
  exactly where that holds of each run.
-/

namespace Sglang.Managers

open List Option

/-! ## Section 1: Texts of tokens -/

section Texts

variable {piece : Int → List Char} {s : List Char}

/-- An occurrence of `s` that starts in token `i` and ends in token `j - 1`. -/
def Spans (piece : Int → List Char) (out : List Int) (s : List Char) (i j : Nat) : Prop :=
  ∃ first last pre suf, i < j ∧ out[i]? = some first ∧ out[j - 1]? = some last ∧
    ((out.take j).drop i).flatMap piece = pre ++ s ++ suf ∧ pre.length < (piece first).length ∧
    suf.length < (piece last).length

theorem infix_take_mono {out : List Int} {j k : Nat} (hle : j ≤ k)
    (h : s <:+: (out.take j).flatMap piece) :
    s <:+: (out.take k).flatMap piece := by
  obtain ⟨rest, hrest⟩ := take_prefix_take_left (l := out) hle
  rw [← hrest, flatMap_append]
  exact h.trans (prefix_append _ _).isInfix

theorem infix_of_drop {out : List Int} (i : Nat) (h : s <:+: (out.drop i).flatMap piece) :
    s <:+: out.flatMap piece := by
  rw [← take_append_drop i out, flatMap_append]
  exact h.trans (suffix_append _ _).isInfix

theorem exists_first_token (hs : s ≠ []) {suf : List Char} (xs : List Int) :
    ∀ {pre : List Char}, xs.flatMap piece = pre ++ s ++ suf →
      ∃ i first pre', xs[i]? = some first ∧ (xs.drop i).flatMap piece = pre' ++ s ++ suf ∧
        pre'.length < (piece first).length := by
  induction xs with
  | nil =>
    intro pre h
    have hnil := congrArg List.length h
    have hpos := length_pos_iff.mpr hs
    simp only [flatMap_nil, length_nil, length_append] at hnil
    omega
  | cons x xs ih =>
    intro pre h
    by_cases hlt : pre.length < (piece x).length
    · exact ⟨0, x, pre, rfl, h, hlt⟩
    · -- the whole token is before the occurrence
      rw [flatMap_cons] at h
      have hstarts : piece x <+: pre := by
        refine prefix_of_prefix_length_le (prefix_append (piece x) (xs.flatMap piece)) ?_ (by omega)
        rw [h, append_assoc]
        exact prefix_append _ _
      obtain ⟨rest, rfl⟩ := hstarts
      rw [append_assoc, append_assoc, append_cancel_left_eq, ← append_assoc] at h
      obtain ⟨i, first, pre', hfirst, htext, hpre⟩ := ih h
      exact ⟨i + 1, first, pre', hfirst, htext, hpre⟩

theorem exists_spans (hs : s ≠ []) {out : List Int} {k : Nat} (hk : 0 < k) (hlen : k ≤ out.length)
    (h : s <:+: (out.take k).flatMap piece) (hnot : ¬ s <:+: (out.take (k - 1)).flatMap piece) :
    ∃ i, Spans piece out s i k := by
  obtain ⟨pre, suf, htext⟩ := h
  obtain ⟨i, first, pre', hfirst, hspan, hpre⟩ := exists_first_token hs (out.take k) htext.symm
  have hik : i < k := by
    have := (List.getElem?_eq_some_iff.mp hfirst).1
    rw [length_take] at this
    omega
  have hlt : k - 1 < out.length := by omega
  refine ⟨i, first, out[k - 1], pre', suf, hik, ?_, getElem?_eq_getElem hlt, hspan, hpre, ?_⟩
  · rwa [getElem?_take_of_lt hik] at hfirst
  · by_contra hge
    apply hnot
    have hsplit : out.take k = out.take (k - 1) ++ [out[k - 1]] := by
      rw [take_append_getElem hlt, Nat.sub_add_cancel hk]
    rw [hsplit, flatMap_append, flatMap_singleton] at htext
    have hsuffix : piece out[k - 1] <:+ suf := by
      refine suffix_of_suffix_length_le (suffix_append ((out.take (k - 1)).flatMap piece) _) ?_
        (by omega)
      rw [← htext]
      exact suffix_append _ _
    obtain ⟨rest, rfl⟩ := hsuffix
    rw [← append_assoc, append_cancel_right_eq] at htext
    exact ⟨pre, rest, htext⟩

end Texts

/-! ## Section 2: Stops -/

namespace Req

/-- The `k`-th token is an EOS or stop token that counts. -/
def TokenStop (req : Req) (out : List Int) (k : Nat) : Prop :=
  req.samplingParams.ignoreEos = false ∧ ∃ t, out[k - 1]? = some t ∧ req.matchedEos t = true

/-- The first `k` output tokens reach the limit, end in a stop token or contain a stop string. -/
def StopsAt (req : Req) (out : List Int) (k : Nat) : Prop :=
  1 ≤ k ∧ (req.samplingParams.maxNewTokens ≤ k ∨ req.TokenStop out k ∨
    ∃ s ∈ req.samplingParams.stopStrs, s <:+: req.decode (out.take k))

def FirstStop (req : Req) (out : List Int) (k : Nat) : Prop :=
  k ≤ out.length ∧ req.StopsAt out k ∧ ∀ j < k, ¬ req.StopsAt out j

def Unstopped (req : Req) (out : List Int) : Prop := ∀ k ≤ out.length, ¬ req.StopsAt out k

/-- No check that comes first hides an earlier stop of the run: a run that reaches the limit does
not stop before it, and no other prefix stops before the first of the listed stop strings that
occur. -/
def EarliestWins (req : Req) (old run : List Int) : Prop :=
  (req.samplingParams.maxNewTokens ≤ (old ++ run).length →
      ∀ k < req.samplingParams.maxNewTokens, ¬ req.StopsAt (old ++ run) k) ∧
    ((old ++ run).length < req.samplingParams.maxNewTokens → ∀ s,
      req.samplingParams.stopStrs.find? (fun s => s <:+: req.decode (old ++ run)) = some s →
      ∀ k ≤ (old ++ run).length, req.StopsAt (old ++ run) k →
      s <:+: req.decode ((old ++ run).take k))

end Req

/-- A request without grammar and stop regex, before its first token. -/
structure Starts (piece : Int → List Char) (req : Req) : Prop where
  decode : ∀ ids, req.decode ids = ids.flatMap piece
  outputIds : req.outputIds = []
  decodedText : req.decodedText = []
  unfinished : req.finishedReason = none
  finishedLen : req.finishedLen = none
  toFinish : req.toFinish = none
  grammar : req.grammar = none
  stopRegexStrs : req.samplingParams.stopRegexStrs = []
  maxNewTokens : 1 ≤ req.samplingParams.maxNewTokens

/-- Tokens of the vocabulary, in which no occurrence of a stop string spans too many tokens. -/
structure Streams (piece : Int → List Char) (req : Req) (out : List Int) : Prop where
  inVocab : ∀ t ∈ out, 0 ≤ t ∧ t < req.vocabSize
  spans : ∀ s ∈ req.samplingParams.stopStrs, ∀ i j, Spans piece out s i j →
    j ≤ i + (req.samplingParams.stopStrMaxLen + 1)

section Steps

variable {piece : Int → List Char} {req : Req}

open Req

variable {old run : List Int}

theorem stopsAt_append {k : Nat} (hk : k ≤ old.length) :
    req.StopsAt (old ++ run) k ↔ req.StopsAt old k := by
  rw [StopsAt, StopsAt, take_append_of_le_length hk, TokenStop, TokenStop]
  refine and_congr_right fun hpos => ?_
  rw [getElem?_append_left (by omega)]

theorem Req.Unstopped.of_append (h : req.Unstopped (old ++ run)) : req.Unstopped old := by
  intro k hk hstop
  apply h k _ ((stopsAt_append hk).mpr hstop)
  rw [length_append]
  omega

theorem not_infix_of_unstopped (hstart : Starts piece req) (hold : req.Unstopped old)
    {s : List Char} (hs : s ∈ req.samplingParams.stopStrs) (hne : s ≠ []) :
    ¬ s <:+: old.flatMap piece := by
  intro hoccurs
  rcases Nat.eq_zero_or_pos old.length with hzero | hpos
  · rw [length_eq_zero_iff.mp hzero, flatMap_nil] at hoccurs
    exact hne (infix_nil.mp hoccurs)
  · apply hold old.length le_rfl
    refine ⟨hpos, .inr (.inr ⟨s, hs, ?_⟩)⟩
    rwa [take_length, hstart.decode]

theorem Streams.of_append (h : Streams piece req (old ++ run)) : Streams piece req old := by
  refine ⟨fun t ht => h.inVocab t (mem_append_left run ht), fun s hs i j hspan =>
    h.spans s hs i j ?_⟩
  obtain ⟨first, last, pre, suf, hij, hfirst, hlast, htext, hpre, hsuf⟩ := hspan
  have hj : j ≤ old.length := by
    have := (List.getElem?_eq_some_iff.mp hlast).1
    omega
  refine ⟨first, last, pre, suf, hij, ?_, ?_, ?_, hpre, hsuf⟩
  · rwa [getElem?_append_left (by omega)]
  · rwa [getElem?_append_left (by omega)]
  · rwa [take_append_of_le_length hj]

/-- The window of a run, from `start` on, shows every occurrence that the prefix shows. -/
theorem infix_window_iff (hstart : Starts piece req) (hold : req.Unstopped old)
    (hstream : Streams piece req (old ++ run)) {s : List Char}
    (hs : s ∈ req.samplingParams.stopStrs) {start k : Nat}
    (hwindow : start + req.samplingParams.stopStrMaxLen ≤ old.length ∨ start = 0)
    (hlen : k ≤ (old ++ run).length) :
    s <:+: (((old ++ run).drop start).take (k - start)).flatMap piece ↔
      s <:+: ((old ++ run).take k).flatMap piece := by
  have hwin : ((old ++ run).drop start).take (k - start) = ((old ++ run).take k).drop start := by
    rw [drop_take]
  rw [hwin]
  constructor
  · exact infix_of_drop start
  · intro h
    by_cases hne : s = []
    · rw [hne]
      exact nil_infix
    · -- the first prefix with an occurrence
      classical
      have hex : ∃ n, s <:+: ((old ++ run).take n).flatMap piece := ⟨k, h⟩
      let n := Nat.find hex
      have hn : s <:+: ((old ++ run).take n).flatMap piece := Nat.find_spec hex
      have hnk : n ≤ k := Nat.find_min' hex h
      have hnold : old.length < n := by
        by_contra hge
        apply not_infix_of_unstopped hstart hold hs hne
        have hmono := infix_take_mono (Nat.le_of_not_lt hge) hn
        rwa [take_left] at hmono
      obtain ⟨i, hspan⟩ := exists_spans hne (by omega) (hnk.trans hlen) hn
        (Nat.find_min hex (by omega : n - 1 < Nat.find hex))
      have hbound := hstream.spans s hs i n hspan
      obtain ⟨_, _, pre, suf, hin, _, _, htext, _, _⟩ := hspan
      have hstarti : start ≤ i := by omega
      -- the tokens of the occurrence are in the window
      have hoccurs : s <:+: (((old ++ run).take n).drop start).flatMap piece := by
        obtain ⟨m, rfl⟩ := Nat.exists_eq_add_of_le hstarti
        apply infix_of_drop m
        rw [drop_drop, htext]
        exact ⟨pre, suf, rfl⟩
      have htake : ((old ++ run).take n).drop start =
          (((old ++ run).take k).drop start).take (n - start) := by
        rw [take_drop, Nat.add_sub_cancel' (by omega), take_take, Nat.min_eq_left hnk]
      rw [htake] at hoccurs
      refine hoccurs.trans ?_
      obtain ⟨rest, hrest⟩ := take_prefix (n - start) (((old ++ run).take k).drop start)
      conv_rhs => rw [← hrest, flatMap_append]
      exact (prefix_append _ _).isInfix

/-! ## Section 3: One accepted run -/

/-- Where a run ends the request. -/
inductive FinishesAt (req : Req) (old run : List Int) : Nat → Prop
  | length : req.samplingParams.maxNewTokens ≤ (old ++ run).length →
      FinishesAt req old run req.samplingParams.maxNewTokens
  | stopStr {s : List Char} {c : Nat} : (old ++ run).length < req.samplingParams.maxNewTokens →
      req.samplingParams.stopStrs.find? (fun s => s <:+: req.decode (old ++ run)) = some s →
      1 ≤ c → c ≤ (old ++ run).length → s <:+: req.decode ((old ++ run).take c) →
      (∀ k, 1 ≤ k → k < c → ¬ s <:+: req.decode ((old ++ run).take k)) → FinishesAt req old run c
  | token {c : Nat} : (old ++ run).length < req.samplingParams.maxNewTokens →
      req.samplingParams.stopStrs.find? (fun s => s <:+: req.decode (old ++ run)) = none →
      1 ≤ c → c ≤ (old ++ run).length → req.TokenStop (old ++ run) c →
      (∀ k, 1 ≤ k → k < c → ¬ req.TokenStop (old ++ run) k) → FinishesAt req old run c

theorem FinishesAt.le_length {c : Nat} (h : FinishesAt req old run c) :
    c ≤ (old ++ run).length := by
  cases h with
  | length hlen => exact hlen
  | stopStr _ _ _ hc _ _ => exact hc
  | token _ _ _ hc _ _ => exact hc

theorem FinishesAt.stopsAt (hstart : Starts piece req) {c : Nat}
    (h : FinishesAt req old run c) : req.StopsAt (old ++ run) c := by
  cases h with
  | length _ => exact ⟨hstart.maxNewTokens, .inl le_rfl⟩
  | stopStr _ hfind hpos _ hoccurs _ =>
    exact ⟨hpos, .inr (.inr ⟨_, mem_of_find?_eq_some hfind, hoccurs⟩)⟩
  | token _ _ hpos _ htoken _ => exact ⟨hpos, .inr (.inl htoken)⟩

theorem decode_take_mono (hstart : Starts piece req) {out : List Int} {s : List Char} {j k : Nat}
    (hle : j ≤ k) (h : s <:+: req.decode (out.take j)) : s <:+: req.decode (out.take k) := by
  rw [hstart.decode] at h ⊢
  exact infix_take_mono hle h

/-- The end is the first stop exactly where no check hides an earlier one. -/
theorem FinishesAt.firstStop_iff (hstart : Starts piece req) {c : Nat}
    (h : FinishesAt req old run c) : req.FirstStop (old ++ run) c ↔ req.EarliestWins old run := by
  constructor
  · rintro ⟨_, _, hfirst⟩
    cases h with
    | length hlen => exact ⟨fun _ => hfirst, fun hlt => absurd hlen (Nat.not_le.mpr hlt)⟩
    | stopStr hlt hfind hpos hc hoccurs hmin =>
      refine ⟨fun hle => absurd hlt (Nat.not_lt.mpr hle), fun _ s' hfind' k _ hstop => ?_⟩
      obtain rfl := Option.some.inj (hfind.symm.trans hfind')
      have hck : c ≤ k := by
        by_contra hlt'
        exact hfirst k (Nat.lt_of_not_le hlt') hstop
      exact decode_take_mono hstart hck hoccurs
    | token hlt hfind _ _ _ _ =>
      refine ⟨fun hle => absurd hlt (Nat.not_lt.mpr hle), fun _ s' hfind' => ?_⟩
      rw [hfind] at hfind'
      cases hfind'
  · rintro ⟨hlength, hstr⟩
    refine ⟨h.le_length, h.stopsAt hstart, fun j hj hstop => ?_⟩
    cases h with
    | length hlen => exact hlength hlen j hj hstop
    | stopStr hlt hfind hpos hc hoccurs hmin =>
      exact hmin j hstop.1 hj (hstr hlt _ hfind j (by omega) hstop)
    | token hlt hfind hpos hc htoken hmin =>
      obtain ⟨hpos', hmax | htok | ⟨s, hs, hoccurs⟩⟩ := hstop
      · omega
      · exact hmin j hpos' hj htok
      · have hnone := find?_eq_none.mp hfind s hs
        apply hnone
        have hall := decode_take_mono hstart (by omega : j ≤ (old ++ run).length) hoccurs
        rw [take_length] at hall
        exact decide_eq_true hall

theorem find?_congr {α : Type*} {p q : α → Bool} {xs : List α} (h : ∀ x ∈ xs, p x = q x) :
    xs.find? p = xs.find? q := by
  induction xs with
  | nil => rfl
  | cons x xs ih =>
    rw [find?_cons, find?_cons, h x (mem_cons_self ..),
      ih fun y hy => h y (mem_cons_of_mem _ hy)]

theorem lastIds_append (hrun : run ≠ []) : lastIds run.length (old ++ run) = run := by
  have hpos := length_pos_iff.mpr hrun
  rw [lastIds, if_neg (by omega), length_append, Nat.add_sub_cancel, drop_left]

theorem find?_zipIdx {p : Int → Bool} {xs : List Int} {t : Int} {i : Nat}
    (h : xs.zipIdx.find? (fun token => p token.1) = some (t, i)) :
    xs[i]? = some t ∧ p t = true ∧ ∀ j < i, ∀ u, xs[j]? = some u → p u = false := by
  obtain ⟨hp, k, hk, hget, hmin⟩ := find?_eq_some_iff_getElem.mp h
  rw [getElem_zipIdx, Nat.zero_add] at hget
  obtain ⟨hval, rfl⟩ := Prod.mk.inj hget
  rw [length_zipIdx] at hk
  refine ⟨List.getElem?_eq_some_iff.mpr ⟨hk, hval⟩, hp, fun j hj u hu => ?_⟩
  have hfalse := hmin j hj
  rw [getElem_zipIdx] at hfalse
  have hjlt : j < xs.length := by omega
  rw [getElem?_eq_getElem hjlt, Option.some.injEq] at hu
  rw [← hu]
  simpa using hfalse

theorem checkVocabBoundaryFinish_none (h : ∀ t ∈ run, 0 ≤ t ∧ t < req.vocabSize) (r : Req)
    (hr : r.vocabSize = req.vocabSize) : r.checkVocabBoundaryFinish run = none := by
  have hfind : run.zipIdx.find? (fun token =>
      decide ((r.vocabSize : Int) ≤ token.1 ∨ token.1 < 0)) = none := by
    rw [find?_eq_none]
    intro token htoken
    have hmem := h token.1 (fst_mem_of_mem_zipIdx htoken)
    rw [hr, decide_eq_true_eq]
    omega
  rw [Req.checkVocabBoundaryFinish, hfind]

theorem window_spec (hrun : run ≠ []) (r : Req) (hparams : r.samplingParams = req.samplingParams)
    (hids : r.outputIds = old ++ run) :
    ∃ start, start = (old ++ run).length - r.stopMatchTailLen run.length ∧ start ≤ old.length ∧
      (start + req.samplingParams.stopStrMaxLen ≤ old.length ∨ start = 0) ∧
      lastIds (r.stopMatchTailLen run.length) (old ++ run) = (old ++ run).drop start := by
  have hpos := length_pos_iff.mpr hrun
  have htail : r.stopMatchTailLen run.length = min (max (req.samplingParams.stopStrMaxLen + 1)
      (req.samplingParams.stopRegexMaxLen + 1) + (run.length - 1)) (old.length + run.length) := by
    rw [Req.stopMatchTailLen, hparams, hids, length_append]
  refine ⟨_, rfl, ?_, ?_, ?_⟩
  · rw [htail, length_append]
    omega
  · rw [htail, length_append]
    omega
  · rw [lastIds, if_neg]
    rw [htail]
    omega

theorem checkTokenBasedFinish_spec (hold : req.Unstopped old) (r : Req)
    (hparams : r.samplingParams = req.samplingParams) (heos : r.eosTokenIds = req.eosTokenIds)
    (hids : r.outputIds = old ++ run) (htok : r.tokenizer = req.tokenizer) :
    (r.checkTokenBasedFinish run = none ∧ ∀ k, 1 ≤ k → k ≤ (old ++ run).length →
      ¬ req.TokenStop (old ++ run) k) ∨ ∃ t c, r.checkTokenBasedFinish run =
          some { r with finishedReason := some (.matchedToken t), finishedLen := some c } ∧
        1 ≤ c ∧ c ≤ (old ++ run).length ∧ req.TokenStop (old ++ run) c ∧
        ∀ k, 1 ≤ k → k < c → ¬ req.TokenStop (old ++ run) k := by
  have hmatched (t : Int) : r.matchedEos t = req.matchedEos t := by
    rw [Req.matchedEos, Req.matchedEos, hparams, heos, htok]
  have hgetElem (j : Nat) (u : Int) (hj : old.length < j) :
      (old ++ run)[j - 1]? = some u ↔ run[j - 1 - old.length]? = some u := by
    rw [getElem?_append_right (by omega)]
  have hbefore (k : Nat) (hk : 1 ≤ k) (hkold : k ≤ old.length) : ¬ req.TokenStop (old ++ run) k :=
    fun h => hold k hkold ((stopsAt_append hkold).mp ⟨hk, .inr (.inl h)⟩)
  have hlen : (old ++ run).length = old.length + run.length := length_append
  by_cases hignore : req.samplingParams.ignoreEos = true
  · refine .inl ⟨?_, fun k _ _ htoken => ?_⟩
    · rw [checkTokenBasedFinish, hparams, if_pos hignore]
    · rw [htoken.1] at hignore
      exact Bool.false_ne_true hignore
  · have hcheck : ¬ r.samplingParams.ignoreEos = true := by rwa [hparams]
    cases hfind : run.zipIdx.find? (fun token => r.matchedEos token.1) with
    | none =>
      refine .inl ⟨?_, fun k hk _ htoken => ?_⟩
      · rw [checkTokenBasedFinish, if_neg hcheck, hfind]
      · rcases Nat.lt_or_ge old.length k with hkold | hkold
        · obtain ⟨_, t, ht, hmatch⟩ := htoken
          rw [hgetElem k t hkold] at ht
          apply find?_eq_none.mp hfind (t, k - 1 - old.length)
          · exact mem_zipIdx_iff_getElem?.mpr ht
          · exact (hmatched t).trans hmatch
        · exact hbefore k hk hkold htoken
    | some token =>
      obtain ⟨t, i⟩ := token
      obtain ⟨hi, hmatch, hfirst⟩ := find?_zipIdx hfind
      have hilt : i < run.length := (List.getElem?_eq_some_iff.mp hi).1
      refine .inr ⟨t, old.length + i + 1, ?_, by omega, by omega, ?_, ?_⟩
      · rw [checkTokenBasedFinish, if_neg hcheck, hfind]
        simp only [hids, hlen, Nat.add_sub_cancel]
      · refine ⟨Bool.eq_false_of_not_eq_true hignore, t, (hgetElem _ t (by omega)).mpr ?_, ?_⟩
        · have hidx : old.length + i + 1 - 1 - old.length = i := by omega
          rwa [hidx]
        · rw [← hmatched]
          exact hmatch
      · intro k hk hklt htoken
        rcases Nat.lt_or_ge old.length k with hkold | hkold
        · obtain ⟨_, u, hu, hmatch'⟩ := htoken
          rw [hgetElem k u hkold] at hu
          rw [← hmatched, hfirst (k - 1 - old.length) (by omega) u hu] at hmatch'
          exact Bool.false_ne_true hmatch'
        · exact hbefore k hk hkold htoken

section Window

variable (hstart : Starts piece req) {old run : List Int} (hold : req.Unstopped old)
  (hrun : run ≠ [])
  (hstream : Streams piece req (old ++ run))
include hstart hold hrun hstream

section

variable (r : Req) (hparams : r.samplingParams = req.samplingParams)
  (hids : r.outputIds = old ++ run) (htok : r.tokenizer = req.tokenizer)
include r hparams hids htok

theorem infix_tail_iff {s : List Char} (hs : s ∈ req.samplingParams.stopStrs) :
    s <:+: r.tailStr run.length ↔ s <:+: req.decode (old ++ run) := by
  obtain ⟨start, _, hle, hwindow, hlast⟩ := window_spec hrun r hparams hids
  have hdecode (ids : List Int) : r.decode ids = ids.flatMap piece := by
    rw [← hstart.decode, Req.decode, Req.decode, htok]
  have hne : ¬ (r.samplingParams.stopStrs.length = 0 ∧
      r.samplingParams.stopRegexStrs.length = 0) := by
    rintro ⟨hzero, _⟩
    rw [hparams, length_eq_zero_iff] at hzero
    rw [hzero] at hs
    exact not_mem_nil hs
  have hiff := infix_window_iff hstart hold hstream hs hwindow (le_refl (old ++ run).length)
  rw [take_length, take_of_length_le (by rw [length_drop])] at hiff
  rw [Req.tailStr, if_neg hne, hids, hlast, hdecode, hstart.decode]
  exact hiff

/-- The search for the end of a stop string that occurs finds its first occurrence. -/
theorem locateStrStopFinishedLen_spec {s : List Char}
    (hs : s ∈ req.samplingParams.stopStrs) (hoccurs : s <:+: req.decode (old ++ run)) :
    1 ≤ r.locateStrStopFinishedLen run.length (fun text => decide (s <:+: text)) ∧
      r.locateStrStopFinishedLen run.length (fun text => decide (s <:+: text)) ≤
        (old ++ run).length ∧
      s <:+: req.decode ((old ++ run).take
        (r.locateStrStopFinishedLen run.length fun text => decide (s <:+: text))) ∧
      ∀ k, 1 ≤ k → k < r.locateStrStopFinishedLen run.length (fun text => decide (s <:+: text)) →
        ¬ s <:+: req.decode ((old ++ run).take k) := by
  obtain ⟨start, hstartEq, hle, hwindow, _⟩ := window_spec hrun r hparams hids
  have hpos := length_pos_iff.mpr hrun
  have hdecode (ids : List Int) : r.decode ids = ids.flatMap piece := by
    rw [← hstart.decode, Req.decode, Req.decode, htok]
  have hlen : (old ++ run).length = old.length + run.length := length_append
  have hfirst : max 1 (((old ++ run).drop start).length - run.length + 1) =
      old.length - start + 1 := by
    rw [length_drop, hlen]
    omega
  -- the test of a prefix of the window
  have htest (tokenCount : Nat) (h : start + tokenCount ≤ (old ++ run).length) :
      s <:+: r.decode (((old ++ run).drop start).take tokenCount) ↔
        s <:+: req.decode ((old ++ run).take (start + tokenCount)) := by
    rw [hdecode, hstart.decode, ← infix_window_iff hstart hold hstream hs hwindow h,
      Nat.add_sub_cancel_left]
  -- no prefix that ends before the run shows the string
  have hbefore (k : Nat) (hk : 1 ≤ k) (hkold : k ≤ old.length) : ¬ s <:+: req.decode
      ((old ++ run).take k) := by
    intro h
    exact hold k hkold ((stopsAt_append hkold).mp ⟨hk, .inr (.inr ⟨s, hs, h⟩)⟩)
  obtain ⟨c, hc⟩ : ∃ c,
      r.locateStrStopFinishedLen run.length (fun text => decide (s <:+: text)) = c := ⟨_, rfl⟩
  rw [hc]
  simp only [Req.locateStrStopFinishedLen, hids, ← hstartEq, hfirst] at hc
  -- the prefixes that end in the run, up to `n`
  have hrange (n : Nat) (hn : n ≤ (old ++ run).length)
      (h : ∀ m, old.length - start + 1 ≤ m → start + m < n →
        ¬ s <:+: r.decode (((old ++ run).drop start).take m)) :
      ∀ k, 1 ≤ k → k < n → ¬ s <:+: req.decode ((old ++ run).take k) := by
    intro k hk hkn
    rcases Nat.lt_or_ge old.length k with hkold | hkold
    · obtain ⟨m, rfl⟩ := Nat.exists_eq_add_of_le (by omega : start ≤ k)
      rw [← htest m (by omega)]
      exact h m (by omega) hkn
    · exact hbefore k hk hkold
  split at hc
  · next tokenCount hfind =>
    rw [find?_range'_eq_some, mem_range'_1, length_drop, decide_eq_true_eq] at hfind
    obtain ⟨hp, ⟨hge, hlt⟩, hmin⟩ := hfind
    subst hc
    refine ⟨by omega, by omega, (htest _ (by omega)).mp hp, hrange _ (by omega) fun m hm hlt' => ?_⟩
    simpa using hmin m hm (by omega)
  · next hfind =>
    rw [find?_range'_eq_none, length_drop] at hfind
    subst hc
    refine ⟨by omega, le_rfl, by rwa [take_length], hrange _ le_rfl fun m hm hlt' => ?_⟩
    simpa using hfind m hm (by omega)

theorem checkStopStrs_spec (htext : r.decodedText = []) :
    (req.samplingParams.stopStrs.find? (fun s => s <:+: req.decode (old ++ run)) = none ∧
        r.checkStopStrs run.length = none) ∨
      ∃ s c, req.samplingParams.stopStrs.find? (fun s => s <:+: req.decode (old ++ run)) = some s ∧
        r.checkStopStrs run.length =
          some { r with finishedReason := some (.matchedStr s), finishedLen := some c } ∧
        1 ≤ c ∧ c ≤ (old ++ run).length ∧ s <:+: req.decode ((old ++ run).take c) ∧
        ∀ k, 1 ≤ k → k < c → ¬ s <:+: req.decode ((old ++ run).take k) := by
  have hfind : r.samplingParams.stopStrs.find?
      (fun s => decide (s <:+: r.tailStr run.length ∨ s <:+: r.decodedText)) =
      req.samplingParams.stopStrs.find? (fun s => decide (s <:+: req.decode (old ++ run))) := by
    rw [hparams]
    apply find?_congr
    intro s hs
    rw [decide_eq_decide, infix_tail_iff hstart hold hrun hstream r hparams hids htok hs, htext]
    refine ⟨fun h => h.elim id fun hnil => ?_, Or.inl⟩
    rw [infix_nil.mp hnil]
    exact nil_infix
  cases hs : req.samplingParams.stopStrs.find?
    (fun s => decide (s <:+: req.decode (old ++ run))) with
  | none =>
    refine .inl ⟨rfl, ?_⟩
    simp only [Req.checkStopStrs, hfind, hs]
  | some s =>
    have hmem := mem_of_find?_eq_some hs
    have hoccurs : s <:+: req.decode (old ++ run) := by
      have hp := find?_some hs
      exact of_decide_eq_true hp
    have htail := (infix_tail_iff hstart hold hrun hstream r hparams hids htok hmem).mpr hoccurs
    have hlocate := locateStrStopFinishedLen_spec hstart hold hrun hstream
      { r with finishedReason := some (.matchedStr s) } hparams hids htok hmem hoccurs
    refine .inr ⟨s, _, rfl, ?_, hlocate⟩
    simp only [Req.checkStopStrs, hfind, hs, if_pos htail]

end

theorem acceptRun_spec (reSearch : List Char → List Char → Bool) :
    ∃ after, acceptRun reSearch { req with outputIds := old } run = after ∧
    after.outputIds = old ++ run ∧
    ((∃ c, after.finished = true ∧ after.finishedLen = some c ∧ FinishesAt req old run c) ∨
        (after = { req with outputIds := old ++ run } ∧ req.Unstopped (old ++ run))) := by
  have haccept : acceptRun reSearch { req with outputIds := old } run =
      updateFinishState reSearch { req with outputIds := old ++ run } run.length := by
    rw [acceptRun, Req.finished, hstart.unfinished]
    rfl
  rw [haccept]
  obtain ⟨r, hr⟩ : ∃ r, ({ req with outputIds := old ++ run } : Req) = r := ⟨_, rfl⟩
  have hparams : r.samplingParams = req.samplingParams := by rw [← hr]
  have hids : r.outputIds = old ++ run := by rw [← hr]
  have htok : r.tokenizer = req.tokenizer := by rw [← hr]
  have hunfinished : r.finished = false := by
    rw [← hr, Req.finished, hstart.unfinished, isSome_none]
  have htoFinish : r.toFinish = none := by rw [← hr, hstart.toFinish]
  have hgrammar : ¬ r.grammar = some true := by
    rw [← hr, hstart.grammar]
    simp
  have htext : r.decodedText = [] := by rw [← hr, hstart.decodedText]
  have heos : r.eosTokenIds = req.eosTokenIds := by rw [← hr]
  have hvocab : r.checkVocabBoundaryFinish run = none :=
    checkVocabBoundaryFinish_none (fun t ht => hstream.inVocab t (mem_append_right old ht)) r
      (by rw [← hr])
  rw [hr]
  have hnew : lastIds run.length r.outputIds = run := by
    rw [hids]
    exact lastIds_append hrun
  refine ⟨_, rfl, ?_⟩
  rw [updateFinishState, hunfinished, if_neg Bool.false_ne_true]
  -- `update_finish_state` checks the length first, then strings, then tokens
  by_cases hmax : r.samplingParams.maxNewTokens ≤ r.outputIds.length
  · simp only [htoFinish, if_pos hmax]
    refine ⟨hids, .inl ⟨_, rfl, rfl, ?_⟩⟩
    rw [hparams, hids] at hmax
    rw [hparams]
    exact .length hmax
  · simp only [htoFinish, if_neg hmax, if_neg hgrammar, hnew, hvocab]
    rw [hparams, hids] at hmax
    have hlt := Nat.lt_of_not_le hmax
    rcases checkStopStrs_spec hstart hold hrun hstream r hparams hids htok htext with
      ⟨hnone, hcheck⟩ | ⟨s, c, hsome, hcheck, hpos, hc, hoccurs, hmin⟩
    · have hregex : r.checkStopRegexStrs reSearch run.length = none := by
        rw [Req.checkStopRegexStrs, hparams, hstart.stopRegexStrs, find?_nil]
      simp only [checkStrBasedFinish, hcheck, hregex]
      rcases checkTokenBasedFinish_spec hold r hparams heos hids htok with
        ⟨htokens, hunstopped⟩ | ⟨t, c, htokens, hpos, hc, htoken, hmin⟩
      · rw [htokens]
        refine ⟨hids, .inr ⟨rfl, ?_⟩⟩
        rintro k hk ⟨hpos, hmax' | htoken | ⟨s, hs, hoccurs⟩⟩
        · exact hmax (hmax'.trans hk)
        · exact hunstopped k hpos hk htoken
        · apply find?_eq_none.mp hnone s hs
          have hall := decode_take_mono hstart hk hoccurs
          rw [take_length] at hall
          exact decide_eq_true hall
      · rw [htokens]
        exact ⟨hids, .inl ⟨c, rfl, rfl, .token hlt hnone hpos hc htoken hmin⟩⟩
    · simp only [checkStrBasedFinish, hcheck]
      exact ⟨hids, .inl ⟨c, rfl, rfl, .stopStr hlt hsome hpos hc hoccurs hmin⟩⟩

end Window

/-! ## Section 4: Runs -/

theorem Req.FirstStop.append {out rest : List Int} {k : Nat} (h : req.FirstStop out k) :
    req.FirstStop (out ++ rest) k := by
  obtain ⟨hk, hstop, hfirst⟩ := h
  refine ⟨?_, (stopsAt_append hk).mpr hstop, fun j hj hstop' =>
    hfirst j hj ((stopsAt_append (by omega)).mp hstop')⟩
  rw [length_append]
  omega

theorem Req.FirstStop.unique {out : List Int} {j k : Nat} (hj : req.FirstStop out j)
    (hk : req.FirstStop out k) :
    j = k := by
  rcases Nat.lt_trichotomy j k with hlt | heq | hlt
  · exact absurd hj.2.1 (hk.2.2 j hlt)
  · exact heq
  · exact absurd hk.2.1 (hj.2.2 k hlt)

theorem exists_firstStop {out : List Int} (h : ¬ req.Unstopped out) : ∃ k, req.FirstStop out k := by
  classical
  have hex : ∃ k, req.StopsAt out k ∧ k ≤ out.length := by
    by_contra hnone
    exact h fun k hk hstop => hnone ⟨k, hstop, hk⟩
  refine ⟨Nat.find hex, (Nat.find_spec hex).2, (Nat.find_spec hex).1, fun j hj hstop => ?_⟩
  exact Nat.find_min hex hj ⟨hstop, (Nat.le_of_lt hj).trans (Nat.find_spec hex).2⟩

/-- After every run the request is finished exactly if its output has a stop, and at the first
one. -/
def StopsRight (reSearch : List Char → List Char → Bool) (req : Req) (runs : List (List Int)) :
    Prop :=
  ∀ n ≤ runs.length,
    (req.Unstopped (runs.take n).flatten → (req.feed reSearch (runs.take n)).finished = false) ∧
      ∀ k, req.FirstStop (runs.take n).flatten k →
        (req.feed reSearch (runs.take n)).finished = true ∧
          (req.feed reSearch (runs.take n)).outputIdsThroughStop = (runs.take n).flatten.take k

section Runs

variable (hstart : Starts piece req) {runs : List (List Int)} (hruns : ∀ run ∈ runs, run ≠ [])
  (hstream : Streams piece req runs.flatten) (reSearch : List Char → List Char → Bool)

theorem feed_concat (reSearch : List Char → List Char → Bool) (req : Req) (runs : List (List Int))
    {n : Nat} (hn : n < runs.length) : req.feed reSearch (runs.take (n + 1)) =
      acceptRun reSearch (req.feed reSearch (runs.take n)) runs[n] := by
  rw [← take_append_getElem hn, Req.feed, foldl_append]
  rfl

theorem flatten_take_succ {n : Nat} (hn : n < runs.length) :
    (runs.take (n + 1)).flatten = (runs.take n).flatten ++ runs[n] := by
  rw [← take_append_getElem hn, flatten_append, flatten_singleton]

include hstart hruns hstream

theorem acceptRun_take {n : Nat} (hn : n < runs.length)
    (hold : req.Unstopped (runs.take n).flatten) :
    ∃ after, acceptRun reSearch { req with outputIds := (runs.take n).flatten } runs[n] = after ∧
      after.outputIds = (runs.take (n + 1)).flatten ∧
      ((∃ c, after.finished = true ∧ after.finishedLen = some c ∧
          FinishesAt req (runs.take n).flatten runs[n] c) ∨
        (after = { req with outputIds := (runs.take (n + 1)).flatten } ∧
          req.Unstopped (runs.take (n + 1)).flatten)) := by
  have hpart : Streams piece req ((runs.take n).flatten ++ runs[n]) := by
    rw [← flatten_take_succ hn]
    rw [← take_append_drop (n + 1) runs, flatten_append] at hstream
    exact hstream.of_append
  have hspec := acceptRun_spec hstart hold (hruns _ (getElem_mem hn)) hpart reSearch
  rwa [← flatten_take_succ hn] at hspec

theorem feed_unstopped {n : Nat} (hn : n ≤ runs.length) (h : req.Unstopped (runs.take n).flatten) :
    req.feed reSearch (runs.take n) = { req with outputIds := (runs.take n).flatten } := by
  induction n with
  | zero =>
    rw [take_zero, flatten_nil, ← hstart.outputIds]
    rfl
  | succ n ih =>
    have hold : req.Unstopped (runs.take n).flatten := by
      rw [flatten_take_succ hn] at h
      exact h.of_append
    rw [feed_concat reSearch req runs hn, ih (Nat.le_of_succ_le hn) hold]
    obtain ⟨after, hafter, _, hcases⟩ := acceptRun_take hstart hruns hstream reSearch hn hold
    rw [hafter]
    rcases hcases with ⟨c, _, _, hends⟩ | ⟨heq, _⟩
    · rw [flatten_take_succ hn] at h
      exact absurd (hends.stopsAt hstart) (h c hends.le_length)
    · exact heq

/-- Where the earliest stop of each run wins, a stopped request has the first stop. -/
theorem feed_firstStop
    (hwins : ∀ (n : Nat) (hn : n < runs.length), req.Unstopped (runs.take n).flatten →
    req.EarliestWins (runs.take n).flatten runs[n]) {n : Nat} (hn : n ≤ runs.length) :
    ∀ {k : Nat}, req.FirstStop (runs.take n).flatten k →
      (req.feed reSearch (runs.take n)).finished = true ∧
        (req.feed reSearch (runs.take n)).outputIdsThroughStop = (runs.take n).flatten.take k := by
  induction n with
  | zero =>
    intro k hk
    have hzero : k = 0 := Nat.le_zero.mp hk.1
    have hpos := hk.2.1.1
    omega
  | succ n ih =>
    intro k hk
    rw [feed_concat reSearch req runs hn]
    by_cases hold : req.Unstopped (runs.take n).flatten
    · -- the stop is in the last run
      rw [feed_unstopped hstart hruns hstream reSearch (Nat.le_of_succ_le hn) hold]
      obtain ⟨after, hafter, hids, hcases⟩ := acceptRun_take hstart hruns hstream reSearch hn hold
      rw [hafter]
      rcases hcases with ⟨c, hfinished, hlen, hends⟩ | ⟨_, hunstopped⟩
      · have hfirst := (hends.firstStop_iff hstart).mpr (hwins n hn hold)
        rw [← flatten_take_succ hn] at hfirst
        obtain rfl := hfirst.unique hk
        refine ⟨hfinished, ?_⟩
        rw [Req.outputIdsThroughStop, hlen, hids]
      · exact absurd hk.2.1 (hunstopped k hk.1)
    · -- it is in an earlier one, and nothing is accepted any more
      obtain ⟨j, hj⟩ := exists_firstStop hold
      obtain ⟨hfinished, hids⟩ := ih (Nat.le_of_succ_le hn) hj
      have hsame : acceptRun reSearch (req.feed reSearch (runs.take n)) runs[n] =
          req.feed reSearch (runs.take n) := by rw [acceptRun, if_pos hfinished]
      rw [hsame]
      refine ⟨hfinished, ?_⟩
      have hjk : j = k := by
        have hfirst : req.FirstStop (runs.take (n + 1)).flatten j := by
          rw [flatten_take_succ hn]
          exact hj.append
        exact hfirst.unique hk
      rw [hids, hjk, flatten_take_succ hn, take_append_of_le_length (hjk ▸ hj.1)]

/-- The request stops at the first stop, however its output is cut into accepted runs, exactly if no
run hides an earlier stop. -/
theorem stopsRight_iff : StopsRight reSearch req runs ↔
    ∀ (n : Nat) (hn : n < runs.length), req.Unstopped (runs.take n).flatten →
      req.EarliestWins (runs.take n).flatten runs[n] := by
  constructor
  · intro hright n hn hold
    obtain ⟨after, hafter, hids, hcases⟩ := acceptRun_take hstart hruns hstream reSearch hn hold
    rw [← feed_unstopped hstart hruns hstream reSearch (Nat.le_of_lt hn) hold,
      ← feed_concat reSearch req runs hn]
      at hafter
    rcases hcases with ⟨c, _, hlen, hends⟩ | ⟨_, hunstopped⟩
    · apply (hends.firstStop_iff hstart).mp
      have hstopped : ¬ req.Unstopped (runs.take (n + 1)).flatten := by
        intro h
        rw [flatten_take_succ hn] at h
        exact h c hends.le_length (hends.stopsAt hstart)
      obtain ⟨k, hk⟩ := exists_firstStop hstopped
      -- both prefixes are what the request keeps
      have hkept := ((hright (n + 1) hn).2 k hk).2
      rw [hafter, Req.outputIdsThroughStop, hlen, hids] at hkept
      have hck : c = k := by
        have hc := hends.le_length
        rw [← flatten_take_succ hn] at hc
        have hlength := congrArg List.length hkept
        rw [length_take, length_take, Nat.min_eq_left hc, Nat.min_eq_left hk.1] at hlength
        exact hlength
      rw [hck, ← flatten_take_succ hn]
      exact hk
    · rw [flatten_take_succ hn] at hunstopped
      exact ⟨fun hle k hk => hunstopped k (by omega), fun _ s _ k hk hstop =>
        absurd hstop (hunstopped k hk)⟩
  · intro hwins n hn
    refine ⟨fun h => ?_, fun k hk => feed_firstStop hstart hruns hstream reSearch hwins hn hk⟩
    rw [feed_unstopped hstart hruns hstream reSearch hn h, Req.finished, hstart.unfinished,
      isSome_none]

end Runs

end Steps

/-! ## Section 5: A stop that a run hides -/

/-- At most three tokens, of which token 2 ends the request. -/
def sampleReq : Req where
  samplingParams := ⟨3, false, [], [], [], 0, 0⟩
  eosTokenIds := [2]
  tokenizer := some ⟨fun ids => ids.flatMap fun _ => ['a'], none, []⟩
  vocabSize := 10
  grammar := none
  decodedText := []
  outputIds := []
  finishedReason := none
  finishedLen := none
  toFinish := none

theorem sampleReq_starts : Starts (fun _ => ['a']) sampleReq :=
  ⟨fun _ => rfl, rfl, rfl, rfl, rfl, rfl, rfl, rfl, by decide⟩

def letterOf (t : Int) : List Char := if t = 5 then ['a'] else if t = 7 then ['b'] else ['c']

/-- At most six tokens, and a stop at the text `ab`. -/
def stopStrReq : Req where
  samplingParams := ⟨6, false, [], [['a', 'b']], [], 2, 0⟩
  eosTokenIds := [2]
  tokenizer := some ⟨fun ids => ids.flatMap letterOf, none, []⟩
  vocabSize := 10
  grammar := none
  decodedText := []
  outputIds := []
  finishedReason := none
  finishedLen := none
  toFinish := none

theorem letterOf_length (t : Int) : (letterOf t).length = 1 := by
  unfold letterOf
  split_ifs
  · rfl
  · rfl
  · rfl

theorem stopStrReq_streams {out : List Int} (hvocab : ∀ t ∈ out, 0 ≤ t ∧ t < 10) :
    Streams letterOf stopStrReq out := by
  refine ⟨hvocab, fun s hs i j hspans => ?_⟩
  rw [show s = ['a', 'b'] from mem_singleton.mp hs] at hspans
  obtain ⟨first, last, pre, suf, hij, _, hlast, htext, hpre, hsuf⟩ := hspans
  rw [letterOf_length] at hpre hsuf
  have hj : j - 1 < out.length := (List.getElem?_eq_some_iff.mp hlast).1
  have hcount : ∀ ids : List Int, (ids.flatMap letterOf).length = ids.length := by
    intro ids
    simp [length_flatMap, letterOf_length]
  have hlength := congrArg List.length htext
  simp only [hcount, length_drop, length_take, length_append, length_cons,
    length_nil] at hlength
  rw [show stopStrReq.samplingParams.stopStrMaxLen = 2 from rfl]
  omega

/-- Three runs of two tokens, the stop string across the first two. -/
theorem stopsRight_sample : StopsRight (fun _ _ => false) stopStrReq [[6, 5], [7, 6], [5, 7]] ↔
    ∀ (n : Nat) (hn : n < [[6, 5], [7, 6], [5, 7]].length),
      stopStrReq.Unstopped ([[6, 5], [7, 6], [5, 7]].take n).flatten →
        stopStrReq.EarliestWins ([[6, 5], [7, 6], [5, 7]].take n).flatten
        ([[6, 5], [7, 6], [5, 7]][n]) :=
  @stopsRight_iff letterOf stopStrReq ⟨fun _ => rfl, rfl, rfl, rfl, rfl, rfl, rfl, rfl, by decide⟩ _
    (by decide)
    (stopStrReq_streams (by decide)) fun _ _ => false

/-- The EOS token comes first, but the run also reaches the limit. -/
theorem not_stopsRight : ∃ (piece : Int → List Char) (req : Req) (runs : List (List Int)),
    Starts piece req ∧
    (∀ run ∈ runs, run ≠ []) ∧ Streams piece req runs.flatten ∧
    ¬ StopsRight (fun _ _ => false) req runs := by
  refine ⟨_, sampleReq, [[2, 5, 6]], sampleReq_starts, by decide,
    ⟨by decide, fun _ hs => absurd hs not_mem_nil⟩, fun hright => ?_⟩
  have hfirst : sampleReq.FirstStop [2, 5, 6] 1 := by
    refine ⟨by decide, ⟨le_rfl, .inr (.inl ⟨rfl, 2, rfl, by decide⟩)⟩, fun j hj hstop => ?_⟩
    exact absurd hstop.1 (Nat.not_le.mpr hj)
  have hkept := ((hright 1 le_rfl).2 1 hfirst).2
  have hids : (sampleReq.feed (fun _ _ => false) [[2, 5, 6]]).outputIdsThroughStop = [2, 5, 6] := by
    decide
  have hlength := congrArg List.length (hids.symm.trans hkept)
  exact absurd hlength (by decide)

end Sglang.Managers
