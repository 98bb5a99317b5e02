import Sglang.FunctionCall.Qwen3Coder

/-!
# Streaming of Qwen3 Coder

What the cursor decides with a part of the text stays right with more of it. Each tag starts with
`<` and has no other one, so a tag that is visible is not part of a longer one, and no earlier end
of a value comes up later. Plain text is the one exception: a segment may go on in the next chunk,
but then both pieces are put out.

- `bestCand_append`: the end of a value that was found stays the first,
- `loop_text`: text can be put aside,
- `cursor_online`: the steps of the cursor are final,
- `stream_of_loop`: where nothing raises, the calls on the chunks give what one call gives.
-/

namespace Sglang.FunctionCall.Qwen3Coder

open List Option
open Lib

/-! ## Section 1: Tags -/

theorem not_prefix_of_isPrefix {p q s : List Char} (h : p <+: s) (hpq : ¬ p <+: q)
    (hqp : ¬ q <+: p) :
    ¬ q <+: s := by
  intro hq
  rcases prefix_or_prefix_of_prefix h hq with hp | hq
  · exact hpq hp
  · exact hqp hq

theorem prefix_append_right {p s : List Char} (h : p <+: s) (t : List Char) : p <+: s ++ t :=
  h.trans (prefix_append s t)

theorem not_prefix_append {p s : List Char} (h : ¬ p <+: s) (h' : ¬ s <+: p) (t : List Char) :
    ¬ p <+: s ++ t := by
  intro hp
  rcases prefix_or_prefix_of_prefix hp (prefix_append s t) with hps | hsp
  · exact h hps
  · exact h' hsp

theorem find_append {p s : List Char} {i : Nat} (h : find p s = some i) (t : List Char) :
    find p (s ++ t) = some i := by
  rw [find_eq_cut] at h
  obtain ⟨⟨a, b⟩, hcut, rfl⟩ := map_eq_some_iff.mp h
  exact find_of_cut (cut_append hcut t)

theorem find_append_later {p q s : List Char} {i j : Nat} (hp : find p s = some i)
    (hq : find q s = none) (hoccurs : ¬ p <:+: q) {t : List Char}
    (hlater : find q (s ++ t) = some j) :
    i < j := by
  rw [find_eq_cut] at hp hq hlater
  obtain ⟨⟨a, b⟩, hcut, rfl⟩ := map_eq_some_iff.mp hp
  obtain ⟨⟨a', b'⟩, hcut', rfl⟩ := map_eq_some_iff.mp hlater
  exact cut_append_later hcut (map_eq_none_iff.mp hq) hoccurs hcut'

/-! ## Section 2: Ends of values -/

/-- What ends a value, and how much of it the cursor takes. -/
def valueEnds : List (List Char × Nat) :=
  [(parameterEndToken, parameterEndToken.length), (parameterPrefix, 0), (functionEndToken, 0)]

theorem valueEnds_apart : ∀ e ∈ valueEnds, ∀ e' ∈ valueEnds, e.1 <:+: e'.1 → e = e' := by decide

theorem minByPosition_le {candidates : List (Nat × Nat)} {best : Nat × Nat}
    (h : minByPosition candidates = some best) : ∀ c ∈ candidates, best.1 ≤ c.1 := by
  have hfold : ∀ (cs : List (Nat × Nat)) (b : Option (Nat × Nat)),
      cs.foldl closer b = some best →
      (∀ c ∈ cs, best.1 ≤ c.1) ∧ ∀ c, b = some c → best.1 ≤ c.1 := by
    intro cs
    induction cs with
    | nil =>
      intro b hb
      refine ⟨by simp, fun c hc => ?_⟩
      rw [foldl_nil, hc, Option.some.injEq] at hb
      exact hb ▸ le_rfl
    | cons c cs ih =>
      intro b hb
      obtain ⟨hcs, hnext⟩ := ih _ hb
      cases b with
      | none =>
        have hc := hnext c rfl
        exact ⟨by simpa using ⟨hc, fun a b hab => hcs (a, b) hab⟩, by simp⟩
      | some b =>
        have hboth : best.1 ≤ c.1 ∧ best.1 ≤ b.1 := by
          dsimp only [closer] at hnext
          split at hnext
          · have := hnext c rfl
            omega
          · have := hnext b rfl
            omega
        exact ⟨by simpa using ⟨hboth.1, fun a b hab => hcs (a, b) hab⟩, by simpa using hboth.2⟩
  exact (hfold candidates none h).1

theorem minByPosition_ne_none {candidates : List (Nat × Nat)} (h : candidates ≠ []) :
    minByPosition candidates ≠ none := by
  have hfold : ∀ (cs : List (Nat × Nat)) (b : Nat × Nat),
      cs.foldl closer (some b) ≠ none := by
    intro cs
    induction cs with
    | nil => exact fun b => some_ne_none b
    | cons c cs ih =>
      intro b
      rw [foldl_cons]
      dsimp only [closer]
      split
      · exact ih c
      · exact ih b
  obtain ⟨c, cs, rfl⟩ := exists_cons_of_ne_nil h
  exact hfold cs c

theorem minByPosition_of_first {candidates : List (Nat × Nat)} {best : Nat × Nat}
    (hmem : best ∈ candidates) (hfirst : ∀ c ∈ candidates, c ≠ best → best.1 < c.1) :
    minByPosition candidates = some best := by
  cases hmin : minByPosition candidates with
  | none => exact absurd hmin (minByPosition_ne_none (ne_nil_of_mem hmem))
  | some c =>
    by_cases heq : c = best
    · rw [heq]
    · have := hfirst c (minByPosition_mem hmin) heq
      have := minByPosition_le hmin best hmem
      omega

/-- The candidates for the end of a value. -/
def candidates (rest : List Char) : List (Nat × Nat) :=
  valueEnds.flatMap fun e => ((find e.1 rest).map fun i => (i, e.2)).toList

theorem bestCand_eq (rest : List Char) : bestCand rest = minByPosition (candidates rest) := by
  simp [bestCand, candidates, valueEnds]

theorem mem_candidates {rest : List Char} {c : Nat × Nat} :
    c ∈ candidates rest ↔ ∃ e ∈ valueEnds, find e.1 rest = some c.1 ∧ c.2 = e.2 := by
  simp only [candidates, mem_flatMap, mem_toList, map_eq_some_iff]
  constructor
  · rintro ⟨e, he, i, hi, rfl⟩
    exact ⟨e, he, hi, rfl⟩
  · rintro ⟨e, he, hi, hc⟩
    exact ⟨e, he, c.1, hi, by rw [← hc]⟩

theorem find_isPrefix {p t : List Char} {i : Nat} (h : find p t = some i) : p <+: t.drop i := by
  rw [find_eq_cut] at h
  obtain ⟨⟨a, b⟩, hcut, rfl⟩ := map_eq_some_iff.mp h
  rw [(drop_cut hcut).2.1]
  exact prefix_append p b

theorem valueEnds_unique {rest : List Char} {e e' : List Char × Nat} (he : e ∈ valueEnds)
    (he' : e' ∈ valueEnds) {i : Nat} (hi : find e.1 rest = some i) (hi' : find e'.1 rest = some i) :
    e = e' := by
  rcases prefix_or_prefix_of_prefix (find_isPrefix hi) (find_isPrefix hi') with h | h
  · exact valueEnds_apart e he e' he' h.isInfix
  · exact (valueEnds_apart e' he' e he h.isInfix).symm

theorem bestCand_append {rest : List Char} {best : Nat × Nat} (h : bestCand rest = some best)
    (t : List Char) : bestCand (rest ++ t) = some best := by
  rw [bestCand_eq] at h ⊢
  obtain ⟨e, he, hi, hlen⟩ := mem_candidates.mp (minByPosition_mem h)
  apply minByPosition_of_first
  · exact mem_candidates.mpr ⟨e, he, find_append hi t, hlen⟩
  · intro c hc hne
    obtain ⟨e', he', hi', hlen'⟩ := mem_candidates.mp hc
    cases hold : find e'.1 rest with
    | none =>
      -- it was not there, so it comes later
      refine find_append_later hi hold (fun hoccurs => ?_) hi'
      rw [valueEnds_apart e he e' he' hoccurs, hold] at hi
      cases hi
    | some j =>
      obtain rfl : j = c.1 := Option.some.inj ((find_append hold t).symm.trans hi')
      have hle := minByPosition_le h c (mem_candidates.mpr ⟨e', he', hold, hlen'⟩)
      refine Nat.lt_of_le_of_ne hle fun heq => hne ?_
      rw [← heq] at hold
      have hsame := valueEnds_unique he he' hi hold
      rw [← hsame, ← hlen] at hlen'
      exact Prod.ext heq.symm hlen'

/-! ## Section 3: Steps with more text -/

section Steps

variable {V : Type} {lib : PyLib V} {tools : Option (List Tool)} {st next : State}
  {s : List Char} {out : StreamingParseResult} {n : Nat}

/-- The tags that the cursor takes, in the order in which it looks for them. -/
def takenTags : List (List Char) :=
  [toolCallStartToken, toolCallPrefix, parameterPrefix, functionEndToken, toolCallEndToken]

theorem takenTags_possible : ∀ q ∈ takenTags, q ∈ possibleTags := by decide

theorem takenTags_apart : ∀ p ∈ takenTags, ∀ q ∈ takenTags, p <+: q → p = q := by decide

theorem takenTags_unique {p q : List Char} (hp : p ∈ takenTags) (hq : q ∈ takenTags)
    (h : p <+: s) (hne : q ≠ p) : ¬ q <+: s := by
  apply not_prefix_of_isPrefix h
  · exact fun hpq => hne (takenTags_apart p hp q hq hpq).symm
  · exact fun hqp => hne (takenTags_apart q hq p hp hqp)

theorem ne_nil_of_tag {q : List Char} (hq : q ∈ takenTags) (h : q <+: s) : s ≠ [] := by
  rintro rfl
  rw [prefix_nil.mp h] at hq
  exact absurd hq (by decide)

theorem step_toolCallStart (h : toolCallStartToken <+: s) :
    step lib tools st s = .go 0 { st with isInsideToolCall := true } toolCallStartToken.length := by
  rw [step, if_neg (ne_nil_of_tag (by decide) h), if_pos h]

theorem step_function (h : toolCallPrefix <+: s) : step lib tools st s = functionStep st s := by
  have hnot : ∀ q ∈ takenTags, q ≠ toolCallPrefix → ¬ q <+: s :=
    fun q hq => takenTags_unique (by decide) hq h
  rw [step, if_neg (ne_nil_of_tag (by decide) h), if_neg (hnot _ (by decide) (by decide)), if_pos h]

theorem step_parameter (h : parameterPrefix <+: s) :
    step lib tools st s = parameterStep lib tools st s := by
  have hnot : ∀ q ∈ takenTags, q ≠ parameterPrefix → ¬ q <+: s :=
    fun q hq => takenTags_unique (by decide) hq h
  rw [step, if_neg (ne_nil_of_tag (by decide) h), if_neg (hnot _ (by decide) (by decide)),
    if_neg (hnot _ (by decide) (by decide)), if_pos h]

theorem step_functionEnd (h : functionEndToken <+: s) :
    step lib tools st s = .go ⟨[], st.opening ++ [st.item "\x7d".toList]⟩
      { st with jsonStarted := true, currentFuncName := none } functionEndToken.length := by
  have hnot : ∀ q ∈ takenTags, q ≠ functionEndToken → ¬ q <+: s :=
    fun q hq => takenTags_unique (by decide) hq h
  rw [step, if_neg (ne_nil_of_tag (by decide) h), if_neg (hnot _ (by decide) (by decide)),
    if_neg (hnot _ (by decide) (by decide)), if_neg (hnot _ (by decide) (by decide)), if_pos h]

theorem step_toolCallEnd (h : toolCallEndToken <+: s) :
    step lib tools st s = .go 0 { st with isInsideToolCall := false } toolCallEndToken.length := by
  have hnot : ∀ q ∈ takenTags, q ≠ toolCallEndToken → ¬ q <+: s :=
    fun q hq => takenTags_unique (by decide) hq h
  rw [step, if_neg (ne_nil_of_tag (by decide) h), if_neg (hnot _ (by decide) (by decide)),
    if_neg (hnot _ (by decide) (by decide)), if_neg (hnot _ (by decide) (by decide)),
    if_neg (hnot _ (by decide) (by decide)), if_pos h]

theorem step_other (hne : s ≠ []) (h : ∀ q ∈ takenTags, ¬ q <+: s) :
    step lib tools st s = textStep st s := by
  rw [step, if_neg hne, if_neg (h _ (by decide)), if_neg (h _ (by decide)),
    if_neg (h _ (by decide)), if_neg (h _ (by decide)), if_neg (h _ (by decide))]

theorem takenTags_angle : ∀ q ∈ takenTags, q.head? = some '<' := by decide

theorem not_tag_of_head {c : Char} (hc : c ≠ '<') : ∀ q ∈ takenTags, ¬ q <+: c :: s := by
  intro q hq hpre
  have hhead := takenTags_angle q hq
  obtain ⟨d, q, rfl⟩ : ∃ d q', q = d :: q' := by
    cases q with
    | nil => cases hhead
    | cons d q => exact ⟨d, q, rfl⟩
  rw [head?_cons, Option.some.injEq] at hhead
  obtain ⟨r, hr⟩ := hpre
  rw [cons_append, List.cons.injEq] at hr
  exact hc (hr.1.symm.trans hhead)

variable (lib tools st) in
theorem step_text {e : List Char} (hne : e ≠ []) (he : '<' ∉ e) {t : List Char}
    (ht : t = [] ∨ t.head? = some '<') :
    step lib tools st (e ++ t) = .go (st.text e) st e.length := by
  obtain ⟨c, e, rfl⟩ := exists_cons_of_ne_nil hne
  have hc : c ≠ '<' := fun h => he (h ▸ mem_cons_self ..)
  rw [step_other (by simp) (by rw [cons_append]; exact not_tag_of_head hc), textStep]
  have hcut : ∀ z, cut "<".toList (c :: e ++ z) =
      (cut "<".toList z).map fun r => (c :: e ++ r.1, r.2) := by
    intro z
    apply cut_append_left
    rintro h₁ h₂ hsplit hne' ⟨r, hr⟩
    obtain ⟨d, h₂, rfl⟩ := exists_cons_of_ne_nil hne'
    have hd : d = '<' := (List.cons.inj hr).1.symm
    exact he (by rw [hsplit, hd]; simp)
  rcases ht with rfl | ht
  · have hfind : find "<".toList (c :: e ++ []) = none := by
      rw [find_eq_cut, hcut]
      rfl
    rw [hfind, append_nil]
  · obtain ⟨d, t, rfl⟩ : ∃ d t', t = d :: t' := by
      cases t with
      | nil => cases ht
      | cons d t => exact ⟨d, t, rfl⟩
    rw [head?_cons, Option.some.injEq] at ht
    subst ht
    have hfind : find "<".toList (c :: e ++ '<' :: t) = some (e.length + 1) := by
      rw [find_eq_cut, hcut]
      simp [cut]
    rw [hfind]
    have htake : (c :: e ++ '<' :: t).take (e.length + 1) = c :: e := by
      rw [show e.length + 1 = (c :: e).length from rfl, take_left]
    simp only [htake, length_cons]

theorem loop_text {e : List Char} (he : '<' ∉ e) (t : List Char) :
    (cursor lib tools).loop st (e ++ t) =
      ((cursor lib tools).loop st t).prepend (st.text e) := by
  have htext : ∀ e' : List Char, st.text e + st.text e' = st.text (e ++ e') := by
    intro e'
    simp only [State.text, StreamingParseResult.add_def, append_nil]
    split <;> rfl
  by_cases hnil : e = []
  · subst hnil
    have hzero : st.text [] = 0 := by
      simp [State.text]
    rw [hzero, Stop.prepend_zero, nil_append]
  -- the segment goes on to the next `<`, or to the end
  obtain ⟨e', t', rfl, he', ht'⟩ : ∃ e' t', t = e' ++ t' ∧ '<' ∉ e' ∧
      (t' = [] ∨ t'.head? = some '<') := by
    refine ⟨t.takeWhile (· ≠ '<'), t.dropWhile (· ≠ '<'), (takeWhile_append_dropWhile).symm,
      ?_, ?_⟩
    · intro hin
      have := List.all_eq_true.mp all_takeWhile '<' hin
      simp at this
    · cases hdrop : t.dropWhile (· ≠ '<') with
      | nil => exact .inl rfl
      | cons d t' =>
        right
        have := head_dropWhile_not (· ≠ '<') (l := t) (by rw [hdrop]; simp)
        simp only [hdrop, head_cons] at this
        simpa using this
  have hboth := Cursor.loop_go (c := cursor lib tools)
    (step_text lib tools st (by simp [hnil] : e ++ e' ≠ []) (by simp [he, he']) ht')
  rw [drop_left] at hboth
  rw [← append_assoc, hboth, ← htext]
  by_cases hnil' : e' = []
  · subst hnil'
    have hzero : st.text [] = 0 := by
      simp [State.text]
    rw [hzero, add_zero, nil_append]
  · have hrest := Cursor.loop_go (c := cursor lib tools)
      (step_text lib tools st hnil' he' ht')
    rw [drop_left] at hrest
    rw [hrest, Stop.prepend_prepend]

theorem functionStep_append (h : functionStep st s = .go out next n) (t : List Char) :
    functionStep st (s ++ t) = .go out next n := by
  unfold functionStep at h ⊢
  cases hfind : find ">".toList s with
  | none =>
    rw [hfind] at h
    cases h
  | some i =>
    have hle := find_add_length_le hfind
    rw [find_append hfind]
    rw [hfind] at h
    dsimp only at h ⊢
    rw [take_append_of_le_length (by omega)]
    exact h

theorem parameterStep_append (h : parameterStep lib tools st s ≠ .wait) (t : List Char) :
    parameterStep lib tools st (s ++ t) = parameterStep lib tools st s := by
  unfold parameterStep at h ⊢
  cases hfind : find ">".toList s with
  | none =>
    rw [hfind] at h
    exact absurd rfl h
  | some i =>
    have hle : i + 1 ≤ s.length := find_add_length_le hfind
    rw [hfind] at h
    rw [find_append hfind]
    dsimp only at h ⊢
    rw [take_append_of_le_length (by omega), drop_append_of_le_length hle]
    cases hbest : bestCand (s.drop (i + 1)) with
    | none =>
      rw [hbest] at h
      exact absurd rfl h
    | some best =>
      obtain ⟨endPos, endTokenLen⟩ := best
      have hend := bestCand_le hbest
      rw [bestCand_append hbest]
      dsimp only
      rw [take_append_of_le_length (by omega)]

theorem textStep_append (hangle : '<' ∈ s) (h : textStep st s = .go out next n) (t : List Char) :
    textStep st (s ++ t) = .go out next n := by
  unfold textStep at h ⊢
  cases hfind : find "<".toList s with
  | none =>
    rw [find_eq_cut, map_eq_none_iff, cut_eq_none_iff] at hfind
    exact absurd ((singleton_infix_iff '<' s).mpr hangle) hfind
  | some i =>
    have hle := find_add_length_le hfind
    rw [hfind] at h
    rw [find_append hfind]
    cases i with
    | zero =>
      dsimp only at h ⊢
      split at h
      · cases h
      · next hno =>
        have hno' : ¬ (possibleTags.any fun tag => s ++ t <+: tag) = true := by
          simp only [List.any_eq_true, decide_eq_true_eq, not_exists, not_and] at hno ⊢
          exact fun tag htag hpre => hno tag htag ((prefix_append s t).trans hpre)
        rw [if_neg hno']
        exact h
    | succ k =>
      dsimp only at h ⊢
      rw [take_append_of_le_length (by omega)]
      exact h

theorem not_tags_append (hangle : '<' ∈ s) (hnot : ∀ q ∈ takenTags, ¬ q <+: s)
    (h : textStep st s = .go out next n) (t : List Char) : ∀ q ∈ takenTags, ¬ q <+: s ++ t := by
  intro q hq
  obtain ⟨c, s, rfl⟩ := exists_cons_of_ne_nil (ne_nil_of_mem hangle)
  by_cases hc : c = '<'
  · apply not_prefix_append (hnot q hq)
    intro hpre
    have hwait : textStep st (c :: s) = .wait := by
      have hfind : find "<".toList (c :: s) = some 0 := by
        simp [find, hc]
      rw [textStep, hfind]
      dsimp only
      rw [if_pos]
      simp only [List.any_eq_true, decide_eq_true_eq]
      exact ⟨q, takenTags_possible q hq, hpre⟩
    rw [hwait] at h
    cases h
  · rw [cons_append]
    exact not_tag_of_head hc q hq

theorem step_append_tag {q : List Char} (hq : q ∈ takenTags) (hpre : q <+: s)
    (h : step lib tools st s ≠ .wait) (t : List Char) :
    step lib tools st (s ++ t) = step lib tools st s := by
  have hpre' := prefix_append_right hpre t
  simp only [takenTags, mem_cons, not_mem_nil, or_false] at hq
  rcases hq with rfl | rfl | rfl | rfl | rfl
  · rw [step_toolCallStart hpre, step_toolCallStart hpre']
  · rw [step_function hpre] at h ⊢
    rw [step_function hpre']
    cases hstep : functionStep st s with
    | wait => exact absurd hstep h
    | fail next =>
      unfold functionStep at hstep
      split at hstep <;> cases hstep
    | go out next n => exact functionStep_append hstep t
  · rw [step_parameter hpre] at h ⊢
    rw [step_parameter hpre']
    exact parameterStep_append h t
  · rw [step_functionEnd hpre, step_functionEnd hpre']
  · rw [step_toolCallEnd hpre, step_toolCallEnd hpre']

theorem textStep_ne_fail : textStep st s ≠ .fail next := by
  unfold textStep
  split
  · simp
  · split <;> simp
  · simp

theorem functionStep_ne_fail : functionStep st s ≠ .fail next := by
  unfold functionStep
  split <;> simp

theorem step_fail (h : step lib tools st s = .fail next) :
    parameterPrefix <+: s ∧ step lib tools next s = .fail next := by
  have hpre : parameterPrefix <+: s := by
    by_contra hno
    unfold step at h
    split_ifs at h
    · exact functionStep_ne_fail h
    · exact textStep_ne_fail h
  refine ⟨hpre, ?_⟩
  rw [step_parameter hpre, parameterStep] at h ⊢
  split at h
  · cases h
  dsimp only at h ⊢
  split at h
  · cases h
  split at h
  · next hnone =>
    cases h
    change fragment lib tools { st with jsonStarted := true } _ _ = none at hnone
    rw [hnone]
  · cases h

theorem ne_nil_of_step (h : step lib tools st s ≠ .wait) : s ≠ [] := by
  rintro rfl
  exact h (if_pos rfl)

theorem cursor_online : (cursor lib tools).Online where
  stuck := fun h => (step_fail h).2
  fail := by
    intro st s next h t
    change step lib tools st s = .fail next at h
    have hmoves : step lib tools st s ≠ .wait := by simp [h]
    exact (step_append_tag (by decide) (step_fail h).1 hmoves t).trans h
  go := by
    intro st s out next n h t
    change step lib tools st s = .go out next n at h
    have hmoves : step lib tools st s ≠ .wait := by simp [h]
    have hne := ne_nil_of_step hmoves
    by_cases htag : ∃ q ∈ takenTags, q <+: s
    · obtain ⟨q, hq, hpre⟩ := htag
      exact Cursor.loop_append_go h ((step_append_tag hq hpre hmoves t).trans h)
    · have hnot : ∀ q ∈ takenTags, ¬ q <+: s := fun q hq hpre => htag ⟨q, hq, hpre⟩
      have htext : textStep st s = .go out next n := (step_other hne hnot).symm.trans h
      by_cases hangle : '<' ∈ s
      · have hnot' := not_tags_append hangle hnot htext t
        have hne' : s ++ t ≠ [] := by simp [hne]
        exact Cursor.loop_append_go h
          ((step_other hne' hnot').trans (textStep_append hangle htext t))
      · -- the segment may go on
        have hall := step_text lib tools st hne hangle (.inl rfl : ([] : List Char) = [] ∨ _)
        rw [append_nil] at hall
        obtain ⟨rfl, rfl, rfl⟩ : st.text s = out ∧ st = next ∧ s.length = n := by
          simpa using hall.symm.trans h
        rw [loop_text hangle, drop_length, nil_append]

/-! ## Section 4: Streams -/

variable (lib tools st) in
theorem loop_nil : (cursor lib tools).loop st [] = ⟨0, st, [], false⟩ :=
  Cursor.loop_wait (show step lib tools st [] = .wait from if_pos rfl)

theorem drop_loop_rest (st : State) (s : List Char) :
    s.drop (s.length - ((cursor lib tools).loop st s).rest.length) =
      ((cursor lib tools).loop st s).rest :=
  (suffix_iff_eq_drop.mp ((cursor lib tools).loop_rest st s)).symm

theorem parseStreamingIncrement_of_loop {buffer newText : List Char}
    (h : ((cursor lib tools).loop st (buffer ++ newText)).raised = false) :
    parseStreamingIncrement lib tools ⟨st, buffer, 0⟩ newText =
      (some ((cursor lib tools).loop st (buffer ++ newText)).out,
        ⟨((cursor lib tools).loop st (buffer ++ newText)).next,
          ((cursor lib tools).loop st (buffer ++ newText)).rest, 0⟩) := by
  unfold parseStreamingIncrement
  dsimp only
  split
  · next hnil =>
    rw [hnil, loop_nil]
  · rw [drop_zero, if_neg (by simp [h]), drop_loop_rest]

/-- Where nothing raises, the calls on the chunks give what the cursor gives on the whole text. -/
theorem stream_of_loop (chunks : List (List Char)) : ∀ {st : State} {buffer : List Char},
    (cursor lib tools).loop st buffer = ⟨0, st, buffer, false⟩ →
    ((cursor lib tools).loop st (buffer ++ chunks.flatten)).raised = false →
    streamChunks lib tools ⟨st, buffer, 0⟩ chunks =
      ⟨((cursor lib tools).loop st (buffer ++ chunks.flatten)).out, false,
        ((cursor lib tools).loop st (buffer ++ chunks.flatten)).next,
        ((cursor lib tools).loop st (buffer ++ chunks.flatten)).rest, 0⟩ := by
  induction chunks with
  | nil =>
    intro st buffer hsettled _
    rw [flatten_nil, append_nil, hsettled]
    rfl
  | cons chunk chunks ih =>
    intro st buffer hsettled h
    rw [flatten_cons, ← append_assoc] at h ⊢
    have hfirst : ((cursor lib tools).loop st (buffer ++ chunk)).raised = false := by
      by_contra hraised
      have := (cursor_online.raised_append (by simpa using hraised) chunks.flatten).1
      rw [h] at this
      cases this
    have hagain := (@cursor_online V lib tools).loop_settled st (buffer ++ chunk)
    rw [hfirst] at hagain
    rw [cursor_online.loop_append] at h ⊢
    rw [streamChunks, parseStreamingIncrement_of_loop hfirst]
    dsimp only
    rw [ih hagain h]
    rfl

end Steps

end Sglang.FunctionCall.Qwen3Coder
