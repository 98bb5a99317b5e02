import Sglang.Parser.CohereStreaming

/-!
# Cohere Command 4: What is Streamed and What is Parsed

The streaming parser agrees with the one-shot parser exactly when no start marker is echoed and the
block after the thinking is read, up to blocks without an answer and calls with markers in them.

- `detect_render_text`, `detect_render_ended`, `detect_render_action`: the one-shot parser,
- `Readable`: the messages and cuttings on which the parsers agree,
- `stream_eq_detectAndParse_iff`: this is exact.
-/

namespace Sglang.Parser.Cohere

open List Option
open Lib

/-! ## Section 1: The whole text at once -/

theorem thinking_not_started {m : Message} (hm : m.WellFormed) {z : List Char}
    (hz : z = [] ∨ actionStartToken <+: z) : ¬ thinkStartToken <+: m.thinking ++ z := by
  have hmem : thinkStartToken ∈ allMarkers := by decide
  have hthink := hm.thinking _ hmem
  rcases hz with rfl | ⟨y, rfl⟩
  · rw [append_nil]
    exact fun hpre => hthink hpre.isInfix
  · by_cases hnil : m.thinking = []
    · rw [hnil, nil_append]
      intro hpre
      have ha : actionStartToken ∈ allMarkers := by decide
      exact absurd (marker_eq_of_isPrefix hmem ha hpre (prefix_append _ _)) (by decide)
    · have hact : actionStartToken ++ y = '<' :: (actionStartToken.tail ++ y) := rfl
      rw [hact]
      exact (led_marker hmem).not_isPrefix hthink [] m.thinking rfl hnil

theorem strip_before {m : Message} (hm : m.WellFormed) {z : List Char}
    (hz : z = [] ∨ actionStartToken <+: z) :
    (if thinkStartToken <+: m.before ++ z then (m.before ++ z).drop thinkStartToken.length
      else m.before ++ z) = m.thinking ++ z := by
  unfold Message.before
  by_cases hecho : m.echo
  · rw [if_pos hecho, append_assoc, if_pos (prefix_append _ _), drop_left]
  · rw [if_neg hecho, nil_append, if_neg (thinking_not_started hm hz)]

theorem detect_ended {t a b : List Char} (h : cut thinkEndToken t = some (a, b)) :
    detectAndParse t =
      ⟨if thinkStartToken <+: a then a.drop thinkStartToken.length else a, stripTextMarkers b⟩ := by
  obtain ⟨htake, _, hdrop⟩ := drop_cut h
  simp only [detectAndParse, find_of_cut h, htake, hdrop]

theorem detect_text {t a b : List Char} (hend : cut thinkEndToken t = none)
    (h : cut textStartToken t = some (a, b)) :
    detectAndParse t =
      ⟨if thinkStartToken <+: a then a.drop thinkStartToken.length else a,
        stripTextMarkers (textStartToken ++ b)⟩ := by
  obtain ⟨htake, hdrop, _⟩ := drop_cut h
  have hnone : find thinkEndToken t = none := by rw [find_eq_cut, hend]; rfl
  simp only [detectAndParse, find_of_cut h, hnone, htake, hdrop]

theorem detect_action {t a b : List Char} (hend : cut thinkEndToken t = none)
    (htext : cut textStartToken t = none) (h : cut actionStartToken t = some (a, b)) :
    detectAndParse t =
      ⟨if thinkStartToken <+: a then a.drop thinkStartToken.length else a,
        stripTextMarkers (actionStartToken ++ b)⟩ := by
  obtain ⟨htake, hdrop, _⟩ := drop_cut h
  have hnone : find thinkEndToken t = none := by rw [find_eq_cut, hend]; rfl
  have hnone' : find textStartToken t = none := by rw [find_eq_cut, htext]; rfl
  simp only [detectAndParse, find_of_cut h, hnone, hnone', htake, hdrop]

theorem strip_text {answer : List Char} (ha : MarkerFree answer) :
    stripTextMarkers (Block.text answer).render = answer := by
  have hs : textStartToken ∈ allMarkers := by decide
  have he : textEndToken ∈ allMarkers := by decide
  have hstart := cut_marker (t := []) hs hs (by decide) (answer ++ textEndToken)
  have hend := cut_marker he he (ha _ he) []
  rw [if_pos rfl] at hstart hend
  rw [append_nil] at hend
  have hne : textStartToken ++ (answer ++ textEndToken) ≠ [] :=
    append_ne_nil_of_left_ne_nil (marker_ne_nil hs) _
  rw [Block.render, append_assoc]
  obtain ⟨_, _, hdrop⟩ := drop_cut hstart
  obtain ⟨htake, _, _⟩ := drop_cut hend
  rw [nil_append] at hstart hdrop
  simp only [stripTextMarkers, if_neg hne, find_of_cut hstart, hdrop, find_of_cut hend, htake]

theorem strip_action (content : List Char) :
    stripTextMarkers (actionStartToken ++ content) =
      match cut textStartToken content with
      | none => actionStartToken ++ content
      | some (_, tail) =>
        match cut textEndToken tail with
        | none => tail
        | some (answer, _) => answer := by
  have hs : textStartToken ∈ allMarkers := by decide
  have ha : actionStartToken ∈ allMarkers := by decide
  have hne : actionStartToken ++ content ≠ [] :=
    append_ne_nil_of_left_ne_nil (marker_ne_nil ha) _
  have hcut := cut_marker (t := []) hs ha (by decide) content
  have hact := cut_marker (t := []) ha ha (by decide) content
  rw [if_neg (by decide), nil_append] at hcut
  rw [if_pos rfl, nil_append] at hact
  cases hc : cut textStartToken content with
  | none =>
    rw [hc] at hcut
    simp only [stripTextMarkers, if_neg hne, find_eq_cut, hcut, hact, map_none,
      map_some, isSome_some, if_true]
  | some x =>
    rw [hc, map_some] at hcut
    obtain ⟨_, _, hdrop⟩ := drop_cut hcut
    simp only [stripTextMarkers, if_neg hne, find_of_cut hcut, hdrop]
    cases he : cut textEndToken x.2 with
    | none => simp only [find_eq_cut, he, map_none]
    | some y =>
      obtain ⟨htake, _, _⟩ := drop_cut he
      simp only [find_of_cut he, htake]

def BlankText (content : List Char) : Prop :=
  ∃ a tail, cut textStartToken content = some (a, tail) ∧ (tail = [] ∨ textEndToken <+: tail)

theorem strip_action_inner {content : List Char} (h : textStartToken <:+: content) :
    stripTextMarkers (actionStartToken ++ content) ≠ actionStartToken ++ content ∧
      (stripTextMarkers (actionStartToken ++ content) = [] ↔ BlankText content) := by
  obtain ⟨⟨a, tail⟩, hcut⟩ := isSome_iff_exists.mp (cut_isSome_iff.mpr h)
  have hlen := congrArg List.length (cut_eq hcut)
  have hpos : 0 < actionStartToken.length := by decide
  have hblank : BlankText content ↔ tail = [] ∨ textEndToken <+: tail := by
    constructor
    · rintro ⟨a', tail', hcut', hblank⟩
      rw [hcut, Option.some.injEq, Prod.mk.injEq] at hcut'
      rwa [hcut'.2]
    · exact fun hb => ⟨a, tail, hcut, hb⟩
  have hstrip := strip_action content
  rw [hcut] at hstrip
  simp only [length_append] at hlen
  rw [hblank]
  cases he : cut textEndToken tail with
  | none =>
    simp only [he] at hstrip
    rw [hstrip]
    refine ⟨?_, ?_⟩
    · intro heq
      have hsame := congrArg List.length heq
      rw [length_append] at hsame
      omega
    · have hno : ¬ textEndToken <+: tail := fun hpre => cut_none he hpre.isInfix
      simp [hno]
  | some y =>
    obtain ⟨answer, r⟩ := y
    simp only [he] at hstrip
    rw [hstrip]
    have htail := cut_eq he
    have htaillen := congrArg List.length htail
    simp only [length_append] at htaillen
    refine ⟨?_, ?_⟩
    · intro heq
      have hsame := congrArg List.length heq
      rw [length_append] at hsame
      omega
    · constructor
      · intro hnil
        right
        rw [hnil, nil_append] at htail
        exact ⟨r, htail.symm⟩
      · rintro (hnil | ⟨r', hr'⟩)
        · rw [hnil, length_nil] at htaillen
          exact eq_nil_of_length_eq_zero (by omega)
        · have hocc : tail = [] ++ textEndToken ++ r' := hr'.symm
          have hfirst := cut_unique he hocc
          exact eq_nil_of_length_eq_zero (by simpa using hfirst)

theorem detect_render_ended {m : Message} (hm : m.WellFormed) (he : m.ended = true) :
    detectAndParse m.render = ⟨m.thinking, stripTextMarkers m.block.render⟩ := by
  have hmem : thinkEndToken ∈ allMarkers := by decide
  have hcut := cut_marker hmem hmem (hm.before_clear thinkEndToken (by decide)) m.block.render
  have hstrip := strip_before hm (.inl rfl)
  rw [if_pos rfl] at hcut
  simp only [append_nil] at hstrip
  rw [Message.render, if_pos he, detect_ended hcut, hstrip]

theorem detect_render_text {m : Message} (hm : m.WellFormed) {answer : List Char}
    (hb : m.block = .text answer) : detectAndParse m.render = ⟨m.thinking, answer⟩ := by
  have ha := hm.answer answer hb
  by_cases he : m.ended = true
  · rw [detect_render_ended hm he, hb, strip_text ha]
  · have hs : textStartToken ∈ allMarkers := by decide
    have hmem : thinkEndToken ∈ allMarkers := by decide
    have hlast : textEndToken ∈ allMarkers := by decide
    have hrender : m.render = m.before ++ textStartToken ++ (answer ++ textEndToken) := by
      rw [Message.render, if_neg he, hb, Block.render]
      simp
    -- There is no end of the thinking, so the text block ends it.
    have hinner := cut_marker hmem hlast (ha _ hmem) []
    rw [if_neg (by decide), append_nil] at hinner
    have hnone := cut_marker hmem hs (hm.before_clear thinkEndToken (by decide))
      (answer ++ textEndToken)
    rw [if_neg (by decide), hinner] at hnone
    have hcut := cut_marker hs hs (hm.before_clear textStartToken (by decide))
      (answer ++ textEndToken)
    rw [if_pos rfl] at hcut
    have hstrip := strip_before hm (.inl rfl)
    simp only [append_nil] at hstrip
    have htext := strip_text ha
    rw [Block.render, append_assoc] at htext
    rw [hrender, detect_text hnone hcut, hstrip, htext]

theorem detect_render_action {m : Message} (hm : m.WellFormed) {content : List Char}
    (hb : m.block = .action content) (he : ¬ m.ended = true) :
    (¬ thinkEndToken <:+: content → ¬ textStartToken <:+: content →
      detectAndParse m.render = ⟨m.thinking, actionStartToken ++ content⟩) ∧
    (thinkEndToken <:+: content ∨ textStartToken <:+: content →
      ∃ x, (detectAndParse m.render).reasoningText = m.thinking ++ (actionStartToken ++ x)) := by
  have ha : actionStartToken ∈ allMarkers := by decide
  have hs : textStartToken ∈ allMarkers := by decide
  have hmem : thinkEndToken ∈ allMarkers := by decide
  have hrender : m.render = m.before ++ actionStartToken ++ content := by
    rw [Message.render, if_neg he, hb, Block.render]
    simp
  have hend := cut_marker hmem ha (hm.before_clear thinkEndToken (by decide)) content
  have htext := cut_marker hs ha (hm.before_clear textStartToken (by decide)) content
  have hact := cut_marker ha ha (hm.before_clear actionStartToken (by decide)) content
  rw [if_neg (by decide)] at hend htext
  rw [if_pos rfl] at hact
  rw [hrender]
  refine ⟨?_, ?_⟩
  · intro hno hno'
    rw [cut_eq_none_iff.mpr hno] at hend
    rw [cut_eq_none_iff.mpr hno'] at htext
    have hstrip := strip_before hm (.inl rfl)
    simp only [append_nil] at hstrip
    have hraw := strip_action content
    rw [cut_eq_none_iff.mpr hno'] at hraw
    rw [detect_action hend htext hact, hstrip, hraw]
  · -- A marker in the calls is taken for the end of the thinking.
    intro hin
    cases hc : cut thinkEndToken content with
    | some x =>
      rw [hc, map_some] at hend
      refine ⟨x.1, ?_⟩
      rw [detect_ended hend, append_assoc]
      exact strip_before hm (.inr (prefix_append _ _))
    | none =>
      rw [hc, map_none] at hend
      have hin' : textStartToken <:+: content := hin.resolve_left (cut_none hc)
      obtain ⟨x, hx⟩ := isSome_iff_exists.mp (cut_isSome_iff.mpr hin')
      rw [hx, map_some] at htext
      refine ⟨x.1, ?_⟩
      rw [detect_text hend htext, append_assoc]
      exact strip_before hm (.inr (prefix_append _ _))

/-! ## Section 2: When both agree -/

/-- The messages and cuttings for which what is streamed is what is parsed. -/
def Readable (streamReasoning : Bool) (m : Message) (chunks : List (List Char)) : Prop :=
  m.echo = false ∧
    match m.block with
    | .text answer => BlockRead streamReasoning m chunks ∨ answer = []
    | .action content =>
      BlockRead streamReasoning m chunks ∧ ¬ textStartToken <:+: content ∧
          (m.ended = true ∨ ¬ thinkEndToken <:+: content) ∨
        ¬ BlockRead streamReasoning m chunks ∧ m.ended = true ∧ BlankText content

theorem before_eq_thinking_iff (m : Message) : m.before = m.thinking ↔ m.echo = false := by
  unfold Message.before
  cases m.echo with
  | false => simp
  | true =>
    have hne : thinkStartToken ≠ [] := by decide
    simp [hne]

theorem before_ne_action {m : Message} (hm : m.WellFormed) (x : List Char) :
    m.before ≠ m.thinking ++ (actionStartToken ++ x) := by
  intro heq
  unfold Message.before at heq
  cases hecho : m.echo with
  | false =>
    have hlen := congrArg List.length heq
    have hpos : 0 < actionStartToken.length := by decide
    simp only [hecho, Bool.false_eq_true, if_false, nil_append, length_append] at hlen
    omega
  | true =>
    rw [hecho, if_pos rfl] at heq
    exact thinking_not_started hm (.inr (prefix_append _ x)) ⟨_, heq⟩

/-- What is streamed is what is parsed, for these messages and cuttings and no others. -/
theorem stream_eq_detectAndParse_iff (streamReasoning : Bool) {m : Message} (hm : m.WellFormed)
    {chunks : List (List Char)} (h : chunks.flatten = m.render) :
    (parseStream streamReasoning .new chunks).2 = detectAndParse m.render ↔
      Readable streamReasoning m chunks := by
  obtain ⟨hread, hlost⟩ := parseStream_render streamReasoning hm h
  unfold Readable
  -- the block is text or an action, and the thinking is ended or not
  cases hb : m.block with
  | text answer =>
    rw [detect_render_text hm hb]
    by_cases hr : BlockRead streamReasoning m chunks
    · rw [hread hr, ParseResult.mk.injEq, before_eq_thinking_iff, hb]
      simp [hr, Block.normalText]
    · rw [hlost hr, ParseResult.mk.injEq, before_eq_thinking_iff, eq_comm (a := [])]
      simp [hr]
  | action content =>
    have hact : actionStartToken ≠ [] := by decide
    have hnormal : m.block.normalText = actionStartToken ++ content := by
      rw [hb]
      rfl
    by_cases he : m.ended = true
    · rw [detect_render_ended hm he, hb, Block.render]
      -- a text token inside an action makes `detect_and_parse` cut there
      by_cases htext : textStartToken <:+: content
      · obtain ⟨hne, hblank⟩ := strip_action_inner htext
        by_cases hr : BlockRead streamReasoning m chunks
        · rw [hread hr, hnormal, ParseResult.mk.injEq, before_eq_thinking_iff]
          simp [hr, htext, hne.symm]
        · rw [hlost hr, ParseResult.mk.injEq, before_eq_thinking_iff, eq_comm (a := []), hblank]
          simp [hr, he]
      · have hraw := strip_action content
        rw [cut_eq_none_iff.mpr htext] at hraw
        have hblank : ¬ BlankText content := by
          rintro ⟨a, tail, hcut, _⟩
          rw [cut_eq_none_iff.mpr htext] at hcut
          cases hcut
        rw [hraw]
        by_cases hr : BlockRead streamReasoning m chunks
        · rw [hread hr, hnormal, ParseResult.mk.injEq, before_eq_thinking_iff]
          simp [hr, htext, he]
        · rw [hlost hr, ParseResult.mk.injEq]
          simp [hr, hblank, hact]
    · obtain ⟨hgood, hbad⟩ := detect_render_action hm hb he
      by_cases hin : thinkEndToken <:+: content ∨ textStartToken <:+: content
      · obtain ⟨x, hx⟩ := hbad hin
        -- the action goes into the thinking, which the stream never does
        have hne : (parseStream streamReasoning .new chunks).2 ≠ detectAndParse m.render := by
          intro heq
          apply before_ne_action hm x
          rw [← hx, ← heq]
          by_cases hr : BlockRead streamReasoning m chunks
          · rw [hread hr]
          · rw [hlost hr]
        refine iff_of_false hne ?_
        rintro ⟨_, ⟨_, htext, hend⟩ | ⟨_, hended, _⟩⟩
        · rcases hin with hin | hin
          · rcases hend with hend | hend
            · exact he hend
            · exact hend hin
          · exact htext hin
        · exact he hended
      · rw [not_or] at hin
        rw [hgood hin.1 hin.2]
        by_cases hr : BlockRead streamReasoning m chunks
        · rw [hread hr, hnormal, ParseResult.mk.injEq, before_eq_thinking_iff]
          simp [hr, hin]
        · rw [hlost hr, ParseResult.mk.injEq]
          simp [hr, he, hact]

def sample : Message := ⟨false, "a".toList, true, .text "b".toList⟩

theorem sample_wellFormed : sample.WellFormed where
  thinking := by
    unfold MarkerFree
    decide +kernel
  answer := by
    intro answer h
    cases h
    unfold MarkerFree
    decide +kernel

/-- With an empty last chunk the answer of the short message is read. -/
theorem sample_streamed :
    (parseStream true .new [sample.render, []]).2 = detectAndParse sample.render := by
  have hflat : [sample.render, []].flatten = sample.render := by simp
  apply (stream_eq_detectAndParse_iff true sample_wellFormed hflat).mpr
  refine ⟨rfl, .inl (.inr ⟨[], sample.render, [[]], rfl, ⟨?_, ?_⟩, .inl (by simp)⟩)⟩
  · decide +kernel
  · decide +kernel

/-- In one chunk its answer is lost. -/
theorem sample_lost : ¬ ∀ (streamReasoning : Bool) (m : Message) (chunks : List (List Char)),
    m.WellFormed → chunks ≠ [] → chunks.flatten = m.render →
      (parseStream streamReasoning .new chunks).2 = detectAndParse m.render := by
  intro h
  have hsame := h true sample [sample.render] sample_wellFormed (by simp) (by simp)
  exact absurd hsame (by decide +kernel)

end Sglang.Parser.Cohere
