import Sglang.Parser.CohereCommand4

/-!
# Cohere Command 4: What is Streamed

For the texts that the model writes, however they are cut: the thinking is put out in full, and the
block after it in full or not at all, since the increment that ends the thinking returns before the
block.

- `Message`: the texts,
- `stream_thinking`, `stream_block`: the two halves of a stream,
- `BlockRead`: the messages and cuttings of which the block is read,
- `parseStream_render`: the results of a stream.
-/

namespace Sglang.Parser.Cohere

open List Option
open Lib

/-! ## Section 1: Messages -/

/-- What follows the thinking. -/
inductive Block where
  /-- The final answer -/
  | text (answer : List Char)
  /-- The tool calls, with all that follows the start marker -/
  | action (content : List Char)
deriving DecidableEq

def Block.render : Block → List Char
  | .text answer => textStartToken ++ answer ++ textEndToken
  | .action content => actionStartToken ++ content

def Block.normalText : Block → List Char
  | .text answer => answer
  | .action content => actionStartToken ++ content

/-- What the model writes. -/
structure Message where
  /-- The start-of-thinking marker is echoed -/
  echo : Bool
  thinking : List Char
  /-- The end-of-thinking marker is written -/
  ended : Bool
  block : Block

def Message.before (m : Message) : List Char :=
    (if m.echo then thinkStartToken else []) ++ m.thinking

def Message.render (m : Message) : List Char :=
  m.before ++ (if m.ended then thinkEndToken else []) ++ m.block.render

def allMarkers : List (List Char) :=
  [thinkStartToken, thinkEndToken, textStartToken, textEndToken, actionStartToken]

def MarkerFree (t : List Char) : Prop := ∀ marker ∈ allMarkers, ¬ marker <:+: t

/-- The thinking and the answer have no markers. -/
structure Message.WellFormed (m : Message) : Prop where
  thinking : MarkerFree m.thinking
  answer : ∀ answer, m.block = .text answer → MarkerFree answer

/-! ## Section 2: Markers -/

variable {p t : List Char} (streamReasoning : Bool)

theorem led_marker (hp : p ∈ allMarkers) : Led '<' p := by
  simp only [allMarkers, mem_cons, not_mem_nil, or_false] at hp
  rcases hp with rfl | rfl | rfl | rfl | rfl <;> exact ⟨_, rfl, by decide⟩

theorem marker_ne_nil (hp : p ∈ allMarkers) : p ≠ [] := by
  obtain ⟨q, rfl, _⟩ := led_marker hp
  simp

theorem marker_isPrefix : ∀ p ∈ allMarkers, ∀ q ∈ allMarkers, p <+: q → p = q := by decide +kernel

theorem marker_eq_of_isPrefix {p q t : List Char} (hp : p ∈ allMarkers) (hq : q ∈ allMarkers)
    (hpt : p <+: t) (hqt : q <+: t) : p = q := by
  rcases prefix_or_prefix_of_prefix hpt hqt with h | h
  · exact marker_isPrefix p hp q hq h
  · exact (marker_isPrefix q hq p hp h).symm

theorem cut_marker {p q t : List Char} (hp : p ∈ allMarkers) (hq : q ∈ allMarkers)
    (ht : ¬ p <:+: t) (r : List Char) :
    cut p (t ++ q ++ r) = if p = q then some (t, r)
      else (cut p r).map fun x => (t ++ q ++ x.1, x.2) := by
  obtain ⟨q', hq', hnot⟩ := led_marker hq
  have hbefore : ∀ z h₁ h₂, t = h₁ ++ h₂ → h₂ ≠ [] → ¬ p <+: h₂ ++ (q ++ z) := by
    intro z h₁ h₂ hh hne
    rw [hq', cons_append]
    exact (led_marker hp).not_isPrefix ht h₁ h₂ hh hne
  split
  · next heq =>
    subst heq
    apply cut_of_first
    intro a₁ a₂ ha hne
    rw [append_assoc]
    exact hbefore r a₁ a₂ ha hne
  · next hne =>
    apply cut_append_left
    intro h₁ h₂ hh hh₂ hpre
    -- An occurrence starts in the text, at the other marker or inside of it.
    rcases append_eq_append_iff.mp hh with ⟨x, rfl, hx⟩ | ⟨x, hx, rfl⟩
    · cases x with
      | nil =>
        rw [nil_append] at hx
        subst hx
        exact hne (marker_eq_of_isPrefix hp hq hpre (prefix_append _ r))
      | cons c x =>
        obtain ⟨d, h₂, rfl⟩ := exists_cons_of_ne_nil hh₂
        obtain ⟨p', hp', _⟩ := led_marker hp
        obtain ⟨y, hy⟩ := hpre
        rw [hp', cons_append, cons_append, List.cons.injEq] at hy
        rw [hq', cons_append, List.cons.injEq] at hx
        apply hnot
        rw [hx.2, hy.1]
        simp
    · cases x with
      | nil =>
        rw [nil_append] at hpre
        exact hne (marker_eq_of_isPrefix hp hq hpre (prefix_append _ r))
      | cons c x =>
        refine hbefore r h₁ (c :: x) hx (by simp) ?_
        rwa [← append_assoc]

def Clear (t : List Char) : Prop := ∀ p ∈ endMarkers, ¬ p <:+: t

theorem endMarkers_subset : ∀ {p : List Char}, p ∈ endMarkers → p ∈ allMarkers := by
  have h : ∀ p ∈ endMarkers, p ∈ allMarkers := by decide +kernel
  exact fun {p} => h p

theorem firstMarker_none (h : Clear t) : firstMarker t = none := by
  have hfind : ∀ p ∈ endMarkers, find p t = none := fun p hp => find_none (h p hp)
  simp [firstMarker, endMarkers, hfind thinkEndToken (by decide), hfind textStartToken (by decide),
    hfind actionStartToken (by decide)]

theorem firstMarker_some (ht : Clear t) (hp : p ∈ endMarkers) (r : List Char) :
    firstMarker (t ++ p ++ r) = some (t.length, p) := by
  -- The others are not found, or later.
  have hself : find p (t ++ p ++ r) = some t.length := by
    have hcut := cut_marker (endMarkers_subset hp) (endMarkers_subset hp) (ht p hp) r
    rw [if_pos rfl] at hcut
    exact find_of_cut hcut
  have hother : ∀ q ∈ endMarkers, q ≠ p → ∀ i, find q (t ++ p ++ r) = some i → t.length < i := by
    intro q hq hne i hi
    rw [find_eq_cut, cut_marker (endMarkers_subset hq) (endMarkers_subset hp) (ht q hq) r,
      if_neg hne] at hi
    have hpos := length_pos_of_ne_nil (marker_ne_nil (endMarkers_subset hp))
    cases hcut : cut q r with
    | none =>
      rw [hcut] at hi
      cases hi
    | some x =>
      rw [hcut] at hi
      simp only [map_some, Option.some.injEq, length_append] at hi
      omega
  have hmem := hp
  simp only [endMarkers, mem_cons, not_mem_nil, or_false] at hmem
  unfold firstMarker
  simp only [endMarkers, foldl_cons, foldl_nil]
  rcases hmem with rfl | rfl | rfl
  · have hs := hother textStartToken (by decide) (by decide)
    have ha := hother actionStartToken (by decide) (by decide)
    rw [hself]
    cases hfs : find textStartToken (t ++ thinkEndToken ++ r) <;>
      cases hfa : find actionStartToken (t ++ thinkEndToken ++ r) <;> grind
  · have hs := hother thinkEndToken (by decide) (by decide)
    have ha := hother actionStartToken (by decide) (by decide)
    rw [hself]
    cases hfs : find thinkEndToken (t ++ textStartToken ++ r) <;>
      cases hfa : find actionStartToken (t ++ textStartToken ++ r) <;> grind
  · have hs := hother thinkEndToken (by decide) (by decide)
    have ha := hother textStartToken (by decide) (by decide)
    rw [hself]
    cases hfs : find thinkEndToken (t ++ actionStartToken ++ r) <;>
      cases hfa : find textStartToken (t ++ actionStartToken ++ r) <;> grind

theorem clear_of_isPrefix {t p s : List Char} (ht : Clear t) (hp : p ∈ endMarkers)
    (hs : s <+: t ++ p) (hlt : s.length < (t ++ p).length) : Clear s := by
  rintro q hq ⟨a, b, hab⟩
  obtain ⟨x, hx⟩ := hs
  have hcut := cut_marker (endMarkers_subset hq) (endMarkers_subset hp) (ht q hq) []
  have hocc : t ++ p = a ++ q ++ (b ++ x) := by
    rw [← hx, ← hab]
    simp
  split at hcut
  · next heq =>
    subst heq
    rw [append_nil] at hcut
    have hfirst := cut_unique hcut hocc
    have hlen := congrArg List.length hab
    simp only [length_append] at hlen hlt
    omega
  · have hnil : cut q [] = none := by
      rw [cut, if_neg (marker_ne_nil (endMarkers_subset hq))]
    rw [hnil, append_nil] at hcut
    exact cut_none hcut ⟨a, b ++ x, hocc.symm⟩

/-! ## Section 3: The thinking -/

/-- What has been put out of a text without markers, and what is kept. -/
def emitted (streamReasoning : Bool) (t : List Char) : List Char :=
  if streamReasoning then butLast 15 t else []

def kept (streamReasoning : Bool) (t : List Char) : List Char :=
  if streamReasoning then lastChars 15 t else t

theorem emitted_append_kept (t : List Char) :
    emitted streamReasoning t ++ kept streamReasoning t = t := by
  unfold emitted kept
  split
  · exact take_append_drop _ t
  · rfl

def thinkingState (streamReasoning : Bool) (t : List Char) : Detector :=
  ⟨kept streamReasoning t, false, false, false, false⟩

theorem increment_thinking {streamReasoning : Bool} {t x : List Char} (h : Clear (t ++ x)) :
    parseStreamingIncrement streamReasoning (thinkingState streamReasoning t) x =
      (thinkingState streamReasoning (t ++ x),
        ⟨(emitted streamReasoning (t ++ x)).drop (emitted streamReasoning t).length, []⟩) := by
  have hbuf : kept streamReasoning t ++ x <:+ t ++ x := by
    refine ⟨emitted streamReasoning t, ?_⟩
    rw [← append_assoc, emitted_append_kept]
  have hnone : firstMarker (kept streamReasoning t ++ x) = none := by
    apply firstMarker_none
    intro p hp hinf
    exact h p hp (hinf.trans hbuf.isInfix)
  have hkeep : maxKeep endMarkers = 15 := by decide
  unfold parseStreamingIncrement thinkingState
  simp only [hnone, hkeep, Bool.false_eq_true, if_false]
  cases streamReasoning with
  | false => simp [kept, emitted]
  | true =>
    simp only [true_and, kept, emitted, if_true, lastChars, butLast]
    have hdrop : t.drop (t.length - 15) ++ x = (t ++ x).drop (t.length - 15) := by
      rw [drop_append_of_le_length (Nat.sub_le _ _)]
    rw [hdrop]
    simp only [length_drop, length_append, length_take]
    split
    · next hlong =>
      congr 2
      · rw [drop_drop]
        congr 1
        omega
      · rw [drop_take, Nat.min_eq_left (by omega)]
        congr 1
        omega
    · next hshort =>
      congr 2
      · congr 1
        omega
      · symm
        rw [drop_eq_nil_iff, length_take, length_append]
        omega

theorem emitted_isPrefix (t x : List Char) :
    emitted streamReasoning t <+: emitted streamReasoning (t ++ x) := by
  unfold emitted
  split
  · unfold butLast
    have hle : t.length - 15 ≤ (t ++ x).length - 15 := by
      simp only [length_append]
      omega
    have htake : t.take (t.length - 15) = (t ++ x).take (t.length - 15) :=
      (take_append_of_le_length (Nat.sub_le _ _)).symm
    rw [htake]
    exact take_prefix_take_left hle
  · exact nil_prefix

theorem stream_thinking {chunks : List (List Char)}
    (h : Clear chunks.flatten) :
    parseStream streamReasoning .new chunks =
      (thinkingState streamReasoning chunks.flatten,
        ⟨emitted streamReasoning chunks.flatten, []⟩) := by
  have hstep : ∀ t x, Clear (t ++ x) →
      ∃ r, parseStreamingIncrement streamReasoning (thinkingState streamReasoning t) x =
          (thinkingState streamReasoning (t ++ x), r) ∧
        ParseResult.append ⟨emitted streamReasoning t, []⟩ r =
          ⟨emitted streamReasoning (t ++ x), []⟩ := by
    intro t x htx
    refine ⟨_, increment_thinking htx, ?_⟩
    obtain ⟨z, hz⟩ := emitted_isPrefix streamReasoning t x
    simp [ParseResult.append, ← hz]
  have hclear : ∀ t x, Clear (t ++ x) → Clear t :=
    fun t x htx p hp hinf => htx p hp (hinf.trans (prefix_append t x).isInfix)
  have hnew : Detector.new = thinkingState streamReasoning [] := by
    cases streamReasoning <;> rfl
  have hnil : emitted streamReasoning [] = [] := by
    cases streamReasoning <;> rfl
  obtain ⟨r, hstream, hr⟩ := streamChunks_states (thinkingState streamReasoning)
    (fun t => ⟨emitted streamReasoning t, []⟩) hclear hstep chunks [] h
  rw [nil_append] at hstream hr
  rw [parseStream, hnew, hstream, ← hr, hnil]
  rfl

/-! ## Section 4: The block -/

/-- The detector after the thinking, before a block is read. -/
def unread (z : List Char) : Detector := ⟨z, true, false, false, false⟩

/-- The detector in the text block, of which `t` has been read. -/
def textState (answer t : List Char) : Detector :=
  if t.length < textStartToken.length then unread t
  else
    let u := t.drop textStartToken.length
    if u = answer ++ textEndToken then ⟨[], true, true, true, false⟩
    else ⟨lastChars 11 u, true, true, false, false⟩

/-- What has been put out of the text block. -/
def textOut (answer t : List Char) : List Char :=
  if t.length < textStartToken.length then []
  else
    let u := t.drop textStartToken.length
    if u = answer ++ textEndToken then answer else butLast 11 u

theorem not_infix_of_length (h : t.length < p.length) : ¬ p <:+: t :=
  fun hinf => absurd hinf.length_le (not_le.mpr h)

theorem textEnd_cut {answer u : List Char} (ha : MarkerFree answer)
    (hu : u <+: answer ++ textEndToken) :
    cut textEndToken u = if u = answer ++ textEndToken then some (answer, []) else none := by
  have hmem : textEndToken ∈ allMarkers := by decide
  have hcut := cut_marker hmem hmem (ha _ hmem) []
  rw [if_pos rfl, append_nil] at hcut
  split
  · next heq => rw [heq, hcut]
  · next hne =>
    rw [cut_eq_none_iff]
    rintro ⟨a, b, hab⟩
    obtain ⟨x, hx⟩ := hu
    have hocc : answer ++ textEndToken = a ++ textEndToken ++ (b ++ x) := by
      rw [← hx, ← hab]
      simp
    have hle := cut_unique hcut hocc
    have hlen := congrArg List.length hx
    have hxlen := congrArg List.length hab
    simp only [length_append] at hlen hxlen
    have hx0 : x = [] := eq_nil_of_length_eq_zero (by omega)
    rw [hx0, append_nil] at hx
    exact hne hx

theorem parseText_of {d : Detector} {answer u : List Char} (ha : MarkerFree answer)
    (hu : u <+: answer ++ textEndToken) (hs : d.sawTextStart = true) (he : d.sawTextEnd = false) :
    parseText d u =
      if u = answer ++ textEndToken then ({ d with buffer := [], sawTextEnd := true }, ⟨[], answer⟩)
      else ({ d with buffer := lastChars 11 u }, ⟨[], butLast 11 u⟩) := by
  have hcut := textEnd_cut ha hu
  have hkeep : textEndToken.length - 1 = 11 := by decide
  unfold parseText
  rw [if_pos ⟨hs, by simp [he]⟩, find_eq_cut, hcut]
  by_cases hend : u = answer ++ textEndToken
  · simp [hend]
  · simp only [if_neg hend, map_none, hkeep]
    split
    · rfl
    · next hshort =>
      have h0 : u.length - 11 = 0 := by omega
      simp [lastChars, butLast, h0]

theorem parseBlock_text {answer t : List Char} (z : List Char) (ha : MarkerFree answer)
    (ht : t <+: (Block.text answer).render) :
    parseBlock (unread z) t = (textState answer t, ⟨[], textOut answer t⟩) := by
  have hs : textStartToken ∈ allMarkers := by decide
  have hlen : textStartToken.length = 14 := by decide
  rw [Block.render, append_assoc] at ht
  unfold parseBlock unread textState textOut
  simp only [Bool.false_eq_true, if_false]
  by_cases hlt : t.length < textStartToken.length
  · -- Neither start marker is there in full.
    have hact : ¬ actionStartToken <:+: t := not_infix_of_length (hlt.trans (by decide))
    have hkeep : ¬ maxKeep [textStartToken, actionStartToken] < t.length := by
      have hmax : maxKeep [textStartToken, actionStartToken] = 15 := by decide
      omega
    simp only [find_none (not_infix_of_length hlt), find_none hact, if_neg hkeep, if_pos hlt,
      unread]
  · obtain ⟨u, rfl⟩ : textStartToken <+: t :=
      prefix_of_prefix_length_le (prefix_append _ _) ht (not_lt.mp hlt)
    have hu : u <+: answer ++ textEndToken := by rwa [prefix_append_right_inj] at ht
    have hfind : find textStartToken (textStartToken ++ u) = some 0 := by
      have hcut := cut_marker hs hs (t := []) (by decide) u
      rw [if_pos rfl] at hcut
      exact find_of_cut hcut
    have hact : ∀ i, find actionStartToken (textStartToken ++ u) = some i → ¬ i ≤ 0 := by
      intro i hi hle
      have hcut := cut_marker (p := actionStartToken) (by decide) hs (t := []) (by decide) u
      rw [if_neg (by decide)] at hcut
      rw [find_eq_cut, ← nil_append textStartToken, hcut] at hi
      cases hc : cut actionStartToken u with
      | none =>
        rw [hc] at hi
        cases hi
      | some x =>
        rw [hc] at hi
        simp only [map_some, Option.some.injEq, length_append, hlen] at hi
        omega
    have hparse := parseText_of (d := ⟨z, true, true, false, false⟩) ha hu rfl rfl
    have hstart : parseBlock.startText ⟨z, true, false, false, false⟩ (textStartToken ++ u) 0 =
        parseText ⟨z, true, true, false, false⟩ u := by
      simp [parseBlock.startText]
    simp only [hfind, if_neg hlt, drop_left]
    cases hf : find actionStartToken (textStartToken ++ u) with
    | none =>
      simp only [hstart, hparse]
      split <;> rfl
    | some i =>
      simp only [if_neg (hact i hf), hstart, hparse]
      split <;> rfl

theorem lastChars_append {n : Nat} {e w : List Char} (h : e = [] ∨ n ≤ w.length) :
    lastChars n (e ++ w) = lastChars n w := by
  rcases h with rfl | h
  · rfl
  · unfold lastChars
    rw [length_append, Nat.add_sub_assoc h, drop_append]
    simp

theorem butLast_append {n : Nat} {e w : List Char} (h : e = [] ∨ n ≤ w.length) :
    butLast n (e ++ w) = e ++ butLast n w := by
  rcases h with rfl | h
  · rfl
  · unfold butLast
    rw [length_append, Nat.add_sub_assoc h, take_append]
    simp

theorem textState_start (answer u : List Char) : textState answer (textStartToken ++ u) =
    if u = answer ++ textEndToken then ⟨[], true, true, true, false⟩
    else ⟨lastChars 11 u, true, true, false, false⟩ := by
  have hlt : ¬ (textStartToken ++ u).length < textStartToken.length := by simp
  simp only [textState, if_neg hlt, drop_left]

theorem textOut_start (answer u : List Char) : textOut answer (textStartToken ++ u) =
    if u = answer ++ textEndToken then answer else butLast 11 u := by
  have hlt : ¬ (textStartToken ++ u).length < textStartToken.length := by simp
  simp only [textOut, if_neg hlt, drop_left]

/-- The text block goes on: what is out belongs to the answer, and the rest is parsed like a shorter
one. -/
theorem parseText_next {answer u x : List Char} (ha : MarkerFree answer)
    (ht : u ++ x <+: answer ++ textEndToken) (hend : u ≠ answer ++ textEndToken) :
    ∃ r, parseText ⟨lastChars 11 u, true, true, false, false⟩ (lastChars 11 u ++ x) =
        (textState answer (textStartToken ++ (u ++ x)), r) ∧
      ParseResult.append ⟨[], butLast 11 u⟩ r =
        ⟨[], textOut answer (textStartToken ++ (u ++ x))⟩ := by
  have hsplit : butLast 11 u ++ lastChars 11 u = u := take_append_drop _ u
  have hux : butLast 11 u ++ (lastChars 11 u ++ x) = u ++ x := by
    rw [← append_assoc, hsplit]
  have hu : u <+: answer ++ textEndToken := (prefix_append u x).trans ht
  have hshort : u.length ≤ answer.length + 11 := by
    have hlen : textEndToken.length = 12 := by decide
    have hle := hu.length_le
    have hne : u.length ≠ (answer ++ textEndToken).length := fun h => hend (hu.eq_of_length h)
    rw [length_append] at hle hne
    omega
  obtain ⟨answer', hanswer⟩ : butLast 11 u <+: answer := by
    apply prefix_of_prefix_length_le ((List.take_prefix _ u).trans hu) (prefix_append _ _)
    simp only [length_take]
    omega
  have hfree : MarkerFree answer' := by
    intro p hp hinf
    apply ha p hp
    rw [← hanswer]
    exact hinf.trans (suffix_append _ _).isInfix
  have hrest : lastChars 11 u ++ x <+: answer' ++ textEndToken := by
    rw [← hux, ← hanswer, append_assoc, prefix_append_right_inj] at ht
    exact ht
  have hlong : butLast 11 u = [] ∨ 11 ≤ (lastChars 11 u ++ x).length := by
    by_cases h11 : 11 ≤ u.length
    · right
      simp only [lastChars, length_append, length_drop]
      omega
    · left
      simp only [butLast, take_eq_nil_iff]
      left
      omega
  have hiff : lastChars 11 u ++ x = answer' ++ textEndToken ↔ u ++ x = answer ++ textEndToken := by
    rw [← hux, ← hanswer, append_assoc, append_cancel_left_eq]
  have hparse := parseText_of (d := ⟨lastChars 11 u, true, true, false, false⟩) hfree hrest rfl rfl
  rw [textState_start, textOut_start, hparse]
  by_cases hdone : u ++ x = answer ++ textEndToken
  · rw [if_pos (hiff.mpr hdone), if_pos hdone, if_pos hdone]
    refine ⟨⟨[], answer'⟩, rfl, ?_⟩
    simp [ParseResult.append, hanswer]
  · rw [if_neg (mt hiff.mp hdone), if_neg hdone, if_neg hdone, ← hux, lastChars_append hlong,
      butLast_append hlong]
    exact ⟨_, rfl, rfl⟩

theorem increment_text {streamReasoning : Bool} {answer t x : List Char} (ha : MarkerFree answer)
    (ht : t ++ x <+: (Block.text answer).render) :
    ∃ r, parseStreamingIncrement streamReasoning (textState answer t) x =
        (textState answer (t ++ x), r) ∧
      ParseResult.append ⟨[], textOut answer t⟩ r = ⟨[], textOut answer (t ++ x)⟩ := by
  by_cases hlt : t.length < textStartToken.length
  · -- The start marker is not read yet.
    have hstate : textState answer t = unread t := if_pos hlt
    have hout : textOut answer t = [] := if_pos hlt
    rw [hstate, hout]
    exact ⟨_, parseBlock_text t ha ht, rfl⟩
  · rw [Block.render, append_assoc] at ht
    obtain ⟨u, rfl⟩ : textStartToken <+: t :=
      prefix_of_prefix_length_le (prefix_append _ _)
        ((prefix_append t x).trans ht) (not_lt.mp hlt)
    rw [append_assoc, prefix_append_right_inj] at ht
    by_cases hend : u = answer ++ textEndToken
    · -- Nothing follows the end marker.
      have hx : x = [] := by
        have hle := ht.length_le
        rw [hend, length_append] at hle
        exact eq_nil_of_length_eq_zero (by omega)
      refine ⟨.empty, ?_, ?_⟩
      · rw [hx, append_nil, textState_start, if_pos hend]
        rfl
      · rw [hx, append_nil, ParseResult.append_empty]
    · obtain ⟨r, hparse, hr⟩ := parseText_next ha ht hend
      rw [textState_start, if_neg hend, textOut_start, if_neg hend, append_assoc]
      exact ⟨r, hparse, hr⟩

/-- The detector in the action block, of which `t` has been read. -/
def actionState (t : List Char) : Detector :=
  if t.length < actionStartToken.length then unread t else ⟨[], true, false, false, true⟩

/-- What has been put out of the action block. -/
def actionOut (t : List Char) : List Char := if t.length < actionStartToken.length then [] else t

theorem parseBlock_action {content t : List Char} (z : List Char)
    (ht : t <+: (Block.action content).render) :
    parseBlock (unread z) t = (actionState t, ⟨[], actionOut t⟩) := by
  have ha : actionStartToken ∈ allMarkers := by decide
  have hlen : actionStartToken.length = 16 := by decide
  rw [Block.render] at ht
  unfold parseBlock unread actionState actionOut
  simp only [Bool.false_eq_true, if_false]
  by_cases hlt : t.length < actionStartToken.length
  · have hact : ¬ actionStartToken <:+: t := not_infix_of_length hlt
    have htext : ¬ textStartToken <:+: t := by
      intro hinf
      have hinf' : textStartToken <:+: actionStartToken :=
        hinf.trans (prefix_of_prefix_length_le ht (prefix_append _ _) hlt.le).isInfix
      exact absurd hinf' (by decide)
    have hkeep : ¬ maxKeep [textStartToken, actionStartToken] < t.length := by
      have hmax : maxKeep [textStartToken, actionStartToken] = 15 := by decide
      omega
    simp only [find_none htext, find_none hact, if_neg hkeep, if_pos hlt, unread]
  · obtain ⟨u, rfl⟩ : actionStartToken <+: t :=
      prefix_of_prefix_length_le (prefix_append _ _) ht (not_lt.mp hlt)
    have hfind : find actionStartToken (actionStartToken ++ u) = some 0 := by
      have hcut := cut_marker ha ha (t := []) (by decide) u
      rw [if_pos rfl] at hcut
      exact find_of_cut hcut
    simp only [hfind, if_neg hlt, parseBlock.startAction]
    cases find textStartToken (actionStartToken ++ u) with
    | none => rfl
    | some s => simp

theorem increment_action {streamReasoning : Bool} {content t x : List Char}
    (ht : t ++ x <+: (Block.action content).render) :
    ∃ r, parseStreamingIncrement streamReasoning (actionState t) x = (actionState (t ++ x), r) ∧
      ParseResult.append ⟨[], actionOut t⟩ r = ⟨[], actionOut (t ++ x)⟩ := by
  by_cases hlt : t.length < actionStartToken.length
  · have hstate : actionState t = unread t := if_pos hlt
    have hout : actionOut t = [] := if_pos hlt
    rw [hstate, hout]
    exact ⟨_, parseBlock_action t ht, rfl⟩
  · have hlt' : ¬ (t ++ x).length < actionStartToken.length := by
      rw [length_append]
      omega
    refine ⟨⟨[], x⟩, ?_, ?_⟩
    · rw [actionState, if_neg hlt, actionState, if_neg hlt']
      cases x <;> rfl
    · rw [actionOut, if_neg hlt, actionOut, if_neg hlt']
      rfl

theorem prefix_of_append {w t x : List Char} (h : t ++ x <+: w) : t <+: w :=
  (prefix_append t x).trans h

theorem stream_block {block : Block}
    (hfree : ∀ answer, block = .text answer → MarkerFree answer) {z x : List Char}
    {xs : List (List Char)} (h : z ++ (x :: xs).flatten = block.render) :
    (parseStream streamReasoning (unread z) (x :: xs)).2 = ⟨[], block.normalText⟩ := by
  rw [flatten_cons, ← append_assoc] at h
  have hz : z ++ x <+: block.render := ⟨_, h⟩
  -- The first increment reads what is there, the others go on from it.
  cases block with
  | text answer =>
    have ha := hfree answer rfl
    have hfirst : parseStreamingIncrement streamReasoning (unread z) x =
        (textState answer (z ++ x), ⟨[], textOut answer (z ++ x)⟩) := parseBlock_text z ha hz
    obtain ⟨r, hrest, hr⟩ := streamChunks_states (P := fun t => t <+: (Block.text answer).render)
      (textState answer) (fun t => ⟨[], textOut answer t⟩) (fun t y => prefix_of_append)
      (fun t y => @increment_text streamReasoning answer t y ha) xs (z ++ x) (by rw [h])
    rw [parseStream, streamChunks, hfirst, hrest, hr, h]
    simp [Block.render, Block.normalText, textOut_start]
  | action content =>
    have hfirst : parseStreamingIncrement streamReasoning (unread z) x =
        (actionState (z ++ x), ⟨[], actionOut (z ++ x)⟩) := parseBlock_action z hz
    obtain ⟨r, hrest, hr⟩ := streamChunks_states (P := fun t => t <+: (Block.action content).render)
      actionState (fun t => ⟨[], actionOut t⟩) (fun t y => prefix_of_append)
      (fun t y => @increment_action streamReasoning content t y) xs (z ++ x) (by rw [h])
    rw [parseStream, streamChunks, hfirst, hrest, hr, h]
    have hlt : ¬ (Block.action content).render.length < actionStartToken.length := by
      simp [Block.render]
    rw [actionOut, if_neg hlt]
    rfl

/-! ## Section 5: A whole stream -/

def Block.startToken : Block → List Char
  | .text _ => textStartToken
  | .action _ => actionStartToken

def Block.content : Block → List Char
  | .text answer => answer ++ textEndToken
  | .action content => content

theorem Block.render_eq (block : Block) : block.render = block.startToken ++ block.content := by
  cases block <;> simp [Block.render, Block.startToken, Block.content]

def Message.ending (m : Message) : List Char :=
    if m.ended then thinkEndToken else m.block.startToken

def Message.rest (m : Message) : List Char := if m.ended then m.block.render else m.block.content

theorem Message.render_eq (m : Message) : m.render = m.before ++ m.ending ++ m.rest := by
  unfold Message.render Message.ending Message.rest
  split
  · rfl
  · rw [Block.render_eq]
    simp

theorem Message.ending_mem (m : Message) : m.ending ∈ endMarkers := by
  unfold Message.ending
  split
  · decide
  · cases m.block <;> simp only [Block.startToken] <;> decide

theorem Message.WellFormed.before_clear {m : Message} (hm : m.WellFormed) : Clear m.before := by
  intro p hp
  have hmem := endMarkers_subset hp
  have hthink := hm.thinking p hmem
  unfold Message.before
  split
  · have hne : p ≠ thinkStartToken := by
      have h : ∀ q ∈ endMarkers, q ≠ thinkStartToken := by decide
      exact h p hp
    have hcut := cut_marker (t := []) hmem (by decide : thinkStartToken ∈ allMarkers)
      (by simpa using marker_ne_nil hmem) m.thinking
    rw [if_neg hne, cut_eq_none_iff.mpr hthink] at hcut
    exact cut_eq_none_iff.mp hcut
  · exact hthink

/-- The increment that completes the ending marker: the block is parsed only if there is no thinking
left to put out. -/
theorem increment_ending {m : Message} (hm : m.WellFormed)
    {t c later : List Char} (h : t ++ c ++ later = m.render)
    (hlt : t.length < (m.before ++ m.ending).length)
    (hge : (m.before ++ m.ending).length ≤ (t ++ c).length) :
    ∃ left rest, emitted streamReasoning t ++ left = m.before ∧ rest ++ later = m.block.render ∧
      parseStreamingIncrement streamReasoning (thinkingState streamReasoning t) c =
        if left ≠ [] then (unread rest, ⟨left, []⟩)
        else parseBlock (unread (kept streamReasoning t)) rest := by
  have hend := m.ending_mem
  have hend16 : m.ending.length ≤ 16 := by
    have hlen : ∀ p ∈ endMarkers, p.length ≤ 16 := by decide
    exact hlen _ hend
  rw [m.render_eq] at h
  obtain ⟨tail, htail⟩ : m.before ++ m.ending <+: t ++ c :=
    prefix_of_prefix_length_le (prefix_append _ _) ⟨_, h⟩ hge
  have hrest : tail ++ later = m.rest := by
    rw [← htail, append_assoc, append_cancel_left_eq] at h
    exact h
  -- What is out of the thinking is less than what has been read, by the length of a marker.
  obtain ⟨left, hleft⟩ : emitted streamReasoning t <+: m.before := by
    have ht : emitted streamReasoning t <+: t := ⟨_, emitted_append_kept streamReasoning t⟩
    have hpre : emitted streamReasoning t <+: m.before ++ (m.ending ++ tail) := by
      rw [← append_assoc, htail]
      exact ht.trans (prefix_append _ _)
    apply prefix_of_prefix_length_le hpre (prefix_append _ _)
    rw [length_append] at hlt
    cases streamReasoning with
    | false => simp [emitted]
    | true =>
      simp only [emitted, if_true, butLast, length_take]
      omega
  have hbuf : kept streamReasoning t ++ c = left ++ m.ending ++ tail := by
    have heq : emitted streamReasoning t ++ (kept streamReasoning t ++ c) =
        emitted streamReasoning t ++ (left ++ m.ending ++ tail) := by
      rw [← append_assoc, emitted_append_kept, ← htail, ← hleft]
      simp
    exact append_cancel_left heq
  have hclear : Clear left := by
    intro p hp hinf
    apply hm.before_clear p hp
    rw [← hleft]
    exact hinf.trans (suffix_append _ _).isInfix
  have hfirst := firstMarker_some hclear hend tail
  refine ⟨left, if m.ended then tail else m.ending ++ tail, hleft, ?_, ?_⟩
  · rw [Message.rest] at hrest
    split
    · next he => rwa [if_pos he] at hrest
    · next he =>
      rw [if_neg he] at hrest
      rw [append_assoc, hrest, Message.ending, if_neg he, Block.render_eq]
  · have hdrop : (if m.ending = thinkEndToken then
        (left ++ m.ending ++ tail).drop (left.length + m.ending.length)
        else (left ++ m.ending ++ tail).drop left.length) =
        if m.ended then tail else m.ending ++ tail := by
      by_cases he : m.ended
      · have hthink : m.ending = thinkEndToken := if_pos he
        rw [if_pos hthink, if_pos he, ← length_append, drop_left]
      · have hthink : m.ending ≠ thinkEndToken := by
          rw [Message.ending, if_neg he]
          cases m.block <;> simp only [Block.startToken] <;> decide
        rw [if_neg hthink, if_neg he, append_assoc, drop_left]
    unfold parseStreamingIncrement thinkingState
    simp only [hbuf, hfirst, Bool.false_eq_true, if_false, hdrop]
    rw [append_assoc, take_left]
    rfl

/-- The chunk that completes the ending marker, with those before and after it. -/
structure Completes (m : Message) (before : List (List Char)) (chunk : List Char) : Prop where
  short : before.flatten.length < (m.before ++ m.ending).length
  reached : (m.before ++ m.ending).length ≤ (before.flatten ++ chunk).length

theorem Message.exists_completes {m : Message} {chunks : List (List Char)}
    (h : chunks.flatten = m.render) :
    ∃ before chunk after, chunks = before ++ chunk :: after ∧ Completes m before chunk := by
  have hpos : 0 < (m.before ++ m.ending).length := by
    rw [length_append]
    have := length_pos_of_ne_nil (marker_ne_nil (endMarkers_subset m.ending_mem))
    omega
  have hle : (m.before ++ m.ending).length ≤ chunks.flatten.length := by
    rw [h, m.render_eq]
    exact (prefix_append _ _).length_le
  obtain ⟨before, chunk, after, heq, hlt, hge⟩ :=
    exists_first_chunk (Q := fun t => (m.before ++ m.ending).length ≤ t.length) (t := [])
      (not_le.mpr hpos) hle
  exact ⟨before, chunk, after, heq, not_le.mp hlt, hge⟩

theorem Completes.unique {m : Message} {before before' after after' : List (List Char)}
    {chunk chunk' : List Char} (h : Completes m before chunk) (h' : Completes m before' chunk')
    (heq : before ++ chunk :: after = before' ++ chunk' :: after') :
    before = before' ∧ after = after' := by
  have hkeep : ∀ t x : List Char, (m.before ++ m.ending).length ≤ t.length →
      (m.before ++ m.ending).length ≤ (t ++ x).length :=
    fun t x hle => hle.trans (prefix_append t x).length_le
  obtain ⟨hbefore, _, hafter⟩ := first_chunk_unique hkeep (t := []) (not_le.mpr h.short) h.reached
    (not_le.mpr h'.short) h'.reached heq
  exact ⟨hbefore, hafter⟩

/-- The block is read: there is no thinking left when the ending marker is complete, or a chunk
follows, be it empty. -/
def BlockRead (streamReasoning : Bool) (m : Message) (chunks : List (List Char)) : Prop :=
  m.before = [] ∨ ∃ before chunk after, chunks = before ++ chunk :: after ∧
    Completes m before chunk ∧
    (after ≠ [] ∨ streamReasoning = true ∧ m.before.length + 15 ≤ before.flatten.length)

theorem emitted_length (t : List Char) :
    (emitted streamReasoning t).length = if streamReasoning then t.length - 15 else 0 := by
  unfold emitted
  split
  · simp only [butLast, length_take]
    omega
  · rfl

theorem parseStream_render {m : Message} (hm : m.WellFormed)
    {chunks : List (List Char)} (h : chunks.flatten = m.render) :
    (BlockRead streamReasoning m chunks →
      (parseStream streamReasoning .new chunks).2 = ⟨m.before, m.block.normalText⟩) ∧
    (¬ BlockRead streamReasoning m chunks →
      (parseStream streamReasoning .new chunks).2 = ⟨m.before, []⟩) := by
  obtain ⟨before, chunk, after, rfl, hcomp⟩ := m.exists_completes h
  have hflat : before.flatten ++ chunk ++ after.flatten = m.render := by
    rw [← h]
    simp
  have hclear : Clear before.flatten := by
    have hpre : before.flatten <+: m.render :=
      ⟨chunk ++ after.flatten, by rw [← hflat, append_assoc]⟩
    apply clear_of_isPrefix hm.before_clear m.ending_mem ?_ hcomp.short
    exact prefix_of_prefix_length_le hpre ⟨_, m.render_eq.symm⟩ hcomp.short.le
  obtain ⟨left, rest, hleft, hrest, hinc⟩ :=
    increment_ending streamReasoning hm hflat hcomp.short hcomp.reached
  have hstream : (parseStream streamReasoning .new (before ++ chunk :: after)).2 =
      ParseResult.append ⟨emitted streamReasoning before.flatten, []⟩
        (parseStream streamReasoning (thinkingState streamReasoning before.flatten)
          (chunk :: after)).2 := by
    have hthink := stream_thinking streamReasoning hclear
    unfold parseStream at hthink ⊢
    rw [streamChunks_append, hthink]
  -- The block is read iff nothing is left or a chunk follows.
  have hread : BlockRead streamReasoning m (before ++ chunk :: after) ↔ left = [] ∨ after ≠ [] := by
    have hlen := congrArg List.length hleft
    rw [length_append, emitted_length] at hlen
    constructor
    · rintro (hnil | ⟨before', chunk', after', heq, hcomp', hmore⟩)
      · left
        rw [hnil] at hleft
        exact (append_eq_nil_iff.mp hleft).2
      · obtain ⟨rfl, rfl⟩ := hcomp.unique hcomp' heq
        rcases hmore with hafter | ⟨hsr, hlong⟩
        · exact .inr hafter
        · left
          rw [if_pos hsr] at hlen
          exact eq_nil_of_length_eq_zero (by omega)
    · rintro (hnil | hafter)
      · rw [hnil, length_nil, Nat.add_zero] at hlen
        by_cases hb : m.before = []
        · exact .inl hb
        · right
          have hpos := length_pos_of_ne_nil hb
          refine ⟨before, chunk, after, rfl, hcomp, .inr ?_⟩
          cases streamReasoning with
          | false =>
            simp only [Bool.false_eq_true, if_false] at hlen
            omega
          | true =>
            simp only [if_true] at hlen
            exact ⟨rfl, by omega⟩
      · exact .inr ⟨before, chunk, after, rfl, hcomp, .inl hafter⟩
  rw [hread, hstream]
  by_cases hnil : left = []
  · -- The increment goes on with the block.
    have hsame : (parseStream streamReasoning (thinkingState streamReasoning before.flatten)
        (chunk :: after)).2 = (parseStream streamReasoning (unread []) (rest :: after)).2 := by
      have hunread : parseStreamingIncrement streamReasoning (unread []) rest =
          parseBlock (unread (kept streamReasoning before.flatten)) rest := rfl
      rw [if_neg (not_not_intro hnil)] at hinc
      unfold parseStream
      simp only [streamChunks, hinc, hunread]
    have hrest' : [] ++ (rest :: after).flatten = m.block.render := by simpa using hrest
    rw [hsame, stream_block streamReasoning hm.answer hrest']
    rw [hnil, append_nil] at hleft
    simp [hnil, ParseResult.append, hleft]
  · rw [if_pos hnil] at hinc
    have hsame : (parseStream streamReasoning (thinkingState streamReasoning before.flatten)
        (chunk :: after)).2 =
        ParseResult.append ⟨left, []⟩ (parseStream streamReasoning (unread rest) after).2 := by
      unfold parseStream
      rw [streamChunks, hinc]
    rw [hsame]
    cases after with
    | nil => simp [hnil, parseStream, streamChunks, ParseResult.append, ParseResult.empty, hleft]
    | cons x xs =>
      rw [stream_block streamReasoning hm.answer hrest]
      simp [ParseResult.append, hleft]

end Sglang.Parser.Cohere
