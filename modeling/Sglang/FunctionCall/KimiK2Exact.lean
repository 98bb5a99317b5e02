import Sglang.FunctionCall.KimiK2Streaming

/-!
# One-Shot and Streaming Parser of Kimi K2

What the one-shot parser finds in a text, and when the streaming parser sends the same.

- `findCalls_render`: the search finds each call,
- `detectAndParse_spec`: the result of the one-shot parser,
- `Agrees`: the two parsers agree on a text and its chunks,
- `stream_agrees_iff`: they do unless an inferred name is empty.
-/

namespace Sglang.FunctionCall.KimiK2

open List Option
open Lib

/-! ## Section 1: The search for calls -/

theorem isSpace_of_isBlank {c : Char} (h : Json.isBlank c = true) : isSpace c = true := by
  simp only [Json.isBlank, Bool.or_eq_true, decide_eq_true_eq] at h
  rcases h with ((rfl | rfl) | rfl) | rfl <;> decide

theorem findCalls_of_cut {s a b : List Char} (h : cut toolCallStartToken s = some (a, b)) :
    findCalls s = findCalls (toolCallStartToken ++ b) := by
  induction s generalizing a with
  | nil =>
    rw [cut_nil (by decide)] at h
    cases h
  | cons c s ih =>
    cases a with
    | nil =>
      rw [cut_eq h]
      rfl
    | cons d a =>
      have hno : ¬ toolCallStartToken <+: c :: s := by
        have hfirst := cut_first h [] (d :: a) rfl (by simp)
        rwa [← cut_eq h] at hfirst
      have hskip : matchToolCall (c :: s) = none := by
        unfold matchToolCall
        rw [if_neg hno]
      have hs : c = d ∧ s = a ++ toolCallStartToken ++ b := by
        have := cut_eq h
        simpa using this
      rw [findCalls]
      split
      · next heq =>
        rw [hskip] at heq
        cases heq
      · apply ih
        rw [hs.2]
        apply cut_of_first
        intro a₁ a₂ ha hne
        exact cut_first h (d :: a₁) a₂ (by rw [ha, cons_append]) hne

theorem findCalls_of_cut_none {s : List Char} (h : cut toolCallStartToken s = none) :
    findCalls s = [] := by
  induction s with
  | nil =>
    rw [findCalls]
    rfl
  | cons c s ih =>
    have hin := cut_eq_none_iff.mp h
    have hskip : matchToolCall (c :: s) = none := by
      unfold matchToolCall
      rw [if_neg fun hpre => hin hpre.isInfix]
    rw [findCalls]
    split
    · next heq =>
      rw [hskip] at heq
      cases heq
    · apply ih
      rw [cut_eq_none_iff]
      intro hs
      exact hin (hs.trans (suffix_cons c s).isInfix)

/-- The arguments end at the last brace before the end of the call. -/
theorem matchClose_spec {s w y : List Char} (hw : ∀ c ∈ w, isSpace c = true)
    (hplain : Plain (s ++ '\x7d' :: w)) :
    matchClose (s ++ '\x7d' :: (w ++ (toolCallEndToken ++ y))) = some (s ++ ['\x7d'], y) := by
  induction s with
  | nil =>
    have hdrop : (w ++ (toolCallEndToken ++ y)).dropWhile isSpace = toolCallEndToken ++ y := by
      rw [dropWhile_append_of_pos hw]
      rfl
    rw [nil_append, matchClose, hdrop, if_pos ⟨rfl, prefix_append _ _⟩, drop_left]
    rfl
  | cons c s ih =>
    have hplain' : Plain (s ++ '\x7d' :: w) := hplain.of_isInfix (suffix_cons c _).isInfix
    -- after an earlier brace there is more than space before the end of the call
    have hno : ¬ toolCallEndToken <+:
        (s ++ '\x7d' :: (w ++ (toolCallEndToken ++ y))).dropWhile isSpace := by
      intro hpre
      have hdrop : (s ++ '\x7d' :: (w ++ (toolCallEndToken ++ y))).dropWhile isSpace =
          s.dropWhile isSpace ++ '\x7d' :: w ++ (toolCallEndToken ++ y) := by
        rw [dropWhile_append]
        split
        · next hnil =>
          rw [List.isEmpty_iff.mp hnil]
          simp [show isSpace '\x7d' = false by decide]
        · simp
      have hsub : Plain (s.dropWhile isSpace ++ '\x7d' :: w) := by
        apply hplain'.of_isInfix
        obtain ⟨u, hu⟩ := dropWhile_suffix (l := s) isSpace
        exact ⟨u, [], by rw [append_nil, ← append_assoc, hu]⟩
      have hcut := cut_plain_append (show toolCallEndToken ∈ specialTokens by decide) hsub
        (.inr rfl : toolCallEndToken ++ y = [] ∨ (toolCallEndToken ++ y).head? = some '<')
      rw [cut_self, ← hdrop] at hcut
      obtain ⟨z, hz⟩ := hpre
      rw [← hz, cut_self] at hcut
      simp at hcut
    rw [cons_append, matchClose, if_neg fun h => hno h.2, ih hplain']
    rfl

theorem matchToolCall_render (c : Call) (y : List Char) :
    matchToolCall (c.render ++ y) = some ((c.id, c.body), y) := by
  obtain ⟨d, id, hid⟩ := exists_cons_of_ne_nil c.id_ne
  obtain ⟨body, hbody⟩ := Json.cons_of_head? c.body_opens
  have hlast : body.getLast? = some '\x7d' := by
    have hcloses := c.body_closes
    rw [hbody] at hcloses
    cases body with
    | nil => exact absurd hcloses (by decide)
    | cons e body => rwa [getLast?_cons_cons] at hcloses
  obtain ⟨inner, hinner⟩ := getLast?_eq_some_iff.mp hlast
  have hrender : c.render ++ y = toolCallStartToken ++ (c.idBefore ++ (c.id ++ (c.idAfter ++
      (toolCallArgumentBeginToken ++ (c.bodyBefore ++ ('\x7b' :: (inner ++ '\x7d' :: (c.bodyAfter ++
        (toolCallEndToken ++ y))))))))) := by
    simp [Call.render, Call.header, Call.args, hbody, hinner]
  have hbefore : ∀ z, (c.idBefore ++ (c.id ++ z)).dropWhile isSpace = c.id ++ z := by
    intro z
    have hd : isSpace d = false := (c.id_chars d (by rw [hid]; simp)).1
    rw [dropWhile_append_of_pos c.idBefore_space, hid, cons_append, dropWhile_cons, hd]
    rfl
  have hafter : ∀ z, (c.idAfter ++ (toolCallArgumentBeginToken ++ z)).dropWhile isSpace =
      toolCallArgumentBeginToken ++ z := by
    intro z
    rw [dropWhile_append_of_pos c.idAfter_space]
    rfl
  have htake : ∀ z, (c.id ++ (c.idAfter ++ (toolCallArgumentBeginToken ++ z))).takeWhile
      (fun c => !isSpace c && c ≠ '<' && c ≠ '|') = c.id := by
    intro z
    have hall : ∀ e ∈ c.id, (!isSpace e && e ≠ '<' && e ≠ '|') = true := by
      intro e he
      simp [c.id_chars e he]
    rw [takeWhile_append_of_pos hall]
    cases hw : c.idAfter with
    | nil =>
      rw [nil_append, show toolCallArgumentBeginToken ++ z = '<' ::
        (toolCallArgumentBeginToken.tail ++ z) from rfl, takeWhile_cons]
      simp
    | cons e w =>
      have he : isSpace e = true := c.idAfter_space e (by rw [hw]; simp)
      rw [cons_append, takeWhile_cons, he]
      simp
  have hopen : ∀ z, (c.bodyBefore ++ '\x7b' :: z).dropWhile isSpace = '\x7b' :: z := by
    intro z
    rw [dropWhile_append_of_pos fun e he => isSpace_of_isBlank (c.bodyBefore_blank e he)]
    rfl
  have hclose := @matchClose_spec inner c.bodyAfter y
    (fun e he => isSpace_of_isBlank (c.bodyAfter_blank e he))
    (c.plain.of_isInfix ⟨c.bodyBefore ++ ['\x7b'], [], by simp [hbody, hinner]⟩)
  rw [hrender]
  unfold matchToolCall
  rw [if_pos (prefix_append _ _), drop_left, hbefore]
  dsimp only
  rw [htake, drop_left, hafter, if_pos ⟨c.id_ne, prefix_append _ _⟩, drop_left, hopen,
    hbody, hinner]
  exact congrArg (Option.map fun r => ((c.id, '\x7b' :: r.1), r.2)) hclose

theorem findCalls_tail (cs : List (Call × List Char)) : ∀ {w : List Char},
    (∀ c ∈ w, isSpace c = true) → (∀ cw ∈ cs, ∀ c ∈ cw.2, isSpace c = true) →
    findCalls (w ++ tail cs) = cs.map fun cw => (cw.1.id, cw.1.body) := by
  induction cs with
  | nil =>
    intro w hw _
    apply findCalls_of_cut_none
    rw [tail, cut_plain_append (by decide) (plain_of_space hw) (.inr rfl),
      show cut toolCallStartToken eotToken = none by decide]
    rfl
  | cons cw cs ih =>
    intro w hw hcs
    obtain ⟨c, w'⟩ := cw
    have hrender : tail ((c, w') :: cs) = toolCallStartToken ++ (c.rest ++ (w' ++ tail cs)) := by
      simp [tail, Call.render, Call.rest]
    have hcut : cut toolCallStartToken (w ++ tail ((c, w') :: cs)) =
        some (w, c.rest ++ (w' ++ tail cs)) := by
      rw [hrender, cut_plain_append (by decide) (plain_of_space hw) (.inr rfl), cut_self]
      simp
    rw [findCalls_of_cut hcut, ← hrender, findCalls]
    split
    · next call rest heq =>
      rw [tail, matchToolCall_render] at heq
      cases heq
      rw [map_cons, ih (hcs _ (mem_cons_self ..)) fun cw hcw =>
        hcs cw (mem_cons_of_mem _ hcw)]
    · next heq =>
      rw [tail, matchToolCall_render] at heq
      cases heq

theorem findCalls_render (t : Text) :
    findCalls t.render = t.calls.map fun cw => (cw.1.id, cw.1.body) := by
  have htail := findCalls_tail t.calls t.space_space t.calls_space
  have hcut : cut toolCallStartToken t.render =
    (cut toolCallStartToken (t.space ++ tail t.calls)).map
      fun r => (t.normal ++ (botToken ++ r.1), r.2) := by
    rw [Text.render, cut_plain_append (by decide) t.normal_plain (.inr rfl),
      cut_token_append (by decide) (by decide) (by decide), Option.map_map]
    rfl
  cases h : cut toolCallStartToken (t.space ++ tail t.calls) with
  | none =>
    rw [h] at hcut
    rw [← htail, findCalls_of_cut_none hcut, findCalls_of_cut_none h]
  | some r =>
    rw [h] at hcut
    rw [← htail, findCalls_of_cut hcut, findCalls_of_cut h]

/-! ## Section 2: The result of the one-shot parser -/

section Names

variable {cls : CharClasses} {tools : List ToolSchema}

theorem inferToolName_body (c : Call) :
    inferToolName tools c.args = inferToolName tools c.body := by
  have hkeys : argKeys c.args = argKeys c.body := by
    simp [argKeys, args_loads, c.body_loads]
  have hbody : c.body ≠ [] := by
    intro hnil
    have hopens := c.body_opens
    rw [hnil] at hopens
    cases hopens
  have hargs : c.args ≠ [] := by
    intro hnil
    exact hbody (append_eq_nil_iff.mp (append_eq_nil_iff.mp hnil).1).2
  unfold inferToolName
  split
  · rfl
  · rfl
  · rw [if_neg hargs, if_neg hbody, hkeys]

variable (cls tools) in
/-- A bare counter whose inferred name is empty. -/
def Call.Unnamed (c : Call) : Prop :=
  matchToolCallId cls c.id = none ∧ isCounter cls c.id = true ∧ inferToolName tools c.body = some []

variable (cls tools) in
/-- The name of a call for the one-shot parser. -/
def Call.parsedName (c : Call) : Option (List Char) := parseToolCallId cls c.id tools c.body

theorem Call.parsedName_of_unnamed {c : Call} (h : c.Unnamed cls tools) :
    c.parsedName cls tools = none ∧ c.name cls tools = some [] := by
  obtain ⟨hid, hcounter, hinfer⟩ := h
  constructor
  · simp [Call.parsedName, parseToolCallId, hid, hcounter, hinfer]
  · simp [Call.name, resolveFunctionName, c.id_ne, hid, hcounter, inferToolName_body, hinfer]

theorem Call.parsedName_eq {c : Call} (h : ¬ c.Unnamed cls tools) :
    c.parsedName cls tools = c.name cls tools := by
  unfold Call.parsedName Call.name parseToolCallId resolveFunctionName
  rw [if_neg c.id_ne, inferToolName_body]
  split
  · rfl
  · next hid =>
    split
    · next hcounter =>
      cases hname : inferToolName tools c.body with
      | none => rfl
      | some name =>
        have hne : name ≠ [] := by
          rintro rfl
          exact h ⟨hid, hcounter, hname⟩
        simp [hne]
    · rfl

variable (cls tools) in
/-- The calls that the one-shot parser gives. -/
def parsed (cs : List (Call × List Char)) : List (List Char × List Char) :=
  cs.filterMap fun cw => (cw.1.parsedName cls tools).map fun name => (name, cw.1.body)

theorem numberCalls_map (cs : List (Call × List Char)) (i : Nat) :
    numberCalls cls tools i (cs.map fun cw => (cw.1.id, cw.1.body)) =
      numbered i (parsed cls tools cs) := by
  induction cs generalizing i with
  | nil => rfl
  | cons cw cs ih =>
    rw [map_cons, numberCalls]
    cases hname : parseToolCallId cls cw.1.id tools cw.1.body with
    | none =>
      have hparsed : parsed cls tools (cw :: cs) = parsed cls tools cs := by
        simp [parsed, Call.parsedName, hname]
      rw [hparsed]
      exact ih i
    | some name =>
      have hparsed : parsed cls tools (cw :: cs) = (name, cw.1.body) :: parsed cls tools cs := by
        simp [parsed, Call.parsedName, hname]
      rw [hparsed, numbered, zipIdx_cons, map_cons]
      exact congrArg _ (ih (i + 1))

/-- The normal text is the text before the section, and each call is an item. -/
theorem detectAndParse_spec (t : Text) :
    detectAndParse cls tools t.render = ⟨t.normal, numbered 0 (parsed cls tools t.calls)⟩ := by
  have hfind : find botToken t.render = some t.normal.length := by
    rw [Text.render, find_plain_append (by decide) t.normal_plain (.inr rfl), find_self]
    rfl
  have htake : t.render.take t.normal.length = t.normal := by rw [Text.render, take_left]
  simp only [detectAndParse, hfind, htake, findCalls_render, numberCalls_map]

/-! ## Section 3: Agreement -/

variable (cls tools) in
/-- The streaming parser sends what the one-shot parser gives: the same names under the indexes
`0, 1, …`, each once, the same arguments up to the space around them, and the same text before the
section. No special token is put out. -/
structure Agrees (t : Text) (chunks : List (List Char)) : Prop where
  calls : ∃ calls, Sends 0 calls (streamChunks cls tools State.new chunks).1.calls ∧
    List.Forall₂ (fun call (item : ToolCallItem) => item.name = some call.1 ∧
      strip call.2 = strip item.parameters) calls (detectAndParse cls tools t.render).calls
  text : (streamChunks cls tools State.new chunks).1.normalText =
    (detectAndParse cls tools t.render).normalText ++ (t.space ++ spaces t.calls)
  text_plain : Plain (streamChunks cls tools State.new chunks).1.normalText
  arguments_plain : ∀ item ∈ (streamChunks cls tools State.new chunks).1.calls,
    Plain item.parameters

theorem strip_args (c : Call) : strip c.args = strip c.body := by
  have hopen : ∀ d, c.body.head? = some d → isSpace d = false := by
    intro d hd
    rw [c.body_opens, Option.some.injEq] at hd
    rw [← hd]
    decide
  have hclose : ∀ d, c.body.getLast? = some d → isSpace d = false := by
    intro d hd
    rw [c.body_closes, Option.some.injEq] at hd
    rw [← hd]
    decide
  have hne : c.body ≠ [] := by
    intro hnil
    have := c.body_opens
    rw [hnil] at this
    cases this
  have hbody := @strip_between [] c.body [] hne (by simp) (by simp) hopen hclose
  rw [nil_append, append_nil] at hbody
  rw [hbody]
  exact strip_between hne (fun e he => isSpace_of_isBlank (c.bodyBefore_blank e he))
    (fun e he => isSpace_of_isBlank (c.bodyAfter_blank e he)) hopen hclose

theorem forall₂_named {cs : List (Call × List Char)} (h : ∀ cw ∈ cs, ¬ cw.1.Unnamed cls tools)
    (i : Nat) : List.Forall₂ (fun call (item : ToolCallItem) => item.name = some call.1 ∧
      strip call.2 = strip item.parameters) (named cls tools cs)
      (numbered i (parsed cls tools cs)) := by
  induction cs generalizing i with
  | nil => exact .nil
  | cons cw cs ih =>
    have hparsed := Call.parsedName_eq (h cw (mem_cons_self ..))
    have ih := ih fun cw hcw => h cw (mem_cons_of_mem _ hcw)
    cases hname : cw.1.name cls tools with
    | none =>
      rw [hname] at hparsed
      simp only [named, parsed, filterMap_cons, hname, hparsed, map_none]
      exact ih i
    | some name =>
      rw [hname] at hparsed
      simp only [named, parsed, filterMap_cons, hname, hparsed, map_some]
      rw [numbered, zipIdx_cons, map_cons]
      exact .cons ⟨rfl, strip_args cw.1⟩ (ih (i + 1))

theorem parsed_length_le (cs : List (Call × List Char)) :
    (parsed cls tools cs).length ≤ (named cls tools cs).length := by
  induction cs with
  | nil => exact le_rfl
  | cons cw cs ih =>
    by_cases h : cw.1.Unnamed cls tools
    · obtain ⟨hparsed, hname⟩ := Call.parsedName_of_unnamed h
      simp only [named, parsed, filterMap_cons, hname, hparsed, map_none, map_some,
        length_cons]
      exact ih.trans (Nat.le_succ _)
    · have hparsed := Call.parsedName_eq h
      cases hname : cw.1.name cls tools with
      | none =>
        rw [hname] at hparsed
        simpa only [named, parsed, filterMap_cons, hname, hparsed, map_none] using ih
      | some name =>
        rw [hname] at hparsed
        simpa only [named, parsed, filterMap_cons, hname, hparsed, map_some,
          length_cons, Nat.add_le_add_iff_right] using ih

theorem parsed_length_lt {cs : List (Call × List Char)} {cw : Call × List Char} (hcw : cw ∈ cs)
    (h : cw.1.Unnamed cls tools) :
    (parsed cls tools cs).length < (named cls tools cs).length := by
  obtain ⟨before, after, rfl⟩ := append_of_mem hcw
  obtain ⟨hparsed, hname⟩ := Call.parsedName_of_unnamed h
  have hbefore := @parsed_length_le cls tools before
  have hafter := @parsed_length_le cls tools after
  simp only [named, parsed, filterMap_append, filterMap_cons, hname, hparsed,
    map_none, map_some, length_append, length_cons] at hbefore hafter ⊢
  omega

theorem not_agrees_of_unnamed {t : Text} {chunks : List (List Char)}
    (htext : chunks.flatten = t.render) (hwhole : Whole chunks) {cw : Call × List Char}
    (hcw : cw ∈ t.calls) (h : cw.1.Unnamed cls tools) : ¬ Agrees cls tools t chunks := by
  rintro ⟨⟨calls, hsends, hforall⟩, _, _, _⟩
  obtain ⟨_, hnamed, _⟩ := stream_spec cls tools t htext hwhole
  have hlt := parsed_length_lt hcw h
  have hcalls : calls.length = (named cls tools t.calls).length := by
    rw [← hsends.length, hnamed.length]
  rw [detectAndParse_spec] at hforall
  have hlen := hforall.length_eq
  rw [numbered, length_map, length_zipIdx] at hlen
  omega

/-- The streaming parser sends what the one-shot parser gives if and only if no inferred name is
empty. -/
theorem stream_agrees_iff (cls : CharClasses) (tools : List ToolSchema) (t : Text)
    (chunks : List (List Char)) (htext : chunks.flatten = t.render) (hwhole : Whole chunks) :
    Agrees cls tools t chunks ↔ ∀ cw ∈ t.calls, ¬ cw.1.Unnamed cls tools := by
  constructor
  · intro h cw hcw hun
    exact not_agrees_of_unnamed htext hwhole hcw hun h
  · intro h
    obtain ⟨hnormal, hsends, _⟩ := stream_spec cls tools t htext hwhole
    have hspace : ∀ c ∈ t.space ++ spaces t.calls, isSpace c = true := by
      intro c hc
      rcases mem_append.mp hc with hc | hc
      · exact t.space_space c hc
      · obtain ⟨cw, hcw, hin⟩ := mem_flatMap.mp hc
        exact t.calls_space cw hcw c hin
    refine ⟨⟨_, hsends, ?_⟩, ?_, ?_, ?_⟩
    · rw [detectAndParse_spec]
      exact forall₂_named h 0
    · rw [hnormal, detectAndParse_spec]
    · rw [hnormal]
      exact t.normal_plain.append_space hspace
    · intro item hitem
      obtain ⟨call, hcall, hin⟩ := hsends.infix_args item hitem
      obtain ⟨cw, _, hcw⟩ := mem_filterMap.mp hcall
      obtain ⟨name, _, rfl⟩ := map_eq_some_iff.mp hcw
      exact cw.1.args_plain.of_isInfix hin

/-! ## Section 4: Texts where they agree and where they do not -/

def asciiClasses : CharClasses := ⟨fun c => c.isAlphanum || c = '_', Char.isDigit⟩

def emptyCall (id : List Char) (hne : id ≠ [])
    (hchars : ∀ c ∈ id, isSpace c = false ∧ c ≠ '<' ∧ c ≠ '|') : Call where
  id := id
  idBefore := []
  idAfter := []
  body := "\x7b\x7d".toList
  bodyBefore := []
  bodyAfter := []
  members := []
  id_ne := hne
  id_chars := hchars
  idBefore_space := by simp
  idAfter_space := by simp
  body_opens := by decide
  body_closes := by decide
  body_loads := by rfl
  bodyBefore_blank := by simp
  bodyAfter_blank := by simp
  plain := plain_of_not_mem (by decide)

/-- A section of one call after the text `ok`. -/
def oneCall (c : Call) : Text := ⟨"ok".toList, [], [(c, [])], plain_of_not_mem (by decide), by simp,
  by simp⟩

theorem whole_one (chunk : List Char) : Whole [chunk] := by
  rintro before after h ⟨p, _, a, b, ha, hb, _, hsuf, hpre⟩
  cases before with
  | nil => exact ha (suffix_nil.mp hsuf)
  | cons c before =>
    rw [cons_append, List.cons.injEq] at h
    rw [(append_eq_nil_iff.mp h.2.symm).2] at hpre
    exact hb (prefix_nil.mp hpre)

/-- The call `0` of a tool without a name: the streaming parser sends it, the one-shot parser does
not give it. -/
theorem empty_name_disagrees :
    ¬ Agrees asciiClasses [⟨[], []⟩]
      (oneCall (emptyCall "0".toList (by decide) (by simp [isSpace])))
      [(oneCall (emptyCall "0".toList (by decide) (by simp [isSpace]))).render] := by
  apply not_agrees_of_unnamed (append_nil _) (whole_one _) (mem_cons_self ..)
  exact ⟨by decide, by decide, rfl⟩

/-- The call `functions.f:0`. -/
theorem named_call_agrees :
    Agrees asciiClasses [⟨"f".toList, []⟩]
      (oneCall (emptyCall "functions.f:0".toList (by decide) (by simp [isSpace])))
      [(oneCall (emptyCall "functions.f:0".toList (by decide) (by simp [isSpace]))).render] := by
  rw [stream_agrees_iff _ _ _ _ (append_nil _) (whole_one _)]
  intro cw hcw
  rw [mem_singleton.mp hcw]
  rintro ⟨hid, _, _⟩
  exact absurd hid (by decide)

end Names

end Sglang.FunctionCall.KimiK2
