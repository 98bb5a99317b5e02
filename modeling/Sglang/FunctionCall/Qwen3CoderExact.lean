import Sglang.FunctionCall.Qwen3CoderFormat
import Sglang.FunctionCall.Qwen3CoderStreaming

/-!
# One-Shot and Streaming Parser of Qwen3 Coder

What the streaming parser puts out over a text, and when the two parsers agree and recover the
calls.

- `loop_call`: one block,
- `loop_calls`: a text,
- `Recovers`: both parsers give the text in front and the calls,
- `recovers_iff`: when they do.
-/

namespace Sglang.FunctionCall.Qwen3Coder

open List
open Lib

section Steps

variable {V : Type} {lib : PyLib V} {tools : Option (List Tool)}

/-! ## Section 1: Text -/

theorem State.text_append (st : State) (a b : List Char) :
    st.text (a ++ b) = st.text a + st.text b := by
  simp only [State.text, StreamingParseResult.add_def, append_nil]
  split <;> rfl

theorem loop_angle {st : State} {s : List Char} (hno : ∀ q ∈ takenTags, ¬ q <+: '<' :: s)
    (htag : ∀ q ∈ possibleTags, ¬ '<' :: s <+: q) :
    (cursor lib tools).loop st ('<' :: s) =
      ((cursor lib tools).loop st s).prepend (st.text "<".toList) := by
  have hfind : find "<".toList ('<' :: s) = some 0 := by
    rw [find_eq_cut, show '<' :: s = "<".toList ++ s from rfl, cut_self]
    rfl
  have hany : ¬ (possibleTags.any fun tag => '<' :: s <+: tag) = true := by
    rw [any_eq_true]
    rintro ⟨q, hq, hpre⟩
    exact htag q hq (by simpa using hpre)
  have hstep : (cursor lib tools).step st ('<' :: s) = .go (st.text "<".toList) st 1 := by
    change step lib tools st ('<' :: s) = _
    rw [step_other (by simp) hno, textStep, hfind]
    dsimp only
    rw [if_neg hany]
  exact Cursor.loop_go hstep

theorem loop_lead {st : State} {x z : List Char} (hx : TagFree x) (hz : z.head? = some '<') :
    (cursor lib tools).loop st (x ++ z) =
      ((cursor lib tools).loop st z).prepend (st.text x) := by
  induction x with
  | nil =>
    have hzero : st.text [] = 0 := by simp [State.text]
    rw [hzero, Stop.prepend_zero]
    rfl
  | cons c x ih =>
    have hx' : TagFree x := fun p hp hin => hx p hp (hin.trans (suffix_cons c x).isInfix)
    have hone : (cursor lib tools).loop st (c :: (x ++ z)) =
        ((cursor lib tools).loop st (x ++ z)).prepend (st.text [c]) := by
      by_cases hc : c = '<'
      · subst hc
        obtain ⟨z, rfl⟩ := Json.cons_of_head? hz
        apply loop_angle
        · intro q hq hpre
          have hmem := takenTags_possible q hq
          exact (led_of_mem q hmem).not_isPrefix (hx q hmem) [] ('<' :: x) rfl (by simp) hpre
        · -- a tag has one `<` only
          intro q hq hpre
          obtain ⟨r, rfl, hr⟩ := led_of_mem q hq
          obtain ⟨u, hu⟩ := hpre
          apply hr
          rw [← (List.cons.inj hu).2]
          simp
      · have htext := @loop_text V lib tools st [c] (by simp [Ne.symm hc]) (x ++ z)
        exact htext
    rw [cons_append, hone, ih hx', Stop.prepend_prepend, ← State.text_append]
    rfl

def Settled (x : List Char) : Prop := ∀ p ∈ possibleTags, ∀ a, a ≠ [] → a <+: p → ¬ a <:+ x

theorem loop_end {st : State} {x : List Char} (hx : TagFree x) : ∃ a kept, a ++ kept = x ∧
    (cursor lib tools).loop st x = ⟨st.text a, st, kept, false⟩ ∧ (kept = [] ↔ Settled x) := by
  induction x with
  | nil =>
    refine ⟨[], [], rfl, ?_, ?_⟩
    · rw [loop_nil]
      simp [State.text]
    · refine ⟨fun _ p _ a ha _ hsuf => ha (suffix_nil.mp hsuf), fun _ => rfl⟩
  | cons c x ih =>
    have hx' : TagFree x := fun p hp hin => hx p hp (hin.trans (suffix_cons c x).isInfix)
    obtain ⟨a, kept, hsplit, hloop, hkept⟩ := ih hx'
    by_cases hwait : c = '<' ∧ ∃ q ∈ possibleTags, c :: x <+: q
    · obtain ⟨rfl, q, hq, hpre⟩ := hwait
      have hno : ∀ q ∈ takenTags, ¬ q <+: '<' :: x := fun q hq hpre =>
        hx q (takenTags_possible q hq) hpre.isInfix
      have hfind : find "<".toList ('<' :: x) = some 0 := by
        rw [find_eq_cut, show '<' :: x = "<".toList ++ x from rfl, cut_self]
        rfl
      have hstep : (cursor lib tools).step st ('<' :: x) = .wait := by
        change step lib tools st ('<' :: x) = _
        rw [step_other (by simp) hno, textStep, hfind]
        dsimp only
        rw [if_pos]
        rw [any_eq_true]
        exact ⟨q, hq, by simpa using hpre⟩
      refine ⟨[], '<' :: x, rfl, ?_, ?_⟩
      · rw [Cursor.loop_wait hstep]
        simp [State.text]
      · refine ⟨fun h => absurd h (by simp), fun h => ?_⟩
        exact absurd suffix_rfl (h q hq _ (by simp) hpre)
    · have hone : (cursor lib tools).loop st (c :: x) =
          ((cursor lib tools).loop st x).prepend (st.text [c]) := by
        by_cases hc : c = '<'
        · subst hc
          apply loop_angle
          · exact fun q hq hpre => hx q (takenTags_possible q hq) hpre.isInfix
          · exact fun q hq hpre => hwait ⟨rfl, q, hq, hpre⟩
        · exact @loop_text V lib tools st [c] (by simp [Ne.symm hc]) x
      refine ⟨c :: a, kept, by rw [cons_append, hsplit], ?_, ?_⟩
      · rw [hone, hloop, show c :: a = [c] ++ a from rfl, State.text_append]
        rfl
      · rw [hkept]
        constructor
        · intro h p hp b hb hpre hsuf
          rcases suffix_cons_iff.mp hsuf with rfl | hsuf
          · obtain ⟨r, rfl, _⟩ := led_of_mem p hp
            have hc : c = '<' := (cons_prefix_cons.mp hpre).1
            exact hwait ⟨hc, _, hp, hpre⟩
          · exact h p hp b hb hpre hsuf
        · intro h p hp b hb hpre hsuf
          exact h p hp b hb hpre (hsuf.trans (suffix_cons c x))

/-! ## Section 2: Tags -/

theorem loop_step {st next : State} {s : List Char} {out : StreamingParseResult} {n : Nat}
    (h : step lib tools st s = .go out next n) : (cursor lib tools).loop st s =
      ((cursor lib tools).loop next (s.drop n)).prepend out :=
  Cursor.loop_go h

theorem loop_toolCallStart (st : State) (z : List Char) :
    (cursor lib tools).loop st (toolCallStartToken ++ z) =
      (cursor lib tools).loop { st with isInsideToolCall := true } z := by
  have hstep := @step_toolCallStart V lib tools st _ (prefix_append toolCallStartToken z)
  rw [loop_step hstep, drop_left, Stop.prepend_zero]

theorem loop_toolCallEnd (st : State) (z : List Char) :
    (cursor lib tools).loop st (toolCallEndToken ++ z) =
      (cursor lib tools).loop { st with isInsideToolCall := false } z := by
  have hstep := @step_toolCallEnd V lib tools st _ (prefix_append toolCallEndToken z)
  rw [loop_step hstep, drop_left, Stop.prepend_zero]

theorem loop_newline {st : State} (h : st.isInsideToolCall = true) (z : List Char) :
    (cursor lib tools).loop st ("\n".toList ++ z) = (cursor lib tools).loop st z := by
  have hzero : st.text "\n".toList = 0 := by simp [State.text, h]
  rw [loop_text (by decide), hzero, Stop.prepend_zero]

theorem loop_function {name : List Char} (hname : '>' ∉ name) (st : State) (z : List Char) :
    (cursor lib tools).loop st (toolCallPrefix ++ (name ++ (">".toList ++ z))) =
      ((cursor lib tools).loop { st with
        currentToolId := st.currentToolId + 1
        currentToolNameSent := true
        currentToolParamCount := 0
        jsonStarted := false
        currentFuncName := some name } z).prepend
          ⟨[], [⟨st.currentToolId + 1, some name, []⟩]⟩ := by
  have hcut : cut ">".toList (toolCallPrefix ++ (name ++ (">".toList ++ z))) =
      some (toolCallPrefix ++ name, z) := by
    have hnot : '>' ∉ toolCallPrefix := by decide
    rw [← List.append_assoc]
    exact cut_angle (by simp [hnot, hname]) z
  obtain ⟨htake, _, hdrop⟩ := drop_cut hcut
  have hstep := @step_function V lib tools st _
    (prefix_append toolCallPrefix (name ++ (">".toList ++ z)))
  rw [functionStep, find_of_cut hcut] at hstep
  dsimp only at hstep
  rw [htake, drop_left] at hstep
  rw [loop_step hstep]
  rw [show ">".toList.length = 1 from rfl] at hdrop
  rw [hdrop]

theorem bestCand_tag {x : List Char} (hx : ∀ p ∈ parameterEnds, ¬ p <:+: x) (z : List Char) :
    bestCand (x ++ (parameterEndToken ++ z)) = some (x.length, parameterEndToken.length) := by
  have hends : ∀ e ∈ valueEnds, e.1 ∈ parameterEnds ∧ e.1 ∈ possibleTags := by decide
  have hfind : find parameterEndToken (x ++ (parameterEndToken ++ z)) = some x.length :=
    find_of_cut (cut_tag (by decide) (hx _ (by decide)) z)
  rw [bestCand_eq]
  apply minByPosition_of_first
  · rw [mem_candidates]
    exact ⟨_, mem_cons_self .., hfind, rfl⟩
  · intro c hc hne
    obtain ⟨e, he, hpos, hlen⟩ := mem_candidates.mp hc
    obtain ⟨hend, htag⟩ := hends e he
    by_cases hsame : e.1 = parameterEndToken
    · -- the same tag gives the same candidate
      rw [hsame, hfind, Option.some.injEq] at hpos
      have heq : e = (parameterEndToken, parameterEndToken.length) :=
        valueEnds_apart e he _ (mem_cons_self ..) (by rw [hsame])
      rw [heq] at hlen
      exact absurd (Prod.ext hpos.symm hlen) hne
    · rw [find_eq_cut, (led_of_mem e.1 htag).cut_append (hx _ hend) (.inr rfl)] at hpos
      cases hcut : cut e.1 (parameterEndToken ++ z) with
      | none =>
        rw [hcut] at hpos
        cases hpos
      | some r =>
        rw [hcut] at hpos
        simp only [Option.map_some, Option.some.injEq] at hpos
        rw [← hpos, length_append]
        have hr : r.1 ≠ [] := by
          intro hnil
          have hpre : e.1 <+: parameterEndToken ++ z := by
            rw [cut_eq hcut, hnil]
            exact prefix_append _ _
          have hapart : ∀ e ∈ valueEnds, e.1 ≠ parameterEndToken →
              ¬ parameterEndToken <+: e.1 ∧ ¬ e.1 <+: parameterEndToken := by decide
          obtain ⟨h₁, h₂⟩ := hapart e he hsame
          exact not_prefix_of_isPrefix (prefix_append _ _) h₁ h₂ hpre
        have := length_pos_of_ne_nil hr
        omega

section

variable {name : List Char} {st : State} (hlib : Lawful lib) (hst : st.currentFuncName = some name)
  (q : Param lib (getArgumentsConfig (some name) tools))
include hlib hst q

theorem fragment_param :
    fragment lib tools st q.name ("\n".toList ++ (q.value ++ "\n".toList)) =
      some (if st.currentToolParamCount > 0 then ", ".toList ++ (q.member true).render
        else (q.member true).render) := by
  unfold fragment
  rw [cleanup_wrapped, hst, convert_param hlib q]
  simp only [Option.bind_eq_bind, Option.bind_some, hlib.dumps_str, hlib.dumpsAscii_eq]
  rfl

theorem loop_parameter
    (z : List Char) :
    (cursor lib tools).loop st (parameterPrefix ++ (q.raw ++ (parameterEndToken ++ z))) =
      ((cursor lib tools).loop { st with
        jsonStarted := true
        currentToolParamCount := st.currentToolParamCount + 1 } z).prepend
          ⟨[], st.opening ++ [st.item
            (if st.currentToolParamCount > 0 then ", ".toList ++ (q.member true).render
              else (q.member true).render)]⟩ := by
  have hslice : parameterPrefix ++ (q.raw ++ (parameterEndToken ++ z)) = parameterPrefix ++
    (q.name ++
      (">".toList ++ ("\n".toList ++ (q.value ++ "\n".toList) ++ (parameterEndToken ++ z)))) := by
    simp only [Param.raw, List.append_assoc]
  have hcut : cut ">".toList (parameterPrefix ++ (q.raw ++ (parameterEndToken ++ z))) =
      some (parameterPrefix ++ q.name,
        "\n".toList ++ (q.value ++ "\n".toList) ++ (parameterEndToken ++ z)) := by
    have hnot : '>' ∉ parameterPrefix := by decide
    rw [hslice, ← List.append_assoc]
    exact cut_angle (by simp [hnot, q.name_angle]) _
  have hfree : ∀ p ∈ parameterEnds, ¬ p <:+: "\n".toList ++ (q.value ++ "\n".toList) := by
    have htags : ∀ p ∈ parameterEnds, p ∈ possibleTags := by decide
    have hnil : ∀ p ∈ parameterEnds, ¬ p <:+: [] := by decide
    intro p hp hin
    have hnew := newline_not_mem p (htags p hp)
    rcases @infix_append_cons p [] (q.value ++ '\n' :: []) '\n' hnew hin with hin | hin
    · exact hnil p hp hin
    rcases infix_append_cons hnew hin with hin | hin
    · exact q.value_free p (htags p hp) hin
    · exact hnil p hp hin
  obtain ⟨htake, _, hdrop⟩ := drop_cut hcut
  rw [show ">".toList.length = 1 from rfl] at hdrop
  have hstep := @step_parameter V lib tools st _
    (prefix_append parameterPrefix (q.raw ++ (parameterEndToken ++ z)))
  rw [parameterStep, find_of_cut hcut] at hstep
  dsimp only at hstep
  rw [hdrop, bestCand_tag hfree] at hstep
  dsimp only at hstep
  rw [htake, drop_left, take_left, fragment_param hlib hst] at hstep
  rw [loop_step hstep, Nat.add_assoc, ← drop_drop, hdrop, ← drop_drop, drop_left,
    drop_left]

end

theorem loop_functionEnd (st : State) (z : List Char) :
    (cursor lib tools).loop st (functionEndToken ++ z) =
      ((cursor lib tools).loop { st with jsonStarted := true, currentFuncName := none } z).prepend
        ⟨[], st.opening ++ [st.item "\x7d".toList]⟩ := by
  have hstep := @step_functionEnd V lib tools st _ (prefix_append functionEndToken z)
  rw [loop_step hstep, drop_left]

/-! ## Section 3: One block -/

/-- The text of the members that is still to be sent. -/
def restText (started : Bool) (ms : List (List Char)) : List Char :=
  if started then
    match ms with
    | [] => ['\x7d']
    | m :: ms => ", ".toList ++ Json.membersText (m :: ms)
  else '\x7b' :: Json.membersText ms

theorem loop_params (hlib : Lawful lib) {name : List Char}
    (ps : List (Param lib (getArgumentsConfig (some name) tools))) : ∀ {st : State} (z : List Char),
    st.currentFuncName = some name → st.isInsideToolCall = true →
    (st.currentToolParamCount > 0 ↔ st.jsonStarted = true) →
    ∃ (fragments : List (List Char)) (st' : State), st'.isInsideToolCall = true ∧
      st'.currentToolId = st.currentToolId ∧
      fragments.flatten =
        restText st.jsonStarted ((ps.map (Param.member true)).map Json.Member.render) ∧
      (cursor lib tools).loop st (ps.flatMap Param.render ++ (functionEndToken ++ z)) =
        ((cursor lib tools).loop st' z).prepend
          ⟨[], fragments.map fun a => ⟨st.currentToolId, none, a⟩⟩ := by
  -- the induction is on the parameters; the first fragment opens the object
  induction ps with
  | nil =>
    intro st z hname hinside hcount
    rw [flatMap_nil, nil_append, loop_functionEnd]
    cases hstarted : st.jsonStarted with
    | false =>
      refine ⟨["\x7b".toList, "\x7d".toList],
        { st with jsonStarted := true, currentFuncName := none },
        hinside, rfl, by rfl, ?_⟩
      simp [State.opening, State.item, hstarted]
    | true =>
      refine ⟨["\x7d".toList],
        { st with jsonStarted := true, currentFuncName := none }, hinside, rfl,
        by rfl, ?_⟩
      simp [State.opening, State.item, hstarted]
  | cons q ps ih =>
    intro st z hname hinside hcount
    have hrender : (q :: ps).flatMap Param.render ++ (functionEndToken ++ z) = parameterPrefix ++
        (q.raw ++ (parameterEndToken ++ ("\n".toList ++ (ps.flatMap Param.render ++
          (functionEndToken ++ z))))) := by
      simp only [flatMap_cons, Param.render, List.append_assoc]
    set next : State := { st with
      jsonStarted := true, currentToolParamCount := st.currentToolParamCount + 1 } with hnext
    obtain ⟨fragments, st', hinside', hid, hflat, hloop⟩ :=
      @ih next z hname hinside (by simp [hnext])
    have hinside_next : next.isInsideToolCall = true := hinside
    rw [hrender, loop_parameter hlib hname, ← hnext, loop_newline hinside_next, hloop,
      Stop.prepend_prepend]
    have hmember : Json.membersText ((q.member true).render ::
        (ps.map (Param.member true)).map Json.Member.render) = (q.member true).render ++
          restText true ((ps.map (Param.member true)).map Json.Member.render) := by
      cases ps <;> simp [Json.membersText, restText]
    cases hstarted : st.jsonStarted with
    | false =>
      have hzero : ¬ st.currentToolParamCount > 0 := by
        rw [hcount, hstarted]
        decide
      refine ⟨"\x7b".toList :: (q.member true).render :: fragments, st', hinside', hid, ?_, ?_⟩
      · rw [flatten_cons, flatten_cons, hflat, map_cons, map_cons, restText,
          if_neg (by decide), hmember]
        rfl
      · simp only [State.opening, State.item, hstarted, if_neg hzero]
        rfl
    | true =>
      have hpos : st.currentToolParamCount > 0 := hcount.mpr hstarted
      refine ⟨(", ".toList ++ (q.member true).render) :: fragments, st', hinside', hid, ?_, ?_⟩
      · rw [flatten_cons, hflat, map_cons, map_cons, restText, if_pos rfl]
        rw [hmember, List.append_assoc]
      · simp only [State.opening, State.item, hstarted, if_pos hpos]
        rfl

theorem loop_call (hlib : Lawful lib) (c : Call lib tools) (st : State) (z : List Char) :
    ∃ (fragments : List (List Char)) (st' : State), st'.isInsideToolCall = false ∧
      st'.currentToolId = st.currentToolId + 1 ∧ fragments.flatten = c.dumps true ∧
      (cursor lib tools).loop st (c.render ++ z) = ((cursor lib tools).loop st' z).prepend
        ⟨c.sep, ⟨st.currentToolId + 1, some c.name, []⟩ ::
          fragments.map fun a => ⟨st.currentToolId + 1, none, a⟩⟩ := by
  obtain ⟨fragments, st', hinside, hid, hflat, hloop⟩ :=
    @loop_params V lib tools hlib c.name c.params
    ⟨st.currentToolId + 1, true, 0, false, true, some c.name⟩
    ("\n".toList ++ (toolCallEndToken ++ (c.sep ++ z))) rfl rfl (by simp)
  have hrender : c.render ++ z = toolCallStartToken ++ ("\n".toList ++ (toolCallPrefix ++ (c.name ++
      (">".toList ++ ("\n".toList ++ (c.params.flatMap Param.render ++ (functionEndToken ++
        ("\n".toList ++ (toolCallEndToken ++ (c.sep ++ z)))))))))) := by
    simp only [Call.render, Call.content, Call.body, List.append_assoc]
  refine ⟨fragments, { st' with isInsideToolCall := false }, rfl, hid, hflat, ?_⟩
  have htext : ({ st' with isInsideToolCall := false } : State).text c.sep = ⟨c.sep, []⟩ := rfl
  rw [hrender, loop_toolCallStart, loop_newline rfl, loop_function c.name_angle, loop_newline rfl,
    hloop, loop_newline hinside, loop_toolCallEnd, loop_text (blank_not_mem c.sep_blank), htext,
    Stop.prepend_prepend, Stop.prepend_prepend]
  congr 2
  simp

theorem loop_calls (hlib : Lawful lib) (cs : List (Call lib tools)) : ∀ {st : State} {i : Nat},
    st.currentToolId = (i : Int) - 1 →
    ∃ (items : List ToolCallItem) (st' : State),
      Sends i (cs.map fun c => (c.name, c.dumps true)) items ∧
      (cursor lib tools).loop st (cs.flatMap Call.render) =
        ⟨⟨cs.flatMap Call.sep, items⟩, st', [], false⟩ := by
  induction cs with
  | nil =>
    intro st i _
    exact ⟨[], st, rfl, loop_nil lib tools st⟩
  | cons c cs ih =>
    intro st i hid
    obtain ⟨fragments, st₁, _, hid₁, hflat, hloop⟩ := loop_call hlib c st (cs.flatMap Call.render)
    have hindex : st.currentToolId + 1 = i := by omega
    obtain ⟨items, st', hsends, hrest⟩ := @ih st₁ (i + 1) (by rw [hid₁, hindex]; simp)
    refine ⟨_, st', ⟨[], fragments, items, rfl, by rw [nil_append, hflat], hsends⟩, ?_⟩
    rw [flatMap_cons, hloop, hrest, hindex]
    simp [Stop.prepend]

/-! ## Section 4: Both parsers -/

theorem stream_eq_loop {text : List Char} {chunks : List (List Char)} (h : chunks.flatten = text)
    (hraised : ((cursor lib tools).loop State.new text).raised = false) :
    (streamChunks lib tools Detector.new chunks).raised = false ∧
      (streamChunks lib tools Detector.new chunks).out =
        ((cursor lib tools).loop State.new text).out := by
  subst h
  rw [Detector.new, stream_of_loop chunks (loop_nil lib tools State.new) hraised]
  exact ⟨rfl, rfl⟩

/-- Both parsers give the text in front and the calls: the one-shot parser at once, the streaming
parser name by name and with arguments in fragments. -/
structure Recovers (t : Text lib tools) (chunks : List (List Char)) : Prop where
  oneShot_text : (detectAndParse lib tools t.render).normalText = t.lead
  oneShot_calls : ∃ pairs, (detectAndParse lib tools t.render).calls = numbered 0 pairs ∧
    Denotes t.calls pairs
  stream_returns : (streamChunks lib tools Detector.new chunks).raised = false
  stream_text : (streamChunks lib tools Detector.new chunks).out.normalText = t.lead
  stream_calls : ∃ pairs, Sends 0 pairs (streamChunks lib tools Detector.new chunks).out.calls ∧
    Denotes t.calls pairs

theorem stream_of_calls (hlib : Lawful lib) (t : Text lib tools) (h : t.calls ≠ [])
    {chunks : List (List Char)} (htext : chunks.flatten = t.render) :
    (streamChunks lib tools Detector.new chunks).raised = false ∧
      (streamChunks lib tools Detector.new chunks).out.normalText =
        t.lead ++ t.calls.flatMap Call.sep ∧
      Sends 0 (t.calls.map fun c => (c.name, c.dumps true))
        (streamChunks lib tools Detector.new chunks).out.calls := by
  obtain ⟨items, st', hsends, hloop⟩ := @loop_calls V lib tools hlib t.calls State.new 0 rfl
  have hhead : (t.calls.flatMap Call.render).head? = some '<' := by
    obtain ⟨c, cs, hcs⟩ := exists_cons_of_ne_nil h
    rw [hcs]
    rfl
  have hwhole : (cursor lib tools).loop State.new t.render =
      ⟨⟨t.lead ++ t.calls.flatMap Call.sep, items⟩, st', [], false⟩ := by
    rw [Text.render, loop_lead t.lead_free hhead, hloop]
    rfl
  obtain ⟨hraised, hout⟩ := stream_eq_loop htext (by rw [hwhole])
  rw [hwhole] at hout
  rw [hout]
  exact ⟨hraised, rfl, hsends⟩

theorem stream_of_nil (t : Text lib tools) (h : t.calls = []) {chunks : List (List Char)}
    (htext : chunks.flatten = t.render) :
    (streamChunks lib tools Detector.new chunks).raised = false ∧
      (streamChunks lib tools Detector.new chunks).out.calls = [] ∧
      ((streamChunks lib tools Detector.new chunks).out.normalText = t.lead ↔ Settled t.lead) := by
  obtain ⟨a, kept, hsplit, hloop, hkept⟩ := @loop_end V lib tools State.new t.lead t.lead_free
  rw [← render_of_nil h] at hloop
  obtain ⟨hraised, hout⟩ := stream_eq_loop htext (by rw [hloop])
  rw [hloop] at hout
  rw [hout]
  refine ⟨hraised, rfl, ?_⟩
  rw [← hkept]
  change a = t.lead ↔ _
  rw [← hsplit]
  simp

theorem flatMap_sep_eq_nil (cs : List (Call lib tools)) :
    cs.flatMap Call.sep = [] ↔ ∀ c ∈ cs, c.sep = [] := flatMap_eq_nil_iff

theorem Recovers.sep_eq_nil (hlib : Lawful lib) {t : Text lib tools} {chunks : List (List Char)}
    (htext : chunks.flatten = t.render) (h : Recovers t chunks) : ∀ c ∈ t.calls, c.sep = [] := by
  intro c hc
  obtain ⟨_, hnormal, _⟩ := stream_of_calls hlib t (ne_nil_of_mem hc) htext
  rw [h.stream_text] at hnormal
  have hseps : t.calls.flatMap Call.sep = [] := by simpa using hnormal
  exact (flatMap_sep_eq_nil t.calls).mp hseps c hc

/-- Both parsers recover the calls of a text in every cut into chunks if and only if no name makes a
tag with the bracket after it, there is nothing between and after the blocks, and, where there is no
call, no end of the text begins a tag. -/
theorem recovers_iff (hlib : Lawful lib) (t : Text lib tools) (chunks : List (List Char))
    (htext : chunks.flatten = t.render) :
    Recovers t chunks ↔ (∀ c ∈ t.calls, c.Clean ∧ c.sep = []) ∧
    (t.calls = [] → Settled t.lead) := by
  constructor
  · intro h
    have hsep := h.sep_eq_nil hlib htext
    obtain ⟨_, ⟨pairs, hcalls, hpairs⟩, _, hnormal, _⟩ := h
    have hclean := clean_of_detectAndParse hlib t hcalls hpairs
    refine ⟨fun c hc => ⟨hclean c hc, hsep c hc⟩, fun hnil => ?_⟩
    exact (stream_of_nil t hnil htext).2.2.mp hnormal
  · rintro ⟨hcalls, hsettled⟩
    have hone := detectAndParse_clean hlib t fun c hc => (hcalls c hc).1
    have htext' : (detectAndParse lib tools t.render).normalText = t.lead := by rw [hone]
    have hcalls' : ∃ pairs, (detectAndParse lib tools t.render).calls = numbered 0 pairs ∧
        Denotes t.calls pairs := ⟨_, by rw [hone], denotes_dumps false t.calls⟩
    by_cases hnil : t.calls = []
    · obtain ⟨hraised, hnone, hiff⟩ := stream_of_nil t hnil htext
      refine ⟨htext', hcalls', hraised, hiff.mpr (hsettled hnil), [], hnone, ?_⟩
      rw [hnil]
      exact .nil
    · obtain ⟨hraised, hnormal, hsends⟩ := stream_of_calls hlib t hnil htext
      have hseps := (flatMap_sep_eq_nil t.calls).mpr fun c hc => (hcalls c hc).2
      rw [hseps, append_nil] at hnormal
      exact ⟨htext', hcalls', hraised, hnormal, _, hsends, denotes_dumps true t.calls⟩

end Steps

/-! ## Section 5: Texts that are recovered and that are not -/

/-- The values of Python that string parameters need. -/
inductive PyValue where
  | none
  | str (s : List Char)
  | bool (b : Bool)

def stringLib : PyLib PyValue where
  none := .none
  str := .str
  bool := .bool
  lower s := s.map Char.toLower
  strip s := s
  showJson
    | .str codes => codes.map Char.ofNat
    | _ => []
  int _ := none
  float _ := none
  isInteger _ := false
  floatToInt v := v
  loads _ := none
  literalEval _ := none
  dumps
    | .none => some "null".toList
    | .str s => some (Json.dumpsString false s)
    | .bool b => some (if b then "true".toList else "false".toList)
  dumpsAscii := Json.dumpsString true

theorem stringLib_lawful : Lawful stringLib where
  dumps_str _ := rfl
  dumps_loads := by
    intro v text h
    cases v with
    | none =>
      cases h
      exact ⟨.null, rfl⟩
    | str s =>
      cases h
      exact ⟨_, Json.loads_dumpsString false s⟩
    | bool b =>
      cases h
      cases b
      · exact ⟨.bool false, rfl⟩
      · exact ⟨.bool true, rfl⟩
  dumpsAscii_eq _ := rfl
  type_string := by decide

/-- The call `f(p="x")`, with a text after its block. -/
def sampleCall (sep : List Char) (hsep : ∀ c ∈ sep, Json.isBlank c = true) :
    Call stringLib none where
  name := "f".toList
  params := [⟨"p".toList, "x".toList, by decide, .inl rfl, tagFree_of_not_mem (by decide),
    by decide⟩]
  sep := sep
  name_angle := by decide
  distinct := by decide
  sep_blank := hsep

theorem nil_blank : ∀ c ∈ ([] : List Char), Json.isBlank c = true := forall_mem_nil _

/-- One call after the text `ok`. -/
def sampleText : Text stringLib none :=
  ⟨"ok".toList, [sampleCall [] nil_blank], tagFree_of_not_mem (by decide)⟩

/-- Two calls with a newline between their blocks. -/
def twoCalls : Text stringLib none :=
  ⟨"ok".toList, [sampleCall "\n".toList (by simp [Json.isBlank]), sampleCall [] nil_blank],
    tagFree_of_not_mem (by decide)⟩

/-- The newline between two blocks comes out as normal text. -/
theorem two_calls_not_recovered : ¬ Recovers twoCalls [twoCalls.render] := by
  intro h
  have hsep := h.sep_eq_nil stringLib_lawful (append_nil _) _ (mem_cons_self ..)
  exact absurd hsep (by decide)

theorem one_call_recovered : Recovers sampleText [sampleText.render] := by
  rw [recovers_iff stringLib_lawful sampleText [sampleText.render] (append_nil _)]
  refine ⟨fun c hc => ?_, fun h => absurd h (by simp [sampleText])⟩
  rw [mem_singleton.mp hc]
  refine ⟨⟨by decide, fun q hq => ?_⟩, rfl⟩
  rw [mem_singleton.mp hq]
  decide

end Sglang.FunctionCall.Qwen3Coder
