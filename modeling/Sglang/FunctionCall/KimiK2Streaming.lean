import Sglang.FunctionCall.KimiK2Format

/-!
# Streaming of Kimi K2

What the streaming parser puts out over a text, for every cut into chunks that leaves the special
tokens whole. Between two chunks the parser is before the section, between two calls, in the header
of a call or in its arguments; each chunk takes it from one of these to another.

- `Phase`: where the parser is, and what it has still to put out,
- `turn_call`, `turn_text`: a turn of the parser,
- `loop_spec`: all turns on one chunk,
- `stream_spec`: all chunks.
-/

namespace Sglang.FunctionCall.KimiK2

open List Option
open Lib

/-! ## Section 1: Names -/

theorem args_loads (c : Call) : Json.loads c.args = some (.obj c.members) :=
  Json.loads_blanks c.body_opens c.body_loads c.bodyBefore_blank c.bodyAfter_blank

/-- A beginning of the arguments has the keys of the arguments, or none. -/
theorem argKeys_isPrefix {c : Call} {a : List Char} (h : a <+: c.args) :
    argKeys a = none ∨ argKeys a = argKeys c.args := by
  have hkeys : argKeys c.args = some (c.members.map Prod.fst).dedup := by
    simp [argKeys, args_loads]
  by_cases hobj : (Json.skip a).head? = some '\x7b'
  · cases ha : Json.loads a with
    | none =>
      left
      simp [argKeys, ha]
    | some v =>
      right
      obtain ⟨b, hb⟩ := h
      have heq := Json.loads_of_isPrefix hobj ha (by rw [hb]; exact args_loads c)
      rw [hkeys, argKeys, ha, heq]
  · -- nothing but blanks so far
    left
    have hskip : Json.skip a = [] := by
      by_contra hne
      apply hobj
      obtain ⟨b, hb⟩ := h
      obtain ⟨body, hbody⟩ := Json.cons_of_head? c.body_opens
      have hargs : Json.skip c.args = c.body ++ c.bodyAfter := by
        rw [Call.args, append_assoc, Json.skip,
          dropWhile_append_of_pos c.bodyBefore_blank, hbody]
        rfl
      rw [← Json.head?_append_of_ne_nil hne b, ← Json.skip_append hne, hb, hargs, hbody]
      rfl
    rw [argKeys, Json.loads_of_skip_nil hskip]

section Streams

variable {cls : CharClasses} {tools : List ToolSchema}

theorem inferToolName_isPrefix {c : Call} {a : List Char} (h : a <+: c.args) :
    inferToolName tools a = none ∨ inferToolName tools a = inferToolName tools c.args := by
  unfold inferToolName
  split
  · exact .inl rfl
  · exact .inr rfl
  · next tools _ _ =>
    by_cases ha : a = []
    · exact .inl (if_pos ha)
    have hargs : c.args ≠ [] := by
      intro hnil
      rw [hnil, prefix_nil] at h
      exact ha h
    rw [if_neg ha, if_neg hargs]
    rcases argKeys_isPrefix h with hkeys | hkeys
    · rw [hkeys]
      exact .inl rfl
    · rw [hkeys]
      exact .inr rfl

variable (cls tools) in
/-- The name of a call, once all of its arguments are there. -/
def Call.name (c : Call) : Option (List Char) := resolveFunctionName cls c.id tools c.args

variable (cls tools) in
theorem resolve_isPrefix {c : Call} {a : List Char} (h : a <+: c.args) :
    resolveFunctionName cls c.id tools a = none ∨
      resolveFunctionName cls c.id tools a = c.name cls tools := by
  unfold Call.name resolveFunctionName
  rw [if_neg c.id_ne, if_neg c.id_ne]
  split
  · exact .inr rfl
  · split
    · exact inferToolName_isPrefix h
    · exact .inl rfl

/-! ## Section 2: Items -/

/-- The items that are left when the name of a call has been sent. -/
def Continues (i : Nat) (args : List Char) (calls : List (List Char × List Char))
    (items : List ToolCallItem) : Prop :=
  ∃ (fragments : List (List Char)) (rest : List ToolCallItem),
    items = (fragments.map fun a => ⟨i, none, a⟩) ++ rest ∧ fragments.flatten = args ∧
      Sends (i + 1) calls rest

theorem Continues.first {i : Nat} {name a args : List Char} {calls : List (List Char × List Char)}
    {items : List ToolCallItem} (h : Continues i args calls items) :
    Sends i ((name, a ++ args) :: calls) (⟨i, some name, a⟩ :: items) := by
  obtain ⟨fragments, rest, rfl, rfl, hrest⟩ := h
  exact ⟨a, fragments, rest, rfl, rfl, hrest⟩

theorem Continues.more {i : Nat} {a args : List Char} {calls : List (List Char × List Char)}
    {items : List ToolCallItem} (h : Continues i args calls items) :
    Continues i (a ++ args) calls (⟨i, none, a⟩ :: items) := by
  obtain ⟨fragments, rest, rfl, rfl, hrest⟩ := h
  exact ⟨a :: fragments, rest, rfl, rfl, hrest⟩

theorem Continues.of_sends {i : Nat} {calls : List (List Char × List Char)}
    {items : List ToolCallItem} (h : Sends (i + 1) calls items) : Continues i [] calls items :=
  ⟨[], items, rfl, rfl, h⟩

variable (cls tools) in
def named (cs : List (Call × List Char)) : List (List Char × List Char) :=
  cs.filterMap fun cw => (cw.1.name cls tools).map fun name => (name, cw.1.args)

def spaces (cs : List (Call × List Char)) : List Char := cs.flatMap Prod.snd

/-! ## Section 3: One call -/

/-- No call is being read; the next one has the index `i`. -/
structure Idle (st : State) (i : Nat) : Prop where
  last : st.lastArguments = []
  name : st.currentStreamFunctionName = none
  index : st.currentToolId = i ∨ (i = 0 ∧ st.currentToolId = -1)

theorem Idle.withBuffer {st : State} {i : Nat} (h : Idle st i) (buffer : List Char) :
    Idle { st with buffer := buffer } i := ⟨h.last, h.name, h.index⟩

/-- The text of a call after its first token. -/
def Call.rest (c : Call) : List Char :=
  c.header ++ (toolCallArgumentBeginToken ++ (c.args ++ toolCallEndToken))

theorem callTurn_header {st : State} {s : List Char} (hs : '<' ∉ s)
    (hb : st.buffer = toolCallStartToken ++ s) : callTurn cls tools st = .stop 0 st := by
  have hplain := plain_of_not_mem hs
  have harg : find toolCallArgumentBeginToken st.buffer = none := by
    rw [hb, find_token_append (by decide) (by decide) (by decide),
      find_plain (by decide) hplain]
    rfl
  have hbegin : find toolCallStartToken (st.buffer.drop toolCallStartToken.length) = none := by
    rw [hb, drop_left, find_plain (by decide) hplain]
  simp only [callTurn, hbegin, map_none, filter_none, harg]

theorem find_in_call {c : Call} (z : List Char) {buffer : List Char}
    (hb : buffer = toolCallStartToken ++ (c.header ++ (toolCallArgumentBeginToken ++ z))) :
    find toolCallArgumentBeginToken buffer = some (toolCallStartToken.length + c.header.length) ∧
      (((find toolCallStartToken (buffer.drop toolCallStartToken.length)).map
        (· + toolCallStartToken.length)).filter fun n =>
          (some (toolCallStartToken.length + c.header.length)).all fun a => n < a) = none ∧
      find toolCallEndToken buffer = (find toolCallEndToken z).map
        (toolCallStartToken.length + c.header.length + toolCallArgumentBeginToken.length + ·) ∧
      (buffer.take (toolCallStartToken.length + c.header.length)).drop toolCallStartToken.length =
        c.header ∧
      buffer.drop (toolCallStartToken.length + c.header.length +
        toolCallArgumentBeginToken.length) = z := by
  subst hb
  have hhead : (toolCallArgumentBeginToken ++ z).head? = some '<' := rfl
  refine ⟨?_, ?_, ?_, ?_, ?_⟩
  · rw [find_token_append (by decide) (by decide) (by decide),
      find_plain_append (by decide) c.header_plain (.inr hhead), find_self]
    rfl
  · rw [drop_left, find_plain_append (by decide) c.header_plain (.inr hhead),
      filter_eq_none_iff]
    intro n hn
    obtain ⟨m, hm, rfl⟩ := map_eq_some_iff.mp hn
    obtain ⟨k, _, rfl⟩ := map_eq_some_iff.mp hm
    simp
    omega
  · rw [find_token_append (by decide) (by decide) (by decide),
      find_plain_append (by decide) c.header_plain (.inr hhead),
      find_token_append (by decide) (by decide) (by decide)]
    simp only [Option.map_map]
    congr 1
    funext n
    simp only [Function.comp]
    omega
  · rw [← append_assoc, take_append_of_le_length (by simp), take_of_length_le (by simp),
      drop_left]
  · rw [← append_assoc, ← append_assoc,
      show toolCallStartToken.length + c.header.length + toolCallArgumentBeginToken.length =
        (toolCallStartToken ++ c.header ++ toolCallArgumentBeginToken).length by
          simp only [length_append], drop_left]

variable (cls tools) in
theorem callTurn_open {st : State} {c : Call} {a : List Char} (ha : Plain a)
    (hb : st.buffer = toolCallStartToken ++ (c.header ++ (toolCallArgumentBeginToken ++ a))) :
    callTurn cls tools st =
      match resolved cls tools st c.id a with
      | none => .stop 0 st
      | some (name, justResolved) =>
        let sent := sendArguments (sendState st name justResolved) justResolved name a
        .stop ⟨[], sent.1⟩ sent.2 := by
  obtain ⟨harg, hnext, hend, hid, hdrop⟩ := find_in_call a hb
  rw [find_plain (by decide) ha] at hend
  simp only [callTurn, harg, hnext, hend, hid, hdrop, c.strip_header, map_none]
  cases resolved cls tools st c.id a with
  | none => rfl
  | some r => rfl

variable (cls tools) in
theorem callTurn_closed {st : State} {c : Call} {y : List Char}
    (hb : st.buffer = toolCallStartToken ++ (c.header ++ (toolCallArgumentBeginToken ++
      (c.args ++ (toolCallEndToken ++ y))))) :
    callTurn cls tools st =
      match resolved cls tools st c.id c.args with
      | none => .next 0 (st.reset y)
      | some (name, justResolved) =>
        let sent := sendArguments (sendState st name justResolved) justResolved name c.args
        .next ⟨[], sent.1⟩
          { sent.2.reset y with currentToolId := sent.2.currentToolId + 1 } := by
  obtain ⟨harg, hnext, hend, hid, hdrop⟩ := find_in_call _ hb
  rw [find_plain_append (by decide) c.args_plain (.inr rfl), find_self] at hend
  have hargs : (st.buffer.take (toolCallStartToken.length + c.header.length +
      toolCallArgumentBeginToken.length + c.args.length)).drop (toolCallStartToken.length +
        c.header.length + toolCallArgumentBeginToken.length) = c.args := by
    rw [drop_take, hdrop, Nat.add_sub_cancel_left, take_left]
  have hrest : st.buffer.drop (toolCallStartToken.length + c.header.length +
      toolCallArgumentBeginToken.length + c.args.length + toolCallEndToken.length) = y := by
    rw [Nat.add_assoc _ c.args.length, ← drop_drop, hdrop, ← drop_drop, drop_left,
      drop_left]
  simp only [callTurn, harg, hnext, hend, hid, c.strip_header, map_some, Nat.add_zero, hargs]
  cases resolved cls tools st c.id c.args with
  | none => simp only [hrest]
  | some r => simp only [hrest]

def SpaceOk (w : List Char) (cs : List (Call × List Char)) : Prop :=
  (∀ c ∈ w, isSpace c = true) ∧ ∀ cw ∈ cs, ∀ c ∈ cw.2, isSpace c = true

variable (cls tools) in
/-- Where the parser is between two chunks: the text that is left of the stream, the normal text
that is left to put out, and the items that are left to send. -/
inductive Phase : State → List Char → List Char → (List ToolCallItem → Prop) → Prop where
  | done {st : State} {i : Nat} (idle : Idle st i) (hb : st.buffer = []) : Phase st [] [] (· = [])
  | before {st : State} {i : Nat} {n w : List Char} {cs : List (Call × List Char)}
      (idle : Idle st i)
      (hn : Plain (st.buffer ++ n)) (hw : SpaceOk w cs) :
      Phase st (n ++ (botToken ++ (w ++ tail cs))) (st.buffer ++ n ++ (w ++ spaces cs))
        (Sends i (named cls tools cs))
  | between {st : State} {i : Nat} {w : List Char} {cs : List (Call × List Char)} (idle : Idle st i)
      (hb : st.buffer = []) (hw : SpaceOk w cs) :
      Phase st (w ++ tail cs) (w ++ spaces cs) (Sends i (named cls tools cs))
  | header {st : State} {i : Nat} {c : Call} {s q w : List Char} {cs : List (Call × List Char)}
      (idle : Idle st i) (hb : st.buffer = toolCallStartToken ++ s)
      (hs : s ++ q = c.rest ++ (w ++ tail cs)) (hq : q ≠ []) (hw : SpaceOk w cs) :
      Phase st q (w ++ spaces cs) (Sends i (named cls tools ((c, w) :: cs)))
  | arguments {st : State} {i : Nat} {c : Call} {name a a' w : List Char}
      {cs : List (Call × List Char)}
      (hb : st.buffer = toolCallStartToken ++ (c.header ++ (toolCallArgumentBeginToken ++ a)))
      (ha : a ++ a' = c.args) (hlast : st.lastArguments = a)
      (hname : st.currentStreamFunctionName = some name) (hindex : st.currentToolId = i)
      (hw : SpaceOk w cs) :
      Phase st (a' ++ (toolCallEndToken ++ (w ++ tail cs))) (w ++ spaces cs)
        (Continues i a' (named cls tools cs))

theorem call_cases {c : Call} {s q t : List Char} (hcut : ¬ Cuts s q)
    (hs : s ++ q = c.rest ++ t) :
    ('<' ∉ s ∧ q ≠ []) ∨
    (∃ a a', s = c.header ++ (toolCallArgumentBeginToken ++ a) ∧ a ++ a' = c.args ∧
      q = a' ++ (toolCallEndToken ++ t)) ∨
    ∃ y, s = c.header ++ (toolCallArgumentBeginToken ++ (c.args ++ (toolCallEndToken ++ y))) ∧
      y ++ q = t := by
  have hheader : ∀ {u}, c.header = s ++ u → '<' ∉ s := by
    intro u hu hin
    exact c.header_not_mem (by rw [hu]; exact mem_append_left _ hin)
  simp only [Call.rest, append_assoc] at hs
  rcases append_eq_append_iff.mp hs with ⟨u, hu, hq⟩ | ⟨s₁, rfl, hs₁⟩
  · left
    refine ⟨hheader hu, ?_⟩
    rw [hq]
    exact append_token_ne_nil (by decide) u _
  have hcut₁ : ¬ Cuts s₁ q := fun h => hcut (h.of_suffix (suffix_append _ _))
  rcases token_cases (p := toolCallArgumentBeginToken) (by decide) hcut₁ hs₁.symm with ⟨rfl, hq⟩ |
    ⟨z, rfl, hz⟩
  · left
    refine ⟨?_, ?_⟩
    · rw [append_nil]
      exact c.header_not_mem
    · rw [hq, ← nil_append (toolCallArgumentBeginToken ++ _)]
      exact append_token_ne_nil (by decide) [] _
  right
  have hcut₂ : ¬ Cuts z q := fun h => hcut₁ (h.of_suffix (suffix_append _ _))
  rcases append_eq_append_iff.mp hz with ⟨u, hu, hq⟩ | ⟨z₁, rfl, hz₁⟩
  · exact .inl ⟨z, u, rfl, hu.symm, hq⟩
  have hcut₃ : ¬ Cuts z₁ q := fun h => hcut₂ (h.of_suffix (suffix_append _ _))
  rcases token_cases (p := toolCallEndToken) (by decide) hcut₃ hz₁.symm with ⟨rfl, hq⟩ |
    ⟨y, rfl, hy⟩
  · exact .inl ⟨c.args, [], by rw [append_nil], append_nil _, by rw [hq]; rfl⟩
  · exact .inr ⟨y, rfl, hy⟩

theorem named_of_none {c : Call} {w : List Char} {cs : List (Call × List Char)}
    (h : c.name cls tools = none) : named cls tools ((c, w) :: cs) = named cls tools cs := by
  simp [named, h]

theorem named_of_some {c : Call} {w name : List Char} {cs : List (Call × List Char)}
    (h : c.name cls tools = some name) :
    named cls tools ((c, w) :: cs) = (name, c.args) :: named cls tools cs := by
  simp [named, h]

theorem sendArguments_first {st : State} {i : Nat} (idle : Idle st i) (name a : List Char) :
    sendArguments (sendState st name true) true name a =
      ([⟨i, some name, a⟩], ⟨st.buffer, i, a, some name⟩) := by
  have hindex : (if st.currentToolId = -1 then (0 : Int) else st.currentToolId) = i := by
    rcases idle.index with h | ⟨rfl, h⟩
    · rw [h, if_neg (by omega)]
    · rw [if_pos h]
      rfl
  simp [sendArguments, sendState, idle.last, hindex]

theorem sendArguments_more {st : State} {name a b : List Char} (hlast : st.lastArguments = a) :
    sendArguments (sendState st name false) false name (a ++ b) =
      (if b = [] then [] else [⟨st.currentToolId, none, b⟩],
        { st with lastArguments := a ++ b }) := by
  by_cases hb : b = [] <;> simp [sendArguments, sendState, hlast, hb]

theorem resolved_idle {st : State} {i : Nat} (idle : Idle st i) (functionId a : List Char) :
    resolved cls tools st functionId a =
      (resolveFunctionName cls functionId tools a).map (·, true) := by
  simp only [resolved, idle.name]

variable (cls tools) in
theorem callTurn_idle {st : State} {i : Nat} {c : Call} {s q w : List Char}
    {cs : List (Call × List Char)} (idle : Idle st i) (hb : st.buffer = toolCallStartToken ++ s)
    (hs : s ++ q = c.rest ++ (w ++ tail cs)) (hcut : ¬ Cuts s q) (hw : SpaceOk w cs) :
    (∃ out st' left, callTurn cls tools st = .stop ⟨[], out⟩ st' ∧
      Phase cls tools st' q (w ++ spaces cs) left ∧
      ∀ items, left items → Sends i (named cls tools ((c, w) :: cs)) (out ++ items)) ∨
    ∃ out st' j, callTurn cls tools st = .next ⟨[], out⟩ st' ∧ Idle st' j ∧
      st'.buffer ++ q = w ++ tail cs ∧ st'.buffer <:+ s ∧
      ∀ items, Sends j (named cls tools cs) items →
        Sends i (named cls tools ((c, w) :: cs)) (out ++ items) := by
  rcases call_cases hcut hs with ⟨hnot, hq⟩ | ⟨a, a', rfl, ha, hq⟩ | ⟨y, rfl, hy⟩
  · -- the text ends in the header
    left
    exact ⟨[], st, _, callTurn_header hnot hb, .header idle hb hs hq hw, fun _ h => h⟩
  · -- the text ends in the arguments, which are sent as far as they go
    left
    have hplain : Plain a := c.args_plain.of_isInfix ⟨[], a', by rw [nil_append, ha]⟩
    have hturn := callTurn_open cls tools hplain hb
    rw [resolved_idle idle] at hturn
    cases hname : resolveFunctionName cls c.id tools a with
    | none =>
      rw [hname] at hturn
      refine ⟨[], st, _, hturn, .header idle hb hs ?_ hw, fun _ h => h⟩
      rw [hq]
      exact append_token_ne_nil (by decide) a' _
    | some name =>
      have hcall : c.name cls tools = some name := by
        rcases resolve_isPrefix cls tools (⟨a', ha⟩ : a <+: c.args) with h | h
        · rw [h] at hname
          cases hname
        · rw [← h, hname]
      rw [hname] at hturn
      simp only [map_some, sendArguments_first idle] at hturn
      refine ⟨_, _, Continues i a' (named cls tools cs), hturn, ?_, ?_⟩
      · rw [hq]
        exact .arguments hb ha rfl rfl rfl hw
      · intro items h
        rw [named_of_some hcall, ← ha]
        exact h.first
  · -- the call is complete
    right
    have hturn := callTurn_closed cls tools hb
    rw [resolved_idle idle] at hturn
    have hsuffix : y <:+ c.header ++ (toolCallArgumentBeginToken ++
        (c.args ++ (toolCallEndToken ++ y))) :=
      ⟨c.header ++ (toolCallArgumentBeginToken ++ (c.args ++ toolCallEndToken)), by simp⟩
    cases hname : resolveFunctionName cls c.id tools c.args with
    | none =>
      rw [hname] at hturn
      refine ⟨[], _, i, hturn, ⟨rfl, rfl, idle.index⟩, hy, hsuffix, fun items h => ?_⟩
      rw [named_of_none hname]
      exact h
    | some name =>
      rw [hname] at hturn
      simp only [map_some, sendArguments_first idle] at hturn
      refine ⟨_, _, i + 1, hturn, ⟨rfl, rfl, .inl ?_⟩, hy, hsuffix, fun items h => ?_⟩
      · simp
      · rw [named_of_some hname]
        have hfirst : Sends i ((name, c.args ++ []) :: named cls tools cs) _ :=
          (Continues.of_sends h).first
        rw [append_nil] at hfirst
        exact hfirst

variable (cls tools) in
theorem callTurn_arguments {st : State} {i : Nat} {c : Call} {name a b a' q w : List Char}
    {cs : List (Call × List Char)}
    (hb : st.buffer = toolCallStartToken ++ (c.header ++ (toolCallArgumentBeginToken ++ (a ++ b))))
    (ha : a ++ a' = c.args) (hlast : st.lastArguments = a)
    (hname : st.currentStreamFunctionName = some name) (hindex : st.currentToolId = i)
    (hs : b ++ q = a' ++ (toolCallEndToken ++ (w ++ tail cs))) (hcut : ¬ Cuts b q)
    (hw : SpaceOk w cs) :
    (∃ out st' left, callTurn cls tools st = .stop ⟨[], out⟩ st' ∧
      Phase cls tools st' q (w ++ spaces cs) left ∧
      ∀ items, left items → Continues i a' (named cls tools cs) (out ++ items)) ∨
    ∃ out st' j, callTurn cls tools st = .next ⟨[], out⟩ st' ∧ Idle st' j ∧
      st'.buffer ++ q = w ++ tail cs ∧ st'.buffer <:+ b ∧
      ∀ items, Sends j (named cls tools cs) items →
        Continues i a' (named cls tools cs) (out ++ items) := by
  have hresolved : ∀ args, resolved cls tools st c.id args = some (name, false) := by
    intro args
    simp only [resolved, hname]
  have hstep : ∀ {b u : List Char} {items : List ToolCallItem},
      Continues i u (named cls tools cs) items → Continues i (b ++ u) (named cls tools cs)
        ((if b = [] then [] else [⟨st.currentToolId, none, b⟩]) ++ items) := by
    intro b u items h
    by_cases hnil : b = []
    · rw [if_pos hnil, hnil]
      exact h
    · rw [if_neg hnil, hindex]
      exact h.more
  -- the end of the call is there, or not
  have hsplit : (∃ u, b ++ u = a' ∧ q = u ++ (toolCallEndToken ++ (w ++ tail cs))) ∨
      ∃ y, b = a' ++ (toolCallEndToken ++ y) ∧ y ++ q = w ++ tail cs := by
    rcases append_eq_append_iff.mp hs with ⟨u, hu, hq⟩ | ⟨z, rfl, hz⟩
    · exact .inl ⟨u, hu.symm, hq⟩
    have hcut' : ¬ Cuts z q := fun h => hcut (h.of_suffix (suffix_append _ _))
    rcases token_cases (p := toolCallEndToken) (by decide) hcut' hz.symm with ⟨rfl, hq⟩ |
      ⟨y, rfl, hy⟩
    · exact .inl ⟨[], by simp, by rw [hq]; rfl⟩
    · exact .inr ⟨y, rfl, hy⟩
  rcases hsplit with ⟨u, rfl, hq⟩ | ⟨y, rfl, hy⟩
  · left
    have hplain : Plain (a ++ b) :=
      c.args_plain.of_isInfix ⟨[], u, by rw [nil_append, ← ha, append_assoc]⟩
    have hturn := callTurn_open cls tools hplain hb
    rw [hresolved] at hturn
    simp only [sendArguments_more hlast] at hturn
    refine ⟨_, _, Continues i u (named cls tools cs), hturn, ?_, fun items h => hstep h⟩
    rw [hq]
    exact .arguments hb (by rw [← ha, append_assoc]) rfl hname hindex hw
  · right
    rw [← append_assoc a, ha] at hb
    have hturn := callTurn_closed cls tools hb
    rw [hresolved] at hturn
    have hsent := @sendArguments_more st name a a' hlast
    rw [ha] at hsent
    simp only [hsent] at hturn
    refine ⟨_, _, i + 1, hturn, ⟨rfl, rfl, .inl ?_⟩, hy, ?_, fun items h => ?_⟩
    · simp [hindex]
    · exact ⟨a' ++ toolCallEndToken, by simp [State.reset]⟩
    · have hmore := hstep (b := a') (.of_sends h)
      rw [append_nil] at hmore
      exact hmore

/-! ## Section 4: One chunk -/

theorem loop_stop {st st' : State} {out : StreamingParseResult}
    (h : turn cls tools st = .stop out st') : loop cls tools st = (out, st') := by
  rw [loop]
  split
  · next heq =>
    rw [h] at heq
    cases heq
    rfl
  · next heq =>
    rw [h] at heq
    cases heq

theorem loop_next {st st' : State} {out : StreamingParseResult}
    (h : turn cls tools st = .next out st') :
    loop cls tools st = (out + (loop cls tools st').1, (loop cls tools st').2) := by
  rw [loop]
  split
  · next heq =>
    rw [h] at heq
    cases heq
  · next heq =>
    rw [h] at heq
    cases heq
    rfl

theorem parse_eq_loop (st : State) (newText : List Char) :
    parseStreamingIncrement cls tools st newText =
      loop cls tools { st with buffer := st.buffer ++ newText } := by
  unfold parseStreamingIncrement
  dsimp only
  split
  · next h =>
    rw [loop_stop]
    simp only [turn, h.2.2]
  · rfl

theorem Outside.find_start {x y z : List Char} (h : Outside x y)
    (hz : z = [] ∨ z.head? = some '<') :
    find toolCallStartToken (x ++ z) = (find toolCallStartToken z).map (x.length + ·) := by
  cases h with
  | plain hn => exact find_plain_append (by decide) hn hz
  | @afterBegin n w hn hw =>
    rw [append_assoc, append_assoc, find_plain_append (by decide) hn (.inr rfl),
      find_token_append (by decide) (by decide) (by decide),
      find_plain_append (by decide) (plain_of_space hw) hz, Option.map_map, Option.map_map]
    congr 1
    funext k
    simp only [Function.comp, length_append]
    omega

variable (cls tools) in
theorem turn_call {st : State} {x y s : List Char} (h : Outside x y)
    (hb : st.buffer = x ++ (toolCallStartToken ++ s)) :
    turn cls tools st =
      match callTurn cls tools { st with buffer := toolCallStartToken ++ s } with
      | .stop out st => .stop (⟨y, []⟩ + out) st
      | .next out st => .next (⟨y, []⟩ + out) st := by
  have hfind : find toolCallStartToken st.buffer = some x.length := by
    rw [hb, h.find_start (.inr rfl), find_self]
    rfl
  have htake : st.buffer.take x.length = x := by rw [hb, take_left]
  have hdrop : st.buffer.drop x.length = toolCallStartToken ++ s := by rw [hb, drop_left]
  unfold turn
  rw [hfind]
  dsimp only
  rw [htake, hdrop]
  cases callTurn cls tools { st with buffer := toolCallStartToken ++ s } with
  | stop out st => simp only [h.strip_eq]
  | next out st => simp only [h.strip_eq]

variable (cls tools) in
theorem turn_text {st : State} (h : find toolCallStartToken st.buffer = none) :
    turn cls tools st = .stop ⟨stripSpecialTokens (splitPendingStart st.buffer).1, []⟩
      { st with buffer := (splitPendingStart st.buffer).2 } := by
  simp only [turn, h]

/-- What comes before the space between two calls: nothing, or the text and the begin of the
section, and what is left of it. -/
inductive Before : List Char → List Char → Prop where
  | call : Before [] []
  | begin {n : List Char} (hn : Plain n) : Before (n ++ botToken) n

theorem Before.outside {p t w : List Char} (h : Before p t) (hw : ∀ c ∈ w, isSpace c = true) :
    Outside (p ++ w) (t ++ w) := by
  cases h with
  | call => exact .plain (plain_of_space hw)
  | begin hn => exact .afterBegin hn hw

theorem not_mem_of_space {w : List Char} (hw : ∀ c ∈ w, isSpace c = true) : '<' ∉ w := by
  intro hin
  exact absurd (hw _ hin) (by decide)

theorem Before.split {p t w : List Char} (h : Before p t) (hw : ∀ c ∈ w, isSpace c = true) :
    splitPendingStart (p ++ w) = (p ++ w, []) := by
  cases h with
  | call => exact splitPendingStart_of_not_mem (not_mem_of_space hw)
  | begin hn => exact splitPendingStart_of_token (.inl rfl) (not_mem_of_space hw)

/-- What the loop puts out, and where it stops. -/
def Result (cls : CharClasses) (tools : List ToolSchema) (st : State) (q normal : List Char)
    (left : List ToolCallItem → Prop) : Prop :=
  ∃ out rest left', Phase cls tools (loop cls tools st).2 q rest left' ∧
    (loop cls tools st).1.normalText = out ∧ normal = out ++ rest ∧
    ∀ items, left' items → left ((loop cls tools st).1.calls ++ items)

theorem result_of_stop {st st' : State} {q out normal rest : List Char} {items : List ToolCallItem}
    {left left' : List ToolCallItem → Prop} (h : turn cls tools st = .stop ⟨out, items⟩ st')
    (hphase : Phase cls tools st' q rest left') (hnormal : normal = out ++ rest)
    (hleft : ∀ its, left' its → left (items ++ its)) : Result cls tools st q normal left := by
  unfold Result
  rw [loop_stop h]
  exact ⟨out, rest, left', hphase, rfl, hnormal, hleft⟩

theorem result_of_next {st st' : State} {q out normal rest : List Char} {items : List ToolCallItem}
    {left left' : List ToolCallItem → Prop} (h : turn cls tools st = .next ⟨out, items⟩ st')
    (hrest : Result cls tools st' q rest left') (hnormal : normal = out ++ rest)
    (hleft : ∀ its, left' its → left (items ++ its)) : Result cls tools st q normal left := by
  obtain ⟨out', rest', left'', hphase, hout, hrest', hleft'⟩ := hrest
  unfold Result
  rw [loop_next h]
  refine ⟨out ++ out', rest', left'', hphase, ?_, ?_, ?_⟩
  · simp [hout]
  · rw [hnormal, hrest', append_assoc]
  · intro its hits
    have := hleft _ (hleft' its hits)
    simpa using this

theorem find_start_nil : find toolCallStartToken [] = none := by decide

variable (cls tools) in
theorem loop_space {st : State} {i : Nat} {p t s u : List Char} {cs : List (Call × List Char)}
    (idle : Idle st i) (hbefore : Before p t) (hw : SpaceOk (s ++ u) cs) (hb : st.buffer = p ++ s) :
    Result cls tools st (u ++ tail cs) (t ++ (s ++ u ++ spaces cs))
    (Sends i (named cls tools cs)) := by
  have hs : ∀ c ∈ s, isSpace c = true := fun c hc => hw.1 c (mem_append_left _ hc)
  have houtside := hbefore.outside hs
  have hfind : find toolCallStartToken st.buffer = none := by
    have := houtside.find_start (.inl rfl : ([] : List Char) = [] ∨ _)
    rw [append_nil, find_start_nil] at this
    rw [hb, this]
    rfl
  have hturn := turn_text cls tools hfind
  rw [hb, hbefore.split hs, houtside.strip_eq] at hturn
  refine result_of_stop hturn (.between (idle.withBuffer _) rfl
    ⟨fun c hc => hw.1 c (mem_append_right _ hc), hw.2⟩) ?_ fun its h => h
  simp

variable (cls tools) in
theorem loop_between (cs : List (Call × List Char)) : ∀ {st : State} {i : Nat}
    {p t w s q : List Char}, Idle st i → Before p t → SpaceOk w cs → st.buffer = p ++ s →
    s ++ q = w ++ tail cs → ¬ Cuts s q →
    Result cls tools st q (t ++ (w ++ spaces cs)) (Sends i (named cls tools cs)) := by
  -- the induction is on the calls still to come
  induction cs with
  | nil =>
    intro st i p t w s q idle hbefore hw hb hs hcut
    -- the text ends in the space before the next token
    rcases append_eq_append_iff.mp hs with ⟨u, rfl, rfl⟩ | ⟨s₁, rfl, hs₁⟩
    · exact loop_space cls tools idle hbefore hw hb
    have hcut' : ¬ Cuts s₁ q := fun h => hcut (h.of_suffix (suffix_append _ _))
    have heot : s₁ ++ q = eotToken ++ [] := by rw [← hs₁, append_nil]; rfl
    rcases token_cases (by decide) hcut' heot with ⟨rfl, rfl⟩ | ⟨s₂, rfl, hs₂⟩
    · have hspace := @loop_space cls tools st i p t w [] [] idle hbefore (by simpa using hw)
        (by simpa using hb)
      simpa [tail] using hspace
    · -- the end of the section
      obtain ⟨rfl, rfl⟩ := append_eq_nil_iff.mp hs₂
      rw [append_nil] at hb
      have houtside := hbefore.outside hw.1
      have hfind : find toolCallStartToken st.buffer = none := by
        rw [hb, ← append_assoc, houtside.find_start (.inr rfl),
          show find toolCallStartToken eotToken = none by decide]
        rfl
      have hsplit : splitPendingStart st.buffer = (st.buffer, []) := by
        have := @splitPendingStart_of_token (p ++ w) eotToken [] (.inr rfl) (by simp)
        rw [append_nil, append_assoc, ← hb] at this
        exact this
      have hturn := turn_text cls tools hfind
      rw [hsplit] at hturn
      dsimp only at hturn
      rw [hb, ← append_assoc, houtside.strip_end] at hturn
      refine result_of_stop hturn (.done (idle.withBuffer _) rfl) ?_ ?_
      · simp [spaces]
      · rintro its rfl
        rfl
  | cons cw cs ih =>
    intro st i p t w s q idle hbefore hw hb hs hcut
    obtain ⟨c, w'⟩ := cw
    have hw' : SpaceOk w' cs := ⟨hw.2 _ (mem_cons_self ..), fun cw hcw =>
      hw.2 cw (mem_cons_of_mem _ hcw)⟩
    rcases append_eq_append_iff.mp hs with ⟨u, rfl, rfl⟩ | ⟨s₁, rfl, hs₁⟩
    · exact loop_space cls tools idle hbefore hw hb
    have hcut' : ¬ Cuts s₁ q := fun h => hcut (h.of_suffix (suffix_append _ _))
    have htoken : s₁ ++ q = toolCallStartToken ++ (c.rest ++ (w' ++ tail cs)) := by
      rw [← hs₁, tail, Call.render, Call.rest]
      simp
    rcases token_cases (by decide) hcut' htoken with ⟨rfl, hq⟩ | ⟨s₂, rfl, hs₂⟩
    · have hspace := @loop_space cls tools st i p t w [] ((c, w') :: cs) idle hbefore
        (by simpa using hw) (by simpa using hb)
      rw [nil_append] at hs₁
      rw [← hs₁]
      simpa using hspace
    · have hcut'' : ¬ Cuts s₂ q := fun h => hcut' (h.of_suffix (suffix_append _ _))
      have hturn := turn_call cls tools (hbefore.outside hw.1)
        (show st.buffer = p ++ w ++ (toolCallStartToken ++ s₂) by rw [hb, append_assoc])
      rcases @callTurn_idle cls tools { st with buffer := toolCallStartToken ++ s₂ } i c s₂ q w' cs
        (idle.withBuffer _) rfl hs₂ hcut'' hw'
        with ⟨out, st', left, hcall, hphase, hleft⟩ | ⟨out, st', j, hcall, hidle, hb', hsuf, hleft⟩
      · -- the text ends inside the call
        rw [hcall] at hturn
        refine result_of_stop hturn hphase ?_ ?_
        · simp [spaces]
        · simpa using hleft
      · -- the call is complete, and the loop goes on behind it
        rw [hcall] at hturn
        have hrest := ih hidle .call hw' (nil_append _).symm hb' fun h =>
          hcut'' (h.of_suffix hsuf)
        refine result_of_next hturn hrest ?_ ?_
        · simp [spaces]
        · simpa using hleft

theorem loop_before {st : State} {i : Nat} {n w chunk q : List Char} {cs : List (Call × List Char)}
    (idle : Idle st i) (hn : Plain (st.buffer ++ n)) (hw : SpaceOk w cs)
    (hs : chunk ++ q = n ++ (botToken ++ (w ++ tail cs))) (hcut : ¬ Cuts (st.buffer ++ chunk) q) :
    Result cls tools { st with buffer := st.buffer ++ chunk } q
      (st.buffer ++ n ++ (w ++ spaces cs)) (Sends i (named cls tools cs)) := by
  -- the text is not complete
  have hheld : ∀ {u : List Char}, Plain (st.buffer ++ chunk ++ u) →
      Result cls tools { st with buffer := st.buffer ++ chunk } (u ++ (botToken ++ (w ++ tail cs)))
        (st.buffer ++ chunk ++ u ++ (w ++ spaces cs)) (Sends i (named cls tools cs)) := by
    intro u hplain
    have hsplit := (splitPendingStart_spec (st.buffer ++ chunk)).1
    have hsub : Plain (st.buffer ++ chunk) := hplain.of_isInfix ⟨[], u, by simp⟩
    have hemit : Plain (splitPendingStart (st.buffer ++ chunk)).1 :=
      hsub.of_isInfix ⟨[], _, by rw [nil_append, hsplit]⟩
    have hhold : Plain ((splitPendingStart (st.buffer ++ chunk)).2 ++ u) :=
      hplain.of_isInfix ⟨(splitPendingStart (st.buffer ++ chunk)).1, [], by
        rw [append_nil, ← append_assoc, hsplit]⟩
    have hturn := turn_text cls tools (show find toolCallStartToken
      ({ st with buffer := st.buffer ++ chunk } : State).buffer =
      none from find_plain (by decide) hsub)
    dsimp only at hturn
    rw [(Outside.plain hemit).strip_eq] at hturn
    apply result_of_stop hturn (.before (idle.withBuffer _) hhold hw)
    · calc st.buffer ++ chunk ++ u ++ (w ++ spaces cs)
          = (splitPendingStart (st.buffer ++ chunk)).1 ++
          (splitPendingStart (st.buffer ++ chunk)).2 ++ u ++ (w ++ spaces cs) := by rw [hsplit]
        _ = _ := by simp only [append_assoc]
    · intro its h
      exact h
  rcases append_eq_append_iff.mp hs with ⟨u, rfl, rfl⟩ | ⟨s₁, rfl, hs₁⟩
  · rw [← append_assoc] at hn
    rw [← append_assoc st.buffer]
    exact hheld hn
  have hcut₁ : ¬ Cuts s₁ q := fun h => hcut (h.of_suffix ((suffix_append _ _).trans
    (suffix_append _ _)))
  rcases token_cases (by decide) hcut₁ hs₁.symm with ⟨rfl, rfl⟩ | ⟨s₂, rfl, hs₂⟩
  · have hres := @hheld [] (by simpa using hn)
    simpa using hres
  · have hcut₂ : ¬ Cuts s₂ q := fun h => hcut₁ (h.of_suffix (suffix_append _ _))
    apply loop_between cls tools cs (idle.withBuffer _) (.begin hn) hw _ hs₂ hcut₂
    simp

/-- The rest of a result after a turn that stops in a call, or ends it. -/
theorem result_of_callTurn {st : State} {s q w : List Char} {cs : List (Call × List Char)}
    {left : List ToolCallItem → Prop} (hb : st.buffer = toolCallStartToken ++ s)
    (hcut : ¬ Cuts s q) (hw : SpaceOk w cs)
    (h : (∃ out st' left', callTurn cls tools st = .stop ⟨[], out⟩ st' ∧
        Phase cls tools st' q (w ++ spaces cs) left' ∧ ∀ items, left' items → left (out ++ items)) ∨
      ∃ out st' j, callTurn cls tools st = .next ⟨[], out⟩ st' ∧ Idle st' j ∧
        st'.buffer ++ q = w ++ tail cs ∧ st'.buffer <:+ s ∧
        ∀ items, Sends j (named cls tools cs) items → left (out ++ items)) :
    Result cls tools st q (w ++ spaces cs) left := by
  have hturn := turn_call cls tools (Outside.plain (plain_of_not_mem (not_mem_nil)))
    (show st.buffer = [] ++ (toolCallStartToken ++ s) from hb)
  rw [← hb] at hturn
  rcases h with ⟨out, st', left', hcall, hphase, hleft⟩ | ⟨out, st', j, hcall, hidle, hb', hsuf,
    hleft⟩
  · rw [hcall] at hturn
    apply result_of_stop hturn hphase
    · rfl
    · simpa using hleft
  · rw [hcall] at hturn
    have hrest := loop_between cls tools cs hidle .call hw (nil_append _).symm hb' fun h =>
      hcut (h.of_suffix hsuf)
    apply result_of_next hturn hrest
    · rfl
    · simpa using hleft

theorem loop_spec {st : State} {r chunk q rest : List Char} {left : List ToolCallItem → Prop}
    (h : Phase cls tools st r rest left) (hr : r = chunk ++ q)
    (hcut : ¬ Cuts (st.buffer ++ chunk) q) :
    Result cls tools { st with buffer := st.buffer ++ chunk } q rest left := by
  cases h with
  | done idle hb =>
    obtain ⟨rfl, rfl⟩ := append_eq_nil_iff.mp hr.symm
    have hturn : turn cls tools { st with buffer := st.buffer ++ [] } = .stop ⟨[], []⟩ st := by
      rw [append_nil, turn_text]
      · rw [hb, splitPendingStart_of_not_mem (not_mem_nil),
          (Outside.plain (plain_of_not_mem (not_mem_nil))).strip_eq, ← hb]
      · rw [hb]
        exact find_start_nil
    apply result_of_stop hturn (.done idle hb)
    · rfl
    · intro its h
      exact h
  | before idle hn hw => exact loop_before idle hn hw hr.symm hcut
  | between idle hb hw =>
    apply loop_between cls tools _ (idle.withBuffer _) .call hw _ hr.symm
    · intro h
      exact hcut (h.of_suffix (suffix_append _ _))
    · rw [hb]
  | @header i c s q' w cs idle hb hs hq hw =>
    have hb' : st.buffer ++ chunk = toolCallStartToken ++ (s ++ chunk) := by
      rw [hb, append_assoc]
    have hcut' : ¬ Cuts (s ++ chunk) q := by
      intro h
      apply hcut
      rw [hb']
      exact h.of_suffix (suffix_append _ _)
    rw [hr, ← append_assoc] at hs
    apply result_of_callTurn hb' hcut' hw
    exact callTurn_idle cls tools (idle.withBuffer _) hb' hs hcut' hw
  | @arguments i c name a a' w cs hb ha hlast hname hindex hw =>
    have hb' : st.buffer ++ chunk = toolCallStartToken ++ (c.header ++
        (toolCallArgumentBeginToken ++ (a ++ chunk))) := by
      rw [hb]
      simp
    have hcut' : ¬ Cuts (c.header ++ (toolCallArgumentBeginToken ++ (a ++ chunk))) q := by
      intro h
      apply hcut
      rw [hb']
      exact h.of_suffix (suffix_append _ _)
    have hchunk : chunk <:+ c.header ++ (toolCallArgumentBeginToken ++ (a ++ chunk)) :=
      ⟨c.header ++ (toolCallArgumentBeginToken ++ a), by simp⟩
    apply result_of_callTurn hb' hcut' hw
    rcases @callTurn_arguments cls tools { st with buffer := st.buffer ++ chunk } i c name a chunk
      a' q w cs hb' ha hlast hname hindex hr.symm (fun h => hcut' (h.of_suffix hchunk)) hw with h |
      ⟨out, st', j, hcall, hidle, hrest, hsuf, hleft⟩
    · exact .inl h
    · exact .inr ⟨out, st', j, hcall, hidle, hrest, hsuf.trans hchunk, hleft⟩

/-! ## Section 5: All chunks -/

def Turn.state : Turn → State
  | .stop _ st => st
  | .next _ st => st

theorem sendArguments_buffer (st : State) (name argsFull : List Char) (justResolved : Bool) :
    (sendArguments (sendState st name justResolved) justResolved name argsFull).2.buffer =
      st.buffer := by
  cases justResolved <;> rfl

theorem callTurn_suffix (st : State) : (callTurn cls tools st).state.buffer <:+ st.buffer := by
  unfold callTurn
  dsimp only
  split
  · exact drop_suffix _ _
  · split
    · exact suffix_rfl
    · split
      · exact suffix_rfl
      · exact drop_suffix _ _
      · split
        · rw [Turn.state, sendArguments_buffer]
        · exact drop_suffix _ _

theorem turn_suffix (st : State) : (turn cls tools st).state.buffer <:+ st.buffer := by
  unfold turn
  split
  · exact ⟨_, (splitPendingStart_spec st.buffer).1⟩
  · next i hi =>
    have hcall := @callTurn_suffix cls tools { st with buffer := st.buffer.drop i }
    dsimp only
    split
    · next heq =>
      rw [heq] at hcall
      exact hcall.trans (drop_suffix _ _)
    · next heq =>
      rw [heq] at hcall
      exact hcall.trans (drop_suffix _ _)

theorem loop_suffix (st : State) : (loop cls tools st).2.buffer <:+ st.buffer := by
  have hturn := @turn_suffix cls tools st
  cases h : turn cls tools st with
  | stop out st' =>
    rw [h] at hturn
    rw [loop_stop h]
    exact hturn
  | next out st' =>
    rw [h] at hturn
    rw [loop_next h]
    have hlt := turn_next cls tools h
    exact (loop_suffix st').trans hturn
termination_by st.buffer.length

def Whole (chunks : List (List Char)) : Prop :=
  ∀ before after, chunks = before ++ after → ¬ Cuts before.flatten after.flatten

theorem Phase.at_end {st : State} {rest : List Char} {left : List ToolCallItem → Prop}
    (h : Phase cls tools st [] rest left) : rest = [] ∧ left [] ∧ st.buffer = [] := by
  have htoken : ∀ {p : List Char} (a z : List Char), p ∈ specialTokens → [] ≠ a ++ (p ++ z) :=
    fun a z hp h => append_token_ne_nil hp a z h.symm
  generalize hr : ([] : List Char) = r at h
  cases h with
  | done idle hb => exact ⟨rfl, rfl, hb⟩
  | before => exact absurd hr (htoken _ _ (by decide))
  | @between i w cs =>
    refine absurd hr fun hnil => ?_
    have htail := tail_head cs
    rw [(append_eq_nil_iff.mp hnil.symm).2] at htail
    cases htail
  | header _ _ _ hq => exact absurd hr.symm hq
  | arguments => exact absurd hr (htoken _ _ (by decide))

theorem stream_of_phase (chunks : List (List Char)) : ∀ {st : State} {r rest consumed : List Char}
    {left : List ToolCallItem → Prop}, Phase cls tools st r rest left → r = chunks.flatten →
    st.buffer <:+ consumed →
    (∀ before after, chunks = before ++ after → ¬ Cuts (consumed ++ before.flatten) after.flatten) →
    (streamChunks cls tools st chunks).1.normalText = rest ∧
      left (streamChunks cls tools st chunks).1.calls ∧
      (streamChunks cls tools st chunks).2.buffer = [] := by
  induction chunks with
  | nil =>
    intro st r rest consumed left h hr _ _
    rw [flatten_nil] at hr
    subst hr
    obtain ⟨hrest, hleft, hb⟩ := h.at_end
    exact ⟨hrest.symm, hleft, hb⟩
  | cons chunk chunks ih =>
    intro st r rest consumed left h hr hsuf hwhole
    have hsuf' : st.buffer ++ chunk <:+ consumed ++ chunk := by
      obtain ⟨u, hu⟩ := hsuf
      exact ⟨u, by rw [← append_assoc, hu]⟩
    have hcut : ¬ Cuts (st.buffer ++ chunk) chunks.flatten := by
      intro hcut
      apply hwhole [chunk] chunks rfl
      rw [flatten_cons, flatten_nil, append_nil]
      exact hcut.of_suffix hsuf'
    obtain ⟨out, rest', left', hphase, hout, hnormal, hleft⟩ := loop_spec h hr hcut
    rw [← parse_eq_loop] at hphase hout hleft
    have hkept : (parseStreamingIncrement cls tools st chunk).2.buffer <:+ consumed ++ chunk := by
      rw [parse_eq_loop]
      exact (loop_suffix _).trans hsuf'
    obtain ⟨htext, hcalls, hend⟩ := ih hphase rfl hkept (by
      intro before after heq
      have := hwhole (chunk :: before) after (by rw [heq, cons_append])
      rwa [flatten_cons, ← append_assoc] at this)
    refine ⟨?_, ?_, hend⟩
    · simp only [streamChunks, StreamingParseResult.add_def]
      rw [htext, hout, hnormal]
    · simp only [streamChunks, StreamingParseResult.add_def]
      exact hleft _ hcalls

variable (cls tools) in
theorem stream_spec (t : Text) {chunks : List (List Char)} (htext : chunks.flatten = t.render)
    (hwhole : Whole chunks) :
    (streamChunks cls tools State.new chunks).1.normalText = t.normal ++
      (t.space ++ spaces t.calls) ∧ Sends 0 (named cls tools t.calls)
      (streamChunks cls tools State.new chunks).1.calls ∧
      (streamChunks cls tools State.new chunks).2.buffer = [] := by
  have hphase : Phase cls tools State.new t.render (t.normal ++ (t.space ++ spaces t.calls))
      (Sends 0 (named cls tools t.calls)) :=
    .before ⟨rfl, rfl, .inr ⟨rfl, rfl⟩⟩ t.normal_plain ⟨t.space_space, t.calls_space⟩
  exact stream_of_phase chunks hphase htext.symm suffix_rfl hwhole

end Streams

end Sglang.FunctionCall.KimiK2
