import Sglang.FunctionCall.CoreTypes

/-!
# The Tool-Call Detector of Kimi K2

Model of `KimiK2Detector` (`function_call/kimik2_detector.py`): the one-shot parser, a search for
complete calls, and the streaming parser, which sends the arguments of a call as they come.

## Conventions

- A text is a list of characters; `str.find` is `Lib.find`, and `json.loads` is `Lib.Json.loads`.
- The regular expressions have one way to match at a position; `findCalls` takes it.
- The schema of a tool is its name and the names of its properties.
- Which characters are digits and letters is given.
- The limits of the interpreter on the length of numbers and the depth of nesting are left out, and
  with them the exceptions.
-/

namespace Sglang.FunctionCall.KimiK2

open List Option
open Lib

/-! ## Section 1: Tokens -/

def botToken : List Char := "<|tool_calls_section_begin|>".toList

def eotToken : List Char := "<|tool_calls_section_end|>".toList

def toolCallStartToken : List Char := "<|tool_call_begin|>".toList

def toolCallEndToken : List Char := "<|tool_call_end|>".toList

def toolCallArgumentBeginToken : List Char := "<|tool_call_argument_begin|>".toList

def specialTokens : List (List Char) :=
  [botToken, eotToken, toolCallStartToken, toolCallEndToken, toolCallArgumentBeginToken]

/-- `text.replace(token, "")`. -/
def remove (token text : List Char) : List Char :=
  match _h : cut token text with
  | none => text
  | some (before, after) => if token = [] then text else before ++ remove token after
termination_by text.length
decreasing_by
  have hlen := congrArg List.length (cut_eq _h)
  have hpos := length_pos_of_ne_nil ‹¬ token = []›
  simp only [length_append] at hlen
  omega

def stripSpecialTokens (text : List Char) : List Char :=
  specialTokens.foldl (fun text token => remove token text) text

/-- `str.isspace`, and `\s` of a regular expression. -/
def isSpace (c : Char) : Bool :=
  let n := c.toNat
  (9 ≤ n && n ≤ 13) || (28 ≤ n && n ≤ 32) || n = 0x85 || n = 0xa0 || n = 0x1680 ||
    (0x2000 ≤ n && n ≤ 0x200a) || n = 0x2028 || n = 0x2029 || n = 0x202f || n = 0x205f || n = 0x3000

def strip (s : List Char) : List Char :=
  ((s.dropWhile isSpace).reverse.dropWhile isSpace).reverse

/-! ## Section 2: Names -/

/-- `\w` and `\d` of a regular expression. -/
structure CharClasses where
  isWord : Char → Bool
  isDigit : Char → Bool

/-- A tool: its name and its properties. Parameters that are no dict, for which `_infer_tool_name`
raises, are left out. -/
structure ToolSchema where
  name : List Char
  properties : List (List Nat)

/-- The keys of the arguments; `none` is a `JSONDecodeError`. -/
def argKeys (functionArgs : List Char) : Option (List (List Nat)) :=
  match Json.loads functionArgs with
  | some (.obj members) => some (members.map Prod.fst).dedup
  | _ => none

/-- The score of a tool for the keys of the arguments. -/
def score (keys : List (List Nat)) (tool : ToolSchema) : Int :=
  (keys.filter (· ∈ tool.properties)).length - (keys.filter (· ∉ tool.properties)).length

/-- The tool with the best score, the first of them. -/
def bestTool (keys : List (List Nat)) (tools : List ToolSchema) : Option (List Char) :=
  (tools.foldl (fun (best : Option (List Char) × Int) tool =>
    if tool.properties = [] then best
    else if score keys tool > best.2 then (some tool.name, score keys tool)
    else best) (none, -1)).1

def inferToolName (tools : List ToolSchema) (functionArgs : List Char) : Option (List Char) :=
  match tools with
  | [] => none
  | [tool] => some tool.name
  | tools =>
    if functionArgs = [] then none
    else (argKeys functionArgs).bind fun keys => bestTool keys tools

section Ids

variable (cls : CharClasses)

/-- `[\w.\-]+:\d+`, as a whole: the name. -/
def matchNameIndex (s : List Char) : Option (List Char) :=
  match cut ":".toList s with
  | some (name, index) =>
    if name ≠ [] ∧ (name.all fun c => cls.isWord c || c = '.' || c = '-') ∧ index ≠ [] ∧
        index.all cls.isDigit then some name
    else none
  | none => none

/-- `tool_call_id_regex`: the name. -/
def matchToolCallId (functionId : List Char) : Option (List Char) :=
  if "functions.".toList <+: functionId then
    (matchNameIndex cls (functionId.drop 10)).or (matchNameIndex cls functionId)
  else matchNameIndex cls functionId

/-- `tool_call_id_counter_regex`. -/
def isCounter (functionId : List Char) : Bool := functionId ≠ [] && functionId.all cls.isDigit

/-- The name in `_parse_tool_call_id`. -/
def parseToolCallId (functionId : List Char) (tools : List ToolSchema) (functionArgs : List Char) :
    Option (List Char) :=
  match matchToolCallId cls functionId with
  | some name => some name
  | none =>
    if isCounter cls functionId then
      -- `if name:` does not take an empty name
      (inferToolName tools functionArgs).filter (· ≠ [])
    else none

def resolveFunctionName (functionId : List Char) (tools : List ToolSchema)
    (functionArgs : List Char) : Option (List Char) :=
  if functionId = [] then inferToolName tools functionArgs
  else
    match matchToolCallId cls functionId with
    | some name => some name
    | none => if isCounter cls functionId then inferToolName tools functionArgs else none

end Ids

/-! ## Section 3: The one-shot parser -/

/-- `\}\s*<\|tool_call_end\|>`, as soon as possible: the text to the brace, and what follows. -/
def matchClose : List Char → Option (List Char × List Char)
  | [] => none
  | c :: s =>
    if c = '\x7d' ∧ toolCallEndToken <+: s.dropWhile isSpace then
      some ([c], (s.dropWhile isSpace).drop toolCallEndToken.length)
    else (matchClose s).map fun r => (c :: r.1, r.2)

/-- `tool_call_regex` at a position: the id, the arguments, and what follows. -/
def matchToolCall (s : List Char) : Option ((List Char × List Char) × List Char) :=
  if toolCallStartToken <+: s then
    let s := (s.drop toolCallStartToken.length).dropWhile isSpace
    let toolCallId := s.takeWhile fun c => !isSpace c && c ≠ '<' && c ≠ '|'
    let s := (s.drop toolCallId.length).dropWhile isSpace
    if toolCallId ≠ [] ∧ toolCallArgumentBeginToken <+: s then
      match (s.drop toolCallArgumentBeginToken.length).dropWhile isSpace with
      | '\x7b' :: s => (matchClose s).map fun r => ((toolCallId, '\x7b' :: r.1), r.2)
      | _ => none
    else none
  else none

theorem matchClose_length {s : List Char} {r : List Char × List Char} (h : matchClose s = some r) :
    r.2.length < s.length := by
  induction s generalizing r with
  | nil => cases h
  | cons c s ih =>
    unfold matchClose at h
    split at h
    · cases h
      have := (dropWhile_sublist isSpace (l := s)).length_le
      simp only [length_drop, length_cons]
      omega
    · obtain ⟨r', hr', rfl⟩ := map_eq_some_iff.mp h
      have := ih hr'
      simp only [length_cons]
      omega

theorem matchToolCall_length {s : List Char} {r : (List Char × List Char) × List Char}
    (h : matchToolCall s = some r) : r.2.length < s.length := by
  unfold matchToolCall at h
  split at h
  · dsimp only at h
    split at h
    · split at h
      · next s' hs' =>
        obtain ⟨r', hr', rfl⟩ := map_eq_some_iff.mp h
        have hclose := matchClose_length hr'
        have hsuffix : '\x7b' :: s' <:+ s := by
          rw [← hs']
          exact (dropWhile_suffix _).trans <| (drop_suffix _ _).trans <|
            (dropWhile_suffix _).trans <| (drop_suffix _ _).trans <|
            (dropWhile_suffix _).trans (drop_suffix _ _)
        have hle := hsuffix.length_le
        rw [length_cons] at hle
        exact hclose.trans hle
      · cases h
    · cases h
  · cases h

/-- `tool_call_regex.findall`. -/
def findCalls (s : List Char) : List (List Char × List Char) :=
  match _h : matchToolCall s with
  | some (call, rest) => call :: findCalls rest
  | none =>
    match s with
    | [] => []
    | _ :: s => findCalls s
termination_by s.length
decreasing_by
  · exact matchToolCall_length _h
  · exact Nat.lt_succ_self _

section Parsers

variable (cls : CharClasses) (tools : List ToolSchema)

/-- The calls with a name, numbered as they come. -/
def numberCalls : Nat → List (List Char × List Char) → List ToolCallItem
  | _, [] => []
  | index, (functionId, functionArgs) :: rest =>
    match parseToolCallId cls functionId tools functionArgs with
    | none => numberCalls index rest
    | some name => ⟨index, some name, functionArgs⟩ :: numberCalls (index + 1) rest

def detectAndParse (text : List Char) : StreamingParseResult :=
  match find botToken text with
  | none => ⟨text, []⟩
  | some i => ⟨text.take i, numberCalls cls tools 0 (findCalls text)⟩

/-! ## Section 4: The streaming parser -/

/-- The fields of the detector that the streaming parser reads. -/
structure State where
  buffer : List Char
  currentToolId : Int
  lastArguments : List Char
  currentStreamFunctionName : Option (List Char)
deriving DecidableEq

def State.new : State := ⟨[], -1, [], none⟩

/-- `_reset_inflight_call_state`, with a new buffer. -/
def State.reset (st : State) (buffer : List Char) : State :=
  { st with buffer := buffer, lastArguments := [], currentStreamFunctionName := none }

def splitPendingStart (text : List Char) : List Char × List Char :=
  let candidates := [botToken, toolCallStartToken]
  let maxTail := max botToken.length toolCallStartToken.length - 1
  match (List.range' 2 (min text.length maxTail - 1)).reverse.find? fun n =>
      candidates.any fun t => text.drop (text.length - n) <+: t with
  | some n => (text.take (text.length - n), text.drop (text.length - n))
  | none => (text, [])

/-- What one turn of the loop does. -/
inductive Turn where
  | stop (out : StreamingParseResult) (st : State)
  | next (out : StreamingParseResult) (st : State)

/-- The arguments that have arrived since the last chunk, with the name if it has just been
resolved, and the state after them. -/
def sendArguments (st : State) (justResolved : Bool) (name : List Char) (argsFull : List Char) :
    List ToolCallItem × State :=
  let argumentDiff := argsFull.drop st.lastArguments.length
  (if argumentDiff ≠ [] ∨ justResolved then
      [⟨st.currentToolId, if justResolved then some name else none, argumentDiff⟩]
    else [],
    { st with lastArguments := st.lastArguments ++ argumentDiff })

/-- The name of the current call, and whether it has just been resolved. -/
def resolved (st : State) (functionId argsFull : List Char) : Option (List Char × Bool) :=
  match st.currentStreamFunctionName with
  | some name => some (name, false)
  | none => (resolveFunctionName cls functionId tools argsFull).map (·, true)

/-- The state in which the arguments are sent. -/
def sendState (st : State) (name : List Char) (justResolved : Bool) : State :=
  if justResolved then
    { st with
      currentStreamFunctionName := some name
      currentToolId := if st.currentToolId = -1 then 0 else st.currentToolId }
  else st

/-- A turn of the loop on a buffer that starts with `<|tool_call_begin|>`. -/
def callTurn (st : State) : Turn :=
  let buffer := st.buffer
  let argBeginIdx := find toolCallArgumentBeginToken buffer
  let nextBegin := (find toolCallStartToken (buffer.drop toolCallStartToken.length)).map
    (· + toolCallStartToken.length)
  -- another call before the header closes: the section is malformed
  match nextBegin.filter fun n => argBeginIdx.all fun a => n < a with
  | some n => .next 0 (st.reset (buffer.drop n))
  | none =>
    match argBeginIdx with
    | none => .stop 0 st
    | some argBeginIdx =>
      let functionId := strip ((buffer.take argBeginIdx).drop toolCallStartToken.length)
      let argsStart := argBeginIdx + toolCallArgumentBeginToken.length
      let endIdx := find toolCallEndToken buffer
      let argsFull := match endIdx with
        | some e => (buffer.take e).drop argsStart
        | none => buffer.drop argsStart
      match resolved cls tools st functionId argsFull, endIdx with
      | none, none => .stop 0 st
      | none, some e => .next 0 (st.reset (buffer.drop (e + toolCallEndToken.length)))
      | some (name, justResolved), endIdx =>
        let sent := sendArguments (sendState st name justResolved) justResolved name argsFull
        match endIdx with
        | none => .stop ⟨[], sent.1⟩ sent.2
        | some e => .next ⟨[], sent.1⟩
            { sent.2.reset (buffer.drop (e + toolCallEndToken.length)) with
              currentToolId := sent.2.currentToolId + 1 }

/-- A turn of the loop of `parse_streaming_increment`, with `_locate_tool_call_start`. -/
def turn (st : State) : Turn :=
  match find toolCallStartToken st.buffer with
  | none =>
    let (emit, hold) := splitPendingStart st.buffer
    .stop ⟨stripSpecialTokens emit, []⟩ { st with buffer := hold }
  | some i =>
    let text : StreamingParseResult := ⟨stripSpecialTokens (st.buffer.take i), []⟩
    match callTurn cls tools { st with buffer := st.buffer.drop i } with
    | .stop out st => .stop (text + out) st
    | .next out st => .next (text + out) st

theorem callTurn_next {st st' : State} {out : StreamingParseResult} (hne : st.buffer ≠ [])
    (h : callTurn cls tools st = .next out st') : st'.buffer.length < st.buffer.length := by
  have hpos := length_pos_of_ne_nil hne
  have hdrop : ∀ n, 0 < n → (st.buffer.drop n).length < st.buffer.length := by
    intro n hn
    rw [length_drop]
    omega
  have hend : 0 < toolCallEndToken.length := by decide
  have hstart : 0 < toolCallStartToken.length := by decide
  unfold callTurn at h
  dsimp only at h
  split at h
  · next n hn =>
    cases h
    obtain ⟨k, _, rfl⟩ := map_eq_some_iff.mp (filter_eq_some_iff.mp hn).1
    exact hdrop _ (by omega)
  · split at h
    · cases h
    · split at h
      · cases h
      · cases h
        exact hdrop _ (by omega)
      · split at h
        · cases h
        · cases h
          exact hdrop _ (by omega)

theorem turn_next {st st' : State} {out : StreamingParseResult}
    (h : turn cls tools st = .next out st') : st'.buffer.length < st.buffer.length := by
  unfold turn at h
  split at h
  · cases h
  · next i hi =>
    dsimp only at h
    split at h
    · cases h
    · next out' st'' hcall =>
      cases h
      have hne : st.buffer.drop i ≠ [] := by
        rw [find_eq_cut] at hi
        obtain ⟨⟨a, b⟩, hcut, rfl⟩ := map_eq_some_iff.mp hi
        rw [(drop_cut hcut).2.1]
        exact append_ne_nil_of_left_ne_nil (by decide) b
      have hlt := callTurn_next cls tools hne hcall
      exact hlt.trans_le (by rw [length_drop]; omega)

/-- The loop of `parse_streaming_increment`. -/
def loop (st : State) : StreamingParseResult × State :=
  match _h : turn cls tools st with
  | .stop out st => (out, st)
  | .next out st =>
    let rest := loop st
    (out + rest.1, rest.2)
termination_by st.buffer.length
decreasing_by exact turn_next cls tools _h

def parseStreamingIncrement (st : State) (newText : List Char) : StreamingParseResult × State :=
  let st := { st with buffer := st.buffer ++ newText }
  if st.currentStreamFunctionName = none ∧ find botToken st.buffer = none ∧
      find toolCallStartToken st.buffer = none then
    let (emit, hold) := splitPendingStart st.buffer
    (⟨stripSpecialTokens emit, []⟩, { st with buffer := hold })
  else loop cls tools st

/-- The results over the chunks of a stream, one after the other. -/
def streamChunks (st : State) : List (List Char) → StreamingParseResult × State
  | [] => (0, st)
  | chunk :: chunks =>
    let next := parseStreamingIncrement cls tools st chunk
    let rest := streamChunks next.2 chunks
    (next.1 + rest.1, rest.2)

end Parsers

end Sglang.FunctionCall.KimiK2
