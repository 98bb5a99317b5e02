import Sglang.FunctionCall.CoreTypes
import Sglang.Lib.CursorLoop

/-!
# The Tool-Call Detector of Qwen3 Coder

Model of `Qwen3CoderDetector.parse_streaming_increment`
(`function_call/qwen3_coder_detector.py`): a cursor moves over the buffer and takes one tag, one
parameter or one piece of text at a time.

## Conventions

- A text is a list of characters; `str.find` is `Lib.find`.
- `none` and `Move.fail` are exceptions. What a call collected before an exception is lost; what it
  assigned to the detector stays, and the buffer is not sliced.
- Log messages are left out.
-/

namespace Sglang.FunctionCall.Qwen3Coder

open List Option
open Lib

/-! ## Section 1: Tags -/

def toolCallStartToken : List Char := "<tool_call>".toList

def toolCallEndToken : List Char := "</tool_call>".toList

def toolCallPrefix : List Char := "<function=".toList

def functionEndToken : List Char := "</function>".toList

def parameterPrefix : List Char := "<parameter=".toList

def parameterEndToken : List Char := "</parameter>".toList

def possibleTags : List (List Char) :=
  [toolCallStartToken, toolCallEndToken, toolCallPrefix, functionEndToken, parameterPrefix,
    parameterEndToken]

/-! ## Section 2: Values of parameters -/

section Values

variable {V : Type} (lib : PyLib V)

def getArgumentsConfig (funcName : Option (List Char)) (tools : Option (List Tool)) : Json :=
  match tools with
  | none => .obj []
  | some tools =>
    match tools.find? fun config => decide (config.type = "function".toList ∧
        some config.function.name = funcName) with
    | none => .obj []
    | some config =>
      match config.function.parameters with
      | .obj members => (getItem (.obj members) "properties".toList).getD (.obj members)
      | _ => .obj []

/-- The declared type of a parameter in its configuration. -/
def paramType (config : Json) : List Char :=
  match getItem config "type".toList with
  | some type => lib.lower (lib.strip (lib.showJson type))
  | none => "string".toList

/-- `_convert_param_value` by the declared type. -/
def convertByType (paramType paramValue : List Char) : V :=
  if paramType ∈ ["string".toList, "str".toList, "text".toList, "varchar".toList, "char".toList,
      "enum".toList] then lib.str paramValue
  else if "int".toList <+: paramType ∨ "uint".toList <+: paramType ∨ "long".toList <+: paramType ∨
      "short".toList <+: paramType ∨ "unsigned".toList <+: paramType then
    (lib.int paramValue).getD (lib.str paramValue)
  else if "num".toList <+: paramType ∨ "float".toList <+: paramType then
    let maybeConvert := ¬ ('.' ∈ paramValue ∨ 'e' ∈ lib.lower paramValue)
    match lib.float paramValue with
    | some value => if maybeConvert ∧ lib.isInteger value then lib.floatToInt value else value
    | none => lib.str paramValue
  else if paramType ∈ ["boolean".toList, "bool".toList, "binary".toList] then
    lib.bool (decide (lib.lower paramValue = "true".toList))
  else
    let loaded :=
      if paramType ∈ ["object".toList, "array".toList, "arr".toList] ∨ "dict".toList <+: paramType ∨
          "list".toList <+: paramType then lib.loads paramValue
      else none
    match loaded with
    | some value => value
    | none => (lib.literalEval paramValue).getD (lib.str paramValue)

def convertParamValue (paramValue paramName : List Char) (paramConfig : Json) : Option V :=
  if lib.lower paramValue = "null".toList then some lib.none
  else
    match contains paramConfig paramName with
    | none => none
    | some false => some (lib.str paramValue)
    | some true => (getItem paramConfig paramName).map fun config =>
        convertByType lib (paramType lib config) paramValue

/-- A value without one newline at each end. -/
def cleanup (rawValue : List Char) : List Char :=
  let value := if "\n".toList <+: rawValue then rawValue.drop 1 else rawValue
  if "\n".toList <:+ value then value.dropLast else value

/-- `params[key] = value`. -/
def setItem (params : List (List Char × V)) (key : List Char) (value : V) : List (List Char × V) :=
  if key ∈ params.map Prod.fst then
    params.map fun item => if item.1 = key then (key, value) else item
  else params ++ [(key, value)]

end Values

/-! ## Section 3: The streaming parser -/

/-- The fields of the detector, without its buffer and its position in it. -/
structure State where
  currentToolId : Int
  currentToolNameSent : Bool
  currentToolParamCount : Nat
  jsonStarted : Bool
  isInsideToolCall : Bool
  currentFuncName : Option (List Char)
deriving DecidableEq

def State.new : State := ⟨-1, false, 0, false, false, none⟩

/-- Of two candidates the first one, unless the second comes before it. -/
def closer : Option (Nat × Nat) → Nat × Nat → Option (Nat × Nat)
  | none, cand => some cand
  | some b, cand => if cand.1 < b.1 then some cand else some b

/-- `min(candidates, key=lambda x: x[0])`. -/
def minByPosition (candidates : List (Nat × Nat)) : Option (Nat × Nat) :=
  candidates.foldl closer none

/-- Where a value ends, and the length of what ends it. -/
def bestCand (rest : List Char) : Option (Nat × Nat) :=
  minByPosition
    (((find parameterEndToken rest).map fun i => (i, parameterEndToken.length)).toList ++
      ((find parameterPrefix rest).map fun i => (i, 0)).toList ++
      ((find functionEndToken rest).map fun i => (i, 0)).toList)

/-- A fragment of the arguments of the current tool. -/
def State.item (st : State) (parameters : List Char) : ToolCallItem :=
  ⟨st.currentToolId, none, parameters⟩

/-- The opening brace, where it has not been sent. -/
def State.opening (st : State) : List ToolCallItem :=
  if st.jsonStarted then [] else [st.item "\x7b".toList]

def State.text (st : State) (segment : List Char) : StreamingParseResult :=
  ⟨if st.isInsideToolCall then [] else segment, []⟩

section Parser

variable {V : Type} (lib : PyLib V) (tools : Option (List Tool))

/-- `f"{json.dumps(param_name)}: {json.dumps(converted_val, ensure_ascii=False)}"`, with a comma. -/
def fragment (st : State) (paramName rawValue : List Char) : Option (List Char) := do
  let value ← convertParamValue lib (cleanup rawValue) paramName
    (getArgumentsConfig st.currentFuncName tools)
  let dumped ← lib.dumps value
  let jsonKeyVal := lib.dumpsAscii paramName ++ ": ".toList ++ dumped
  some (if st.currentToolParamCount > 0 then ", ".toList ++ jsonKeyVal else jsonKeyVal)

/-- `<function=name>`. -/
def functionStep (st : State) (slice : List Char) : Move State StreamingParseResult :=
  match find ">".toList slice with
  | none => .wait
  | some endAngle =>
    let funcName := (slice.take endAngle).drop toolCallPrefix.length
    .go ⟨[], [⟨st.currentToolId + 1, some funcName, []⟩]⟩
      { st with
        currentToolId := st.currentToolId + 1
        currentToolNameSent := true
        currentToolParamCount := 0
        jsonStarted := false
        currentFuncName := some funcName }
      (endAngle + 1)

/-- `<parameter=name>value...`. -/
def parameterStep (st : State) (slice : List Char) : Move State StreamingParseResult :=
  match find ">".toList slice with
  | none => .wait
  | some nameEnd =>
    let restOfSlice := slice.drop (nameEnd + 1)
    match bestCand restOfSlice with
    | none => .wait
    | some (endPos, endTokenLen) =>
      let paramName := (slice.take nameEnd).drop parameterPrefix.length
      match fragment lib tools st paramName (restOfSlice.take endPos) with
      | none => .fail { st with jsonStarted := true }
      | some fragment =>
        .go ⟨[], st.opening ++ [st.item fragment]⟩
          { st with
            jsonStarted := true
            currentToolParamCount := st.currentToolParamCount + 1 }
          (nameEnd + 1 + endPos + endTokenLen)

def textStep (st : State) (slice : List Char) : Move State StreamingParseResult :=
  match find "<".toList slice with
  | none => .go (st.text slice) st slice.length
  | some 0 =>
    -- A tag may be cut off; any other `<` is text.
    if possibleTags.any fun tag => slice <+: tag then .wait else .go (st.text "<".toList) st 1
  | some (k + 1) => .go (st.text (slice.take (k + 1))) st (k + 1)

/-- One turn of the loop of `parse_streaming_increment`, on the text from the cursor on. -/
def step (st : State) (slice : List Char) : Move State StreamingParseResult :=
  if slice = [] then .wait
  else if toolCallStartToken <+: slice then
    .go 0 { st with isInsideToolCall := true } toolCallStartToken.length
  else if toolCallPrefix <+: slice then functionStep st slice
  else if parameterPrefix <+: slice then parameterStep lib tools st slice
  else if functionEndToken <+: slice then
    .go ⟨[], st.opening ++ [st.item "\x7d".toList]⟩
      { st with jsonStarted := true, currentFuncName := none } functionEndToken.length
  else if toolCallEndToken <+: slice then
    .go 0 { st with isInsideToolCall := false } toolCallEndToken.length
  else textStep st slice

theorem find_add_length_le {p t : List Char} {i : Nat} (h : find p t = some i) :
    i + p.length ≤ t.length := by
  rw [find_eq_cut] at h
  obtain ⟨⟨a, b⟩, hcut, rfl⟩ := map_eq_some_iff.mp h
  rw [cut_eq hcut]
  simp only [length_append]
  omega

theorem minByPosition_mem {candidates : List (Nat × Nat)} {best : Nat × Nat}
    (h : minByPosition candidates = some best) : best ∈ candidates := by
  have hfold : ∀ (cs : List (Nat × Nat)) (b : Option (Nat × Nat)),
      cs.foldl closer b = some best → best ∈ cs ∨ b = some best := by
    intro cs
    induction cs with
    | nil => exact fun b hb => .inr hb
    | cons c cs ih =>
      intro b hb
      rcases ih _ hb with hin | hb
      · exact .inl (mem_cons_of_mem _ hin)
      · cases b with
        | none => exact .inl (by simp_all [closer])
        | some b =>
          dsimp only [closer] at hb
          split at hb
          · exact .inl (by simp_all)
          · exact .inr hb
  rcases hfold candidates none h with hin | hno
  · exact hin
  · cases hno

theorem bestCand_le {rest : List Char} {endPos endTokenLen : Nat}
    (h : bestCand rest = some (endPos, endTokenLen)) : endPos + endTokenLen ≤ rest.length := by
  have hmem := minByPosition_mem h
  simp only [mem_append, mem_toList, map_eq_some_iff, Prod.mk.injEq] at hmem
  rcases hmem with (⟨i, hi, rfl, rfl⟩ | ⟨i, hi, rfl, rfl⟩) | ⟨i, hi, rfl, rfl⟩
  · exact find_add_length_le hi
  · have := find_add_length_le hi
    omega
  · have := find_add_length_le hi
    omega

section Advance

variable {st next : State} {slice : List Char} {out : StreamingParseResult} {n : Nat}

theorem functionStep_advance (h : functionStep st slice = .go out next n) :
    0 < n ∧ n ≤ slice.length := by
  unfold functionStep at h
  split at h
  · cases h
  · next i hfind =>
    cases h
    exact ⟨Nat.succ_pos i, find_add_length_le hfind⟩

theorem parameterStep_advance (h : parameterStep lib tools st slice = .go out next n) :
    0 < n ∧ n ≤ slice.length := by
  unfold parameterStep at h
  split at h
  · cases h
  next i hfind =>
  dsimp only at h
  split at h
  · cases h
  next endPos endTokenLen hbest =>
  split at h
  · cases h
  · cases h
    have hle := bestCand_le hbest
    have hi : i + 1 ≤ slice.length := find_add_length_le hfind
    rw [length_drop] at hle
    omega

theorem textStep_advance (hpos : 0 < slice.length) (h : textStep st slice = .go out next n) :
    0 < n ∧ n ≤ slice.length := by
  unfold textStep at h
  split at h
  · cases h
    exact ⟨hpos, le_rfl⟩
  · split at h
    · cases h
    · cases h
      exact ⟨by decide, hpos⟩
  · next k hfind =>
    cases h
    have hle := find_add_length_le hfind
    have : (0 : Nat) < k + 1 := Nat.succ_pos k
    omega

theorem step_advance (h : step lib tools st slice = .go out next n) : 0 < n ∧ n ≤ slice.length := by
  unfold step at h
  split at h
  · cases h
  next hne =>
  split at h
  · next hpre =>
    cases h
    exact ⟨by decide, hpre.length_le⟩
  split at h
  · exact functionStep_advance h
  split at h
  · exact parameterStep_advance lib tools h
  split at h
  · next hpre =>
    cases h
    exact ⟨by decide, hpre.length_le⟩
  split at h
  · next hpre =>
    cases h
    exact ⟨by decide, hpre.length_le⟩
  · exact textStep_advance (length_pos_of_ne_nil hne) h

end Advance

/-- The loop of `parse_streaming_increment`. -/
def cursor : Cursor State StreamingParseResult Char := ⟨step lib tools, step_advance lib tools⟩

/-- `Qwen3CoderDetector`. -/
structure Detector where
  state : State
  buffer : List Char
  parsedPos : Nat
deriving DecidableEq

def Detector.new : Detector := ⟨State.new, [], 0⟩

/-- `parse_streaming_increment`: what the call returns, `none` where it raises, and the detector
after it. -/
def parseStreamingIncrement (d : Detector) (newText : List Char) :
    Option StreamingParseResult × Detector :=
  let buffer := d.buffer ++ newText
  if buffer = [] then (some 0, { d with buffer := buffer })
  else
    let stop := (cursor lib tools).loop d.state (buffer.drop d.parsedPos)
    let parsedPos := buffer.length - stop.rest.length
    if stop.raised then (none, ⟨stop.next, buffer, parsedPos⟩)
    else (some stop.out, ⟨stop.next, buffer.drop parsedPos, 0⟩)

/-- What the calls on the chunks of a stream give: the results of those that returned, one after the
other, whether one raised, and the detector after the last one. -/
structure Stream where
  out : StreamingParseResult
  raised : Bool
  detector : Detector
deriving DecidableEq

def streamChunks (d : Detector) : List (List Char) → Stream
  | [] => ⟨0, false, d⟩
  | chunk :: chunks =>
    let (result, d') := parseStreamingIncrement lib tools d chunk
    let rest := streamChunks d' chunks
    ⟨result.getD 0 + rest.out, result.isNone || rest.raised, rest.detector⟩

end Parser

end Sglang.FunctionCall.Qwen3Coder
