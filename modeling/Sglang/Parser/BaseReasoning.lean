import Sglang.Lib.Markers
import Sglang.Parser.ParseResult

/-!
# The Base Reasoning Detector

Model of `BaseReasoningFormatDetector` (`parser/reasoning_parser.py`), with any markers: the
constructor, the one-shot parser and the streaming parser.

## Conventions

- A text is a list of characters; `p in t` is `p <:+: t` and `t.find(p)` is `Lib.find`.
- `think_start_self_label` is empty in the base class and left out.
- A marker is not empty: with an empty start marker `detect_and_parse` does not return.
-/

namespace Sglang.Parser.BaseReasoning

open Lib

/-- The markers of a detector. -/
structure Markers where
  thinkStartToken : List Char
  thinkEndToken : List Char
  toolStartToken : Option (List Char)
  thinkStart_ne_nil : thinkStartToken ≠ []
  thinkEnd_ne_nil : thinkEndToken ≠ []
  toolStart_ne_nil : ∀ t, toolStartToken = some t → t ≠ []

/-- The arguments of the constructor, with the markers. -/
structure Config where
  markers : Markers
  forceReasoning : Bool
  streamReasoning : Bool
  continueFinalMessage : Bool
  previousContent : List Char

/-- The attribute `previous_content`. -/
def Config.previous (c : Config) : List Char :=
  if c.continueFinalMessage then c.previousContent else []

/-- The attributes that change. -/
structure Detector where
  buffer : List Char
  inReasoning : Bool
  strippedThinkStart : Bool
deriving DecidableEq

/-- `__init__`. -/
def Detector.new (c : Config) : Detector :=
  let inReasoning := c.forceReasoning
  let inReasoning := if c.markers.thinkStartToken <:+: c.previous then true else inReasoning
  let inReasoning := if c.markers.thinkEndToken <:+: c.previous then false else inReasoning
  ⟨[], inReasoning, false⟩

/-! ## Section 1: The one-shot parser -/

def stripThinkStart (m : Markers) (text : List Char) : List Char :=
  if _h : m.thinkStartToken <+: text then stripThinkStart m (text.drop m.thinkStartToken.length)
  else text
termination_by text.length
decreasing_by
  have hpos := List.length_pos_of_ne_nil m.thinkStart_ne_nil
  have hle := _h.length_le
  rw [List.length_drop]
  omega

def detectAndParse (c : Config) (d : Detector) (text : List Char) : ParseResult :=
  let m := c.markers
  if ¬ (d.inReasoning ∨ m.thinkStartToken <:+: text) then ⟨[], text⟩
  else
    let processed := stripThinkStart m text
    if ¬ m.thinkEndToken <:+: processed ∧ ¬ m.thinkEndToken <:+: c.previous then
      match m.toolStartToken.bind fun t => find t processed with
      | some i => ⟨processed.take i, processed.drop i⟩
      | none => ⟨processed, []⟩
    else
      match find m.thinkEndToken processed with
      | some i => ⟨processed.take i, processed.drop (i + m.thinkEndToken.length)⟩
      -- The end marker is in the previous content.
      | none => ⟨[], processed⟩

/-! ## Section 2: The streaming parser -/

/-- `tokens_to_check`. -/
def Markers.tokens (m : Markers) : List (List Char) :=
  [m.thinkStartToken, m.thinkEndToken] ++ m.toolStartToken.toList

/-- The buffer may be the beginning of a marker. -/
def Markers.Held (m : Markers) (text : List Char) : Prop :=
  ∃ token ∈ m.tokens, text <+: token ∧ token ≠ text

instance (m : Markers) (text : List Char) : Decidable (m.Held text) :=
  inferInstanceAs (Decidable (∃ token ∈ m.tokens, text <+: token ∧ token ≠ text))

/-- The branches after the start marker; `buffer` is the buffer as it stands. -/
def parseCurrent (c : Config) (d : Detector) (buffer currentText : List Char) :
    Detector × ParseResult :=
  let m := c.markers
  if d.inReasoning then
    match find m.thinkEndToken currentText with
    | some endIdx =>
      (⟨[], false, d.strippedThinkStart⟩,
        ⟨currentText.take endIdx, currentText.drop (endIdx + m.thinkEndToken.length)⟩)
    | none =>
      match m.toolStartToken.bind fun t => find t currentText with
      | some toolIdx =>
        (⟨[], false, d.strippedThinkStart⟩, ⟨currentText.take toolIdx, currentText.drop toolIdx⟩)
      | none =>
        if c.streamReasoning then (⟨[], true, d.strippedThinkStart⟩, ⟨currentText, []⟩)
        else (⟨buffer, true, d.strippedThinkStart⟩, .empty)
  else (⟨[], false, d.strippedThinkStart⟩, ⟨[], currentText⟩)

def parseStreamingIncrement (c : Config) (d : Detector) (newText : List Char) :
    Detector × ParseResult :=
  let m := c.markers
  let buffer := d.buffer ++ newText
  if m.Held buffer then ({ d with buffer := buffer }, .empty)
  else
    match if d.strippedThinkStart then none else find m.thinkStartToken buffer with
    -- `current_text.replace(think_start_text, "", 1)`
    | some i =>
      parseCurrent c ⟨buffer, true, true⟩ buffer
        (buffer.take i ++ buffer.drop (i + m.thinkStartToken.length))
    | none => parseCurrent c d buffer buffer

/-- The chunks of a stream, one after the other. -/
def parseStream (c : Config) : Detector → List (List Char) → Detector × ParseResult :=
  streamChunks (parseStreamingIncrement c)

end Sglang.Parser.BaseReasoning
