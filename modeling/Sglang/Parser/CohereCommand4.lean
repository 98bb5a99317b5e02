import Sglang.Lib.Markers
import Sglang.Parser.ParseResult

/-!
# The Reasoning Detector of Cohere Command 4

Model of `CohereCommand4Detector` (`parser/reasoning_parser.py`): the one-shot parser and the
streaming state machine.

## Conventions

- A text is a list of characters; `str.find` is `Lib.find`.
- The last `n` characters of a text are `lastChars n`, and `buf[:-n]` is `butLast n`.
-/

namespace Sglang.Parser.Cohere

open Lib

def thinkStartToken : List Char := "<|START_THINKING|>".toList

def thinkEndToken : List Char := "<|END_THINKING|>".toList

def textStartToken : List Char := "<|START_TEXT|>".toList

def textEndToken : List Char := "<|END_TEXT|>".toList

def actionStartToken : List Char := "<|START_ACTION|>".toList

/-! ## Section 1: The one-shot parser -/

def stripTextMarkers (raw : List Char) : List Char :=
  if raw = [] then []
  else
    match find textStartToken raw with
    | none => if (find actionStartToken raw).isSome then raw else []
    | some s =>
      let tail := raw.drop (s + textStartToken.length)
      match find textEndToken tail with
      | none => tail
      | some e => tail.take e

def detectAndParse (text : List Char) : ParseResult :=
  let (reasoning, rest) :=
    match find thinkEndToken text, find textStartToken text, find actionStartToken text with
    | some i, _, _ => (text.take i, text.drop (i + thinkEndToken.length))
    | none, some i, _ => (text.take i, text.drop i)
    | none, none, some i => (text.take i, text.drop i)
    | none, none, none => (text, [])
  let reasoning :=
    if thinkStartToken <+: reasoning then reasoning.drop thinkStartToken.length else reasoning
  ⟨reasoning, stripTextMarkers rest⟩

/-! ## Section 2: The streaming parser -/

/-- The state of the detector between two chunks. -/
structure Detector where
  buffer : List Char
  reasoningDone : Bool
  sawTextStart : Bool
  sawTextEnd : Bool
  inActionMode : Bool
deriving DecidableEq

def Detector.new : Detector := ⟨[], false, false, false, false⟩

/-- The last `n` characters. -/
def lastChars (n : Nat) (t : List Char) : List Char := t.drop (t.length - n)

/-- All but the last `n` characters. -/
def butLast (n : Nat) (t : List Char) : List Char := t.take (t.length - n)

def endMarkers : List (List Char) := [thinkEndToken, textStartToken, actionStartToken]

/-- The loop over the markers: the first position, and the marker there. -/
def firstMarker (buf : List Char) : Option (Nat × List Char) :=
  endMarkers.foldl (fun first marker =>
    match find marker buf with
    | none => first
    | some p =>
      match first with
      | none => some (p, marker)
      | some (firstPos, _) => if p < firstPos then some (p, marker) else first) none

/-- The length of the longest marker, less one. -/
def maxKeep (markers : List (List Char)) : Nat := (markers.map List.length).foldl max 0 - 1

/-- The text block: `buf` is what follows its start marker. -/
def parseText (d : Detector) (buf : List Char) : Detector × ParseResult :=
  if d.sawTextStart ∧ ¬ d.sawTextEnd then
    match find textEndToken buf with
    | none =>
      -- A tail that may be part of the end marker is kept.
      let keep := textEndToken.length - 1
      if keep < buf.length then
        ({ d with buffer := lastChars keep buf }, ⟨[], butLast keep buf⟩)
      else ({ d with buffer := buf }, ⟨[], []⟩)
    | some e =>
      ({ d with buffer := buf.drop (e + textEndToken.length), sawTextEnd := true },
        ⟨[], buf.take e⟩)
  else ({ d with buffer := buf }, ⟨[], []⟩)

def parseBlock (d : Detector) (buf : List Char) : Detector × ParseResult :=
  if d.inActionMode then
    if buf = [] then ({ d with buffer := buf }, ⟨[], []⟩) else ({ d with buffer := [] }, ⟨[], buf⟩)
  else if d.sawTextStart then parseText d buf
  else
    match find textStartToken buf, find actionStartToken buf with
    | none, none =>
      let keep := maxKeep [textStartToken, actionStartToken]
      if keep < buf.length then ({ d with buffer := lastChars keep buf }, ⟨[], []⟩)
      else ({ d with buffer := buf }, ⟨[], []⟩)
    | none, some a => startAction d buf a
    | some s, none => startText d buf s
    -- `picks.sort()`
    | some s, some a => if a ≤ s then startAction d buf a else startText d buf s
where
  /-- The action block goes on to the tool-call parser as it is. -/
  startAction (d : Detector) (buf : List Char) (a : Nat) : Detector × ParseResult :=
    ({ d with inActionMode := true, buffer := [] }, ⟨[], buf.drop a⟩)
  startText (d : Detector) (buf : List Char) (s : Nat) : Detector × ParseResult :=
    parseText { d with sawTextStart := true } (buf.drop (s + textStartToken.length))

def parseStreamingIncrement (streamReasoning : Bool) (d : Detector) (newText : List Char) :
    Detector × ParseResult :=
  let buf := d.buffer ++ newText
  if d.reasoningDone then parseBlock d buf
  else
    match firstMarker buf with
    | none =>
      let keep := maxKeep endMarkers
      if streamReasoning ∧ keep < buf.length then
        ({ d with buffer := lastChars keep buf }, ⟨butLast keep buf, []⟩)
      else ({ d with buffer := buf }, ⟨[], []⟩)
    | some (pos, marker) =>
      let chunk := buf.take pos
      -- The start marker of a block stays for the branch below.
      let rest := if marker = thinkEndToken then buf.drop (pos + marker.length) else buf.drop pos
      let d := { d with reasoningDone := true }
      if chunk ≠ [] then ({ d with buffer := rest }, ⟨chunk, []⟩) else parseBlock d rest

/-- The chunks of a stream, one after the other. -/
def parseStream (streamReasoning : Bool) : Detector → List (List Char) → Detector × ParseResult :=
  streamChunks (parseStreamingIncrement streamReasoning)

end Sglang.Parser.Cohere
