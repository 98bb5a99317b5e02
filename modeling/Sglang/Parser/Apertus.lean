import Sglang.Lib.Markers
import Sglang.Parser.ParseResult

/-!
# The Reasoning Detector of Apertus 2509

Model of `Apertus2509Detector` (`parser/reasoning_parser.py`): the one-shot parser, which splits a
text at its block markers and the blocks at their tool sections, and the streaming parser, which
follows the next marker in three modes.

## Conventions

- A text is a list of characters, and a slice is `take` or `drop`.
- `str.find` is `Lib.find`; a search from a position is a search in the rest of the text.
- Each parser returns the reasoning text and the normal text.
-/

namespace Sglang.Parser.Apertus

open List
open Lib

def thinkStartToken : List Char := "<|inner_prefix|>".toList

def thinkEndToken : List Char := "<|inner_suffix|>".toList

def toolStartToken : List Char := "<|tools_prefix|>[".toList

def toolEndToken : List Char := "<|tools_suffix|>".toList

/-! ## Section 1: The one-shot parser -/

/-- The kind of a block. -/
inductive Kind where
  | reasoning
  | text
deriving DecidableEq

theorem length_drop_lt {p t : List Char} (hp : p ≠ []) {i : Nat} (h : find p t = some i) :
    (t.drop (i + p.length)).length < t.length := by
  rw [find_eq_cut] at h
  obtain ⟨⟨a, b⟩, hcut, rfl⟩ := Option.map_eq_some_iff.mp h
  have hpos := length_pos_of_ne_nil hp
  rw [cut_eq hcut]
  simp only [length_drop, length_append]
  omega

def splitInnerReasoning (innerText : List Char) : List (Kind × List Char) :=
  match find toolStartToken innerText with
  | none => if innerText ≠ [] then [(.reasoning, innerText)] else []
  | some s =>
    let out := if s > 0 then [(Kind.reasoning, innerText.take s)] else []
    -- The end marker is searched from the start marker on.
    match _he : find toolEndToken (innerText.drop s) with
    | none => out ++ [(.text, innerText.drop s)]
    | some e =>
      let next := s + e + toolEndToken.length
      out ++ [(.text, (innerText.drop s).take (e + toolEndToken.length))] ++
        splitInnerReasoning (innerText.drop next)
termination_by innerText.length
decreasing_by
  have h := length_drop_lt (by decide) _he
  simp only [length_drop] at h ⊢
  omega

/-- The loop of `detect_and_parse_block_sequence` from a cursor outside of a block. -/
def blockLoop (text : List Char) : List (Kind × List Char) :=
  match _hs : find thinkStartToken text with
  | none => [(.text, text)]
  | some s =>
    let before := if s > 0 then [(Kind.text, text.take s)] else []
    let inner := text.drop (s + thinkStartToken.length)
    match _he : find thinkEndToken inner with
    | none => before ++ splitInnerReasoning inner ++ [(.text, [])]
    | some e =>
      before ++ splitInnerReasoning (inner.take e) ++
        blockLoop (inner.drop (e + thinkEndToken.length))
termination_by text.length
decreasing_by
  have h := length_drop_lt (by decide) _hs
  have h' := length_drop_lt (by decide) _he
  exact h'.trans h

def detectAndParseBlockSequence (inReasoning : Bool) (text : List Char) :
    List (Kind × List Char) :=
  let blocks :=
    if inReasoning then
      match find thinkEndToken text with
      | none => none
      | some e => some (splitInnerReasoning (text.take e) ++
          blockLoop (text.drop (e + thinkEndToken.length)))
    else some (blockLoop text)
  match blocks with
  -- The block that was resumed does not end.
  | none => splitInnerReasoning text ++ [(.text, [])]
  | some blocks =>
    -- Empty text blocks go, but for the last one.
    blocks.dropLast.filter (fun b => ¬ (b.1 = .text ∧ b.2 = [])) ++ blocks.getLast?.toList

def join (k : Kind) (blocks : List (Kind × List Char)) : List Char :=
  (blocks.filter fun b => b.1 = k).flatMap Prod.snd

def detectAndParse (forceNonemptyContent inReasoning : Bool) (text : List Char) : ParseResult :=
  let blocks := detectAndParseBlockSequence inReasoning text
  let ret : ParseResult := ⟨join .reasoning blocks, join .text blocks⟩
  if forceNonemptyContent ∧ ret.normalText = [] then ⟨ret.normalText, ret.reasoningText⟩ else ret

/-! ## Section 2: The streaming parser -/

def endsWithPartialToken (buffer token : List Char) : Nat :=
  ((List.range' 1 (min (buffer.length + 1) token.length - 1)).find? fun i =>
    buffer.drop (buffer.length - i) <+: token).getD 0

/-- The state of the detector between two chunks. -/
structure Detector where
  inReasoning : Bool
  inInnerTool : Bool
  reasoningAcc : List Char
  buffer : List Char
deriving DecidableEq

/-- `__init__`, with the previous content of a message that is continued. -/
def Detector.new (previousContent : List Char) : Detector where
  inReasoning := thinkStartToken <:+: previousContent ∧ ¬ thinkEndToken <:+: previousContent
  inInnerTool := false
  reasoningAcc := []
  buffer := []

/-- `(buffer[:-hold], buffer[-hold:])`, or `(buffer, "")` if there is nothing to hold. -/
def splitHeld (buffer : List Char) (held : Nat) : List Char × List Char :=
  if held = 0 then (buffer, [])
  else (buffer.take (buffer.length - held), buffer.drop (buffer.length - held))

/-- The reasoning block ends at `pos`. -/
def endBlock (streamReasoning : Bool) (d : Detector) (pos : Nat) : Detector × ParseResult :=
  let chunk := d.buffer.take pos
  let d := { d with inReasoning := false, buffer := d.buffer.drop (pos + thinkEndToken.length) }
  if streamReasoning then (d, ⟨chunk, []⟩)
  else ({ d with reasoningAcc := [] }, ⟨d.reasoningAcc ++ chunk, []⟩)

/-- A tool section starts at `pos`. -/
def startTool (streamReasoning : Bool) (d : Detector) (pos : Nat) : Detector × ParseResult :=
  let chunk := d.buffer.take pos
  let d := { d with inInnerTool := true, buffer := d.buffer.drop pos }
  if streamReasoning then (d, ⟨chunk, []⟩)
  else ({ d with reasoningAcc := d.reasoningAcc ++ chunk }, ⟨[], []⟩)

/-- The end of an iteration. -/
inductive Next where
  /-- `continue` -/
  | go
  /-- `return` -/
  | stop
deriving DecidableEq

/-- One iteration of `parse_streaming_increment`: the state and what is put out. -/
def iterate (streamReasoning : Bool) (d : Detector) : Next × Detector × ParseResult :=
  if ¬ d.inReasoning then
    match find thinkStartToken d.buffer with
    | none =>
      let (out, held) := splitHeld d.buffer (endsWithPartialToken d.buffer thinkStartToken)
      (.stop, { d with buffer := held }, ⟨[], out⟩)
    | some s =>
      let buffer := d.buffer.drop (s + thinkStartToken.length)
      (.go, ⟨true, false, [], buffer⟩, ⟨[], d.buffer.take s⟩)
  else if d.inInnerTool then
    match find toolEndToken d.buffer with
    | none =>
      let (out, held) := splitHeld d.buffer (endsWithPartialToken d.buffer toolEndToken)
      (.stop, { d with buffer := held }, ⟨[], out⟩)
    | some e =>
      (.go, { d with inInnerTool := false, buffer := d.buffer.drop (e + toolEndToken.length) },
        ⟨[], d.buffer.take (e + toolEndToken.length)⟩)
  else
    match find toolStartToken d.buffer, find thinkEndToken d.buffer with
    | none, none =>
      if streamReasoning then
        let (out, held) := splitHeld d.buffer (max (endsWithPartialToken d.buffer thinkEndToken)
          (endsWithPartialToken d.buffer toolStartToken))
        (.stop, { d with buffer := held }, ⟨out, []⟩)
      else (.stop, d, ⟨[], []⟩)
    | none, some posEnd => (.go, endBlock streamReasoning d posEnd)
    | some posTool, none => (.go, startTool streamReasoning d posTool)
    | some posTool, some posEnd =>
      if posEnd ≤ posTool then (.go, endBlock streamReasoning d posEnd)
      else (.go, startTool streamReasoning d posTool)

/-- A tool section that starts takes no text, but it starts once. -/
def Detector.size (d : Detector) : Nat :=
  2 * d.buffer.length + if d.inInnerTool then 0 else 1

theorem size_endBlock (streamReasoning : Bool) {d : Detector} {pos : Nat}
    (h : find thinkEndToken d.buffer = some pos) :
    (endBlock streamReasoning d pos).1.size < d.size := by
  have hlt := length_drop_lt (by decide) h
  cases streamReasoning <;> simp only [endBlock, Detector.size] <;> split <;> simp_all

theorem size_startTool (streamReasoning : Bool) {d : Detector} (pos : Nat)
    (hd : d.inInnerTool = false) : (startTool streamReasoning d pos).1.size < d.size := by
  have hsize : (startTool streamReasoning d pos).1.size = 2 * (d.buffer.drop pos).length := by
    cases streamReasoning
    · rfl
    · rfl
  rw [hsize, Detector.size, hd, if_neg Bool.false_ne_true, length_drop]
  omega

theorem iterate_size (streamReasoning : Bool) (d : Detector)
    (h : (iterate streamReasoning d).1 = .go) :
    (iterate streamReasoning d).2.1.size < d.size := by
  unfold iterate at h ⊢
  split
  · next hnormal =>
    rw [if_pos hnormal] at h
    split at h
    · cases h
    · next s hs =>
      have hlt := length_drop_lt (by decide) hs
      simp only [Detector.size]
      split <;> simp_all
      omega
  · next hnormal =>
    rw [if_neg hnormal] at h
    split
    · next htool =>
      rw [if_pos htool] at h
      split at h
      · cases h
      · next e he =>
        have hlt := length_drop_lt (by decide) he
        simp only [Detector.size, htool]
        simp_all
        omega
    · next htool =>
      rw [if_neg htool] at h
      have htool : d.inInnerTool = false := by simpa using htool
      split at h
      · split at h <;> cases h
      · next posEnd _ hend => exact size_endBlock streamReasoning hend
      · next posTool _ _ => exact size_startTool streamReasoning posTool htool
      · next posTool posEnd _ hend =>
        split
        · exact size_endBlock streamReasoning hend
        · exact size_startTool streamReasoning posTool htool

/-- The loop of `parse_streaming_increment`. -/
def loop (streamReasoning : Bool) (d : Detector) : Detector × ParseResult :=
  match _h : iterate streamReasoning d with
  | (.stop, d', out) => (d', out)
  | (.go, d', out) =>
    let (d'', out') := loop streamReasoning d'
    (d'', out.append out')
termination_by d.size
decreasing_by
  have hlt := iterate_size streamReasoning d (by rw [_h])
  rw [_h] at hlt
  exact hlt

def parseStreamingIncrement (streamReasoning : Bool) (d : Detector) (newText : List Char) :
    Detector × ParseResult :=
  loop streamReasoning { d with buffer := d.buffer ++ newText }

/-- The chunks of a stream, one after the other. -/
def parseStream (streamReasoning : Bool) : Detector → List (List Char) → Detector × ParseResult :=
  streamChunks (parseStreamingIncrement streamReasoning)

end Sglang.Parser.Apertus
